import Portty.Transport.PeersExec

/-!
# Commits that fail

Every store call of a commit can fail, and a failed write leaves its record with the old or with
the new content. The store in memory and its records are arbitrary: after an earlier failed write
they need not agree. The results say what such a commit leaves behind and when that authorizes
nobody.

* **`Left`**: what a commit that returned an error has changed: which records it has rewritten, and
  what the store in memory took over. `commitLeft` computes it from the outcomes of the calls,
  `hostCommitLeft` for the host's commit.
* **`commitHandshake_left`, `commitHostHandshake_left`**: the commit returns an error if and only
  if `commitLeft` says so, and it leaves exactly that in memory and on the records.
* **`Harmless`**: when what was left accepts no token that neither memory nor the records accepted
  before, and lifts no revocation.
-/

namespace Portty

open Records

/-- The pair-state record after a commit that failed. -/
inductive LeftPairState where
  /-- As it was. -/
  | untouched
  /-- Rewritten with the generations in memory, the new one taken back. -/
  | back
  /-- Rewritten with the new generation. -/
  | installed
  deriving DecidableEq, Repr

/-- The tombstones in memory after a commit that failed. -/
inductive LeftTombstones where
  /-- As they were. -/
  | kept
  /-- The peer's is gone: the record could not be read back. -/
  | erased
  /-- Those of the record; the peer's is gone if there is none, or if it does not decode. -/
  | reread
  deriving DecidableEq, Repr

/-- What a commit that failed has changed. -/
structure Left where
  /-- The peers record is rewritten, with the new token. -/
  peers : Bool := false
  pairState : LeftPairState := .untouched
  /-- The tombstone record is rewritten, without the peer. -/
  revocations : Bool := false
  /-- The new token and generation stayed in memory. -/
  memory : Bool := false
  tombstones : LeftTombstones := .kept
  /-- The peer's grace token in memory, if one was staged. -/
  staged : Option GraceToken := none
  /-- The staged grace token, if the grace record is rewritten with it. -/
  written : Option GraceToken := none
  deriving DecidableEq, Repr

namespace PeerStore

/-- What a failed installation of a generation leaves: `os` are the outcomes of the pair-state
write, the token write and the write that takes the generation back. -/
def installLeft (os : List (Outcome IoError)) : Option Left :=
  let pairState := os.getD 0 .ok
  let peers := os.getD 1 .ok
  let rollback := os.getD 2 .ok
  if pairState.failed then
    some { pairState := if pairState.leftNew then .installed else .untouched }
  else if peers.failed then
    some { peers := peers.leftNew,
           pairState := if rollback.failed && !rollback.leftNew then .installed else .back }
  else none

/-- What a failed clearing of a tombstone leaves, after an installation: the outcomes are those of
the write and of the read that follows its failure. -/
def clearLeft (write read : Outcome IoError) : Option Left :=
  if write.failed then
    some { peers := true, pairState := .installed, memory := true, revocations := write.leftNew,
           tombstones := if read.failed then .erased else .reread }
  else none

/-- What a failed `commit_handshake` leaves. -/
def commitLeft (s : PeerStore) (peer : DeviceId) (c : HandshakeCommit)
    (os : List (Outcome IoError)) : Option Left :=
  if c.resumed then
    if s.isRevoked peer || !s.tokenIsUnchanged peer c.observedToken then some {}
    else if (s.pairState.lookup peer).isSome then
      if (os.getD 0 .ok).failed then some { peers := (os.getD 0 .ok).leftNew } else none
    else installLeft os
  else if s.revocationMarker peer ≠ c.observedRevocation then some {}
  else match installLeft os with
    | some l => some l
    | none => if s.isRevoked peer then clearLeft (os.getD 2 .ok) (os.getD 3 .ok) else none

variable {B : Type} [Postcard B]

/-- The contents of the records. -/
abbrev Contents (B : Type) := RecordName → Option B

/-- What the records hold. -/
def contents (d : Disk RecordName B) : Contents B := fun n => (d n).current

omit [Postcard B] in
/-- What a write leaves in the records. -/
theorem contents_write (d : Disk RecordName B) (n : RecordName) (b : B) (sync : Bool)
    (o : Outcome IoError) :
    contents (Function.update d n ((d n).write b sync o)) =
      if o.failed && !o.leftNew then contents d else Function.update (contents d) n (some b) := by
  funext m
  by_cases hm : m = n
  · subst hm
    rw [contents, Function.update_self, Slot.current_write]
    split
    · rfl
    · rw [Function.update_self]
  · rw [contents, Function.update_of_ne hm]
    split
    · rfl
    · rw [Function.update_of_ne hm]
      rfl

/-- The store that `load_from` makes of the contents of the records. -/
def decode (r : Contents B) : Except IoError PeerStore :=
  (revocationsOf (r .revocations)).map fun revocations =>
    { map := mapOf (r .peers), pairState := mapOf (r .pairState), revocations,
      grace := mapOf (r .grace), lastConnected := (r .lastHost).bind Codec.fromBytes }

theorem loadFrom_eq_decode (d : Disk RecordName B) :
    ((loadFrom (B := B)).exec [] d).1 = decode (contents d) := loadFrom_exec d

/-! ## What a failed commit leaves -/

section Left

variable (s : PeerStore) (peer : DeviceId) (c : HandshakeCommit) (l : Left) (r : Contents B)

/-- The contents of the records after a commit that left `l`; before it they were `r`. -/
def leftOnRecords : Contents B
  | .peers => if l.peers then some (Codec.toAllocvec (s.leave peer c true false false).map)
      else r .peers
  | .pairState => match l.pairState with
    | .untouched => r .pairState
    | .back => some (Codec.toAllocvec s.pairState)
    | .installed => some (Codec.toAllocvec (s.leave peer c false true false).pairState)
  | .revocations => if l.revocations then some (Codec.toAllocvec (s.revocations.erase peer))
      else r .revocations
  | .grace => match l.written with
    | none => r .grace
    | some g => some (Codec.toAllocvec (s.grace.insert peer g))
  | .identity => r .identity
  | .lastHost => r .lastHost

/-- The tombstones in memory after a commit that left `l`. -/
def leftTombstones : FMap DeviceId RevocationRecord :=
  match l.tombstones with
  | .kept => s.revocations
  | .erased => s.revocations.erase peer
  | .reread => ((leftOnRecords s peer c l r .revocations).bind Codec.fromBytes).getD
      (s.revocations.erase peer)

/-- The store in memory after a commit that left `l`. -/
def leftInMemory : PeerStore :=
  { s.leave peer c l.memory l.memory false with
    revocations := leftTombstones s peer c l r
    grace := match l.staged with
      | none => s.grace
      | some g => s.grace.insert peer g }

variable {s peer c l r} {d : Disk RecordName B} {os : List (Outcome IoError)}

theorem leftOnRecords_nothing : leftOnRecords s peer c {} r = r := by
  funext n
  cases n <;> rfl

theorem leftInMemory_installLeft (hl : installLeft os = some l) :
    leftInMemory s peer c l r = s := by
  simp only [installLeft] at hl
  split at hl
  · cases hl; rfl
  split at hl
  · cases hl; rfl
  · cases hl

/-- How a commit ends: it has failed and left `l`, or it has succeeded. -/
def Ends (s : PeerStore) (peer : DeviceId) (c : HandshakeCommit) (d : Disk RecordName B)
    (l : Option Left)
    (x : (Except IoError PairId × PeerStore) × Disk RecordName B × List (Outcome IoError)) : Prop :=
  match l with
  | some l => ∃ e d' os', x = ((.error e, leftInMemory s peer c l (contents d)), d', os') ∧
      contents d' = leftOnRecords s peer c l (contents d)
  | none => ∃ pairId s' d' os', x = ((.ok pairId, s'), d', os')

/-- The outcomes decide whether an installation fails and what it leaves then. -/
theorem installGeneration_left (s : PeerStore) (peer : DeviceId) (c : HandshakeCommit)
    (os : List (Outcome IoError)) (d : Disk RecordName B) (dur : Durability) :
    match installLeft os with
    | some l => ∃ e d' os', (installGeneration s peer c dur).exec os d = ((.error e, s), d', os') ∧
        contents d' = leftOnRecords s peer c l (contents d)
    | none => ∃ d', (installGeneration s peer c dur).exec os d =
          ((.ok (), s.leave peer c true true false), d', os.drop 2) ∧
        contents d' =
          leftOnRecords s peer c { peers := true, pairState := .installed } (contents d) := by
  rw [installGeneration, Prog.exec_bind, persistPairState, write_exec, installLeft]
  cases h0 : os.getD 0 .ok with
  | failedOld e | failedNew e =>
    simp only [Outcome.reply, restorePairState_insert]
    refine ⟨_, _, _, rfl, ?_⟩
    rw [contents_write]
    funext n
    cases n <;> rfl
  | ok =>
    simp only [Outcome.failed_ok, Bool.false_eq_true, ↓reduceIte, Outcome.reply]
    rw [Prog.exec_bind, rememberToken_exec, getD_drop]
    cases h1 : os.getD 1 .ok with
    | ok =>
      rw [List.drop_drop]
      refine ⟨_, rfl, ?_⟩
      rw [contents_write, contents_write]
      funext n
      cases n <;> rfl
    | failedOld e | failedNew e =>
      simp only [Outcome.failed_failedOld, Outcome.failed_failedNew, ↓reduceIte, Outcome.reply]
      rw [Prog.exec_bind, persistPairState, write_exec, restorePairState_insert, List.drop_drop,
        getD_drop]
      cases h2 : os.getD 2 .ok <;>
      · refine ⟨_, _, _, rfl, ?_⟩
        rw [contents_write, contents_write, contents_write]
        funext n
        cases n <;> rfl

/-- A tombstone that could not be cleared is read back, if it can be read. -/
theorem clearTombstone_left (s : PeerStore) (peer : DeviceId) (os : List (Outcome IoError))
    (d : Disk RecordName B) (hr : s.isRevoked peer = true) (pairId : PairId) :
    if (os.getD 0 .ok).failed then
      ∃ e d' os', (clearTombstone s peer pairId).exec os d = ((.error e,
        { s with revocations := if (os.getD 1 .ok).failed then s.revocations.erase peer
          else ((contents d' .revocations).bind Codec.fromBytes).getD (s.revocations.erase peer) }),
        d', os') ∧
        contents d' = if (os.getD 0 .ok).leftNew then
          Function.update (contents d) .revocations
            (some (Codec.toAllocvec (s.revocations.erase peer)))
          else contents d
    else ∃ s' d' os', (clearTombstone s peer pairId).exec os d = ((.ok pairId, s'), d', os') := by
  have hset : ¬ s.isRevoked peer = false := by simp [hr]
  have hw := contents_write d .revocations (Codec.toAllocvec (s.revocations.erase peer))
    Durability.required.sync (os.getD 0 .ok)
  rw [clearTombstone, if_neg hset, Prog.exec_bind, persistRevocations, write_exec]
  generalize Function.update d .revocations _ = d₁ at hw ⊢
  cases h0 : os.getD 0 .ok with
  | ok => exact ⟨_, _, _, rfl⟩
  | failedOld e | failedNew e =>
    rw [h0] at hw
    simp only [Outcome.failed_failedOld, Outcome.failed_failedNew, ↓reduceIte, Outcome.reply]
    rw [Prog.exec_bind, read_exec, getD_drop]
    cases h1 : os.getD 1 .ok with
    | failedOld e' | failedNew e' => exact ⟨_, _, _, rfl, hw⟩
    | ok =>
      simp only [Outcome.failed_ok, Bool.false_eq_true, ↓reduceIte, Outcome.replyRead]
      -- the record that is read back decodes, or it does not
      cases hb : (d₁ .revocations).current.bind
          (Codec.fromBytes (α := FMap DeviceId RevocationRecord)) with
      | none => exact ⟨_, _, _, by rw [contents, hb]; rfl, hw⟩
      | some fresh => exact ⟨_, _, _, by rw [contents, hb]; rfl, hw⟩

/-- What a resume leaves when a write fails. -/
theorem commitResume_left (s : PeerStore) (peer : DeviceId) (c : HandshakeCommit)
    (os : List (Outcome IoError)) (d : Disk RecordName B)
    (hr : s.isRevoked peer = false) (ht : s.tokenIsUnchanged peer c.observedToken = true) :
    s.Ends peer c d (if (s.pairState.lookup peer).isSome then
        if (os.getD 0 .ok).failed then some { peers := (os.getD 0 .ok).leftNew } else none
      else installLeft os) ((commitResume s peer c).exec os d) := by
  have hactive : ¬ s.isRevoked peer = true := by simp [hr]
  have hsame : ¬ (!s.tokenIsUnchanged peer c.observedToken) = true := by simp [ht]
  rw [commitResume, ← isRevoked_eq, if_neg hactive, if_neg hsame]
  cases hp : s.pairState.lookup peer with
  | some existing =>
    simp only [Option.isSome_some, ↓reduceIte]
    rw [Prog.exec_bind, rememberToken_exec]
    cases h0 : os.getD 0 .ok with
    | ok => exact ⟨_, _, _, _, rfl⟩
    | failedOld e | failedNew e =>
      refine ⟨_, _, _, rfl, ?_⟩
      rw [contents_write]
      funext n
      cases n <;> rfl
  | none =>
    have hi := installGeneration_left s peer c os d .bestEffort
    simp only [Option.isSome_none, Bool.false_eq_true, ↓reduceIte]
    rw [Prog.exec_bind]
    cases hl : installLeft os with
    | some l =>
      rw [hl] at hi
      obtain ⟨e, d', os', hx, hd⟩ := hi
      rw [hx]
      exact ⟨e, d', os', by rw [leftInMemory_installLeft hl]; rfl, hd⟩
    | none =>
      rw [hl] at hi
      obtain ⟨d', hx, -⟩ := hi
      rw [hx]
      exact ⟨_, _, _, _, rfl⟩

/-- A cleared tombstone that failed, after an installation. -/
theorem ends_clearTombstone (s : PeerStore) (peer : DeviceId) (c : HandshakeCommit)
    (os : List (Outcome IoError)) (d : Disk RecordName B) {d₁ : Disk RecordName B}
    (hd : contents d₁ =
      leftOnRecords s peer c { peers := true, pairState := .installed } (contents d))
    (hr : s.isRevoked peer = true) :
    s.Ends peer c d (clearLeft (os.getD 0 .ok) (os.getD 1 .ok))
      ((clearTombstone (s.leave peer c true true false) peer c.candidatePairId).exec os d₁) := by
  have hc := clearTombstone_left (s.leave peer c true true false) peer os d₁
    (by simpa [isRevoked, leave] using hr) c.candidatePairId
  rw [clearLeft]
  cases hw : (os.getD 0 .ok).failed with
  | false =>
    simp only [hw, Bool.false_eq_true, ↓reduceIte] at hc
    exact ⟨_, hc⟩
  | true =>
    simp only [hw, ↓reduceIte] at hc
    obtain ⟨e, d', os', hx, hd'⟩ := hc
    -- the tombstone record is the only one that changed
    have hrec : contents d' = leftOnRecords s peer c
        { peers := true, pairState := .installed, revocations := (os.getD 0 .ok).leftNew }
        (contents d) := by
      rw [hd', hd]
      cases (os.getD 0 .ok).leftNew <;>
      · funext n
        cases n <;> rfl
    refine ⟨e, d', os', ?_, hrec⟩
    rw [hx, hrec]
    cases (os.getD 1 .ok).failed <;> rfl

/-- What a fresh commit leaves when a write fails. -/
theorem commitFresh_left (s : PeerStore) (peer : DeviceId) (c : HandshakeCommit)
    (os : List (Outcome IoError)) (d : Disk RecordName B)
    (hm : s.revocationMarker peer = c.observedRevocation) :
    s.Ends peer c d (match installLeft os with
      | some l => some l
      | none => if s.isRevoked peer then clearLeft (os.getD 2 .ok) (os.getD 3 .ok) else none)
      ((commitFresh s peer c).exec os d) := by
  have hi := installGeneration_left s peer c os d .required
  rw [commitFresh, if_neg (not_not.mpr hm), Prog.exec_bind]
  cases hl : installLeft os with
  | some l =>
    rw [hl] at hi
    obtain ⟨e, d', os', hx, hd⟩ := hi
    rw [hx]
    exact ⟨e, d', os', by rw [leftInMemory_installLeft hl]; rfl, hd⟩
  | none =>
    rw [hl] at hi
    obtain ⟨d₁, hx, hd⟩ := hi
    rw [hx]
    show s.Ends peer c d _ ((clearTombstone (s.leave peer c true true false) peer
      c.candidatePairId).exec (os.drop 2) d₁)
    cases hr : s.isRevoked peer with
    | true =>
      have hc := ends_clearTombstone s peer c (os.drop 2) d hd hr
      rw [getD_drop, getD_drop] at hc
      exact hc
    | false =>
      have hactive : (s.leave peer c true true false).isRevoked peer = false := hr
      rw [clearTombstone, if_pos hactive]
      exact ⟨_, _, _, _, rfl⟩

theorem ends_refused {e : IoError} :
    s.Ends peer c d (some {}) ((.error e, s), d, os) :=
  ⟨e, d, os, rfl, leftOnRecords_nothing.symm⟩

/-- The commit fails exactly when `commitLeft` says so, and leaves what it says. -/
theorem commitHandshake_left (s : PeerStore) (peer : DeviceId) (c : HandshakeCommit)
    (os : List (Outcome IoError)) (d : Disk RecordName B) :
    s.Ends peer c d (commitLeft s peer c os) ((commitHandshake s peer c).exec os d) := by
  rw [commitLeft, commitHandshake]
  cases hres : c.resumed with
  | true =>
    cases hr : s.isRevoked peer with
    | true =>
      rw [commitResume, ← isRevoked_eq, hr]
      exact ends_refused
    | false =>
      cases ht : s.tokenIsUnchanged peer c.observedToken with
      | true => exact commitResume_left s peer c os d hr ht
      | false =>
        rw [commitResume, ← isRevoked_eq, hr, ht]
        exact ends_refused
  | false =>
    by_cases hm : s.revocationMarker peer = c.observedRevocation
    · simp only [Bool.false_eq_true, ↓reduceIte, ne_eq, hm, not_true_eq_false]
      exact commitFresh_left s peer c os d hm
    · simp only [Bool.false_eq_true, ↓reduceIte, ne_eq, hm, not_false_eq_true, commitFresh]
      exact ends_refused

/-- What a failed `commit_host_handshake` leaves: a grace token that was staged is in memory, and on
its record unless the write failed with the old content. -/
def hostCommitLeft (s : PeerStore) (peer : DeviceId) (c : HandshakeCommit) (r : ResumedWith)
    (os : List (Outcome IoError)) : Option Left :=
  if !c.resumed || r = .previousToken then s.commitLeft peer c os
  else match s.stagedGrace peer c with
    | none => s.commitLeft peer c os
    | some g => (s.commitLeft peer c (os.drop 1)).map fun l =>
        { l with
          staged := some g
          written := if (os.getD 0 .ok).failed && !(os.getD 0 .ok).leftNew then none else some g }

theorem installLeft_spec (h : installLeft os = some l) :
    l = { peers := l.peers, pairState := l.pairState } := by
  simp only [installLeft] at h
  split at h
  · cases h; rfl
  split at h
  · cases h; rfl
  · cases h

/-- `commit_handshake` stages no grace token, and its new token and generation stay in memory only
where the tombstone of the peer could not be cleared. -/
theorem commitLeft_spec (h : s.commitLeft peer c os = some l) :
    l.staged = none ∧ l.written = none ∧
    (l.tombstones = .kept ∧ l.memory = false ∧ l.revocations = false ∨
      l.tombstones ≠ .kept ∧ s.isRevoked peer = true) := by
  have hi (hl : installLeft os = some l) : l.staged = none ∧ l.written = none ∧
      (l.tombstones = .kept ∧ l.memory = false ∧ l.revocations = false ∨
        l.tombstones ≠ .kept ∧ s.isRevoked peer = true) := by
    rw [installLeft_spec hl]
    exact ⟨rfl, rfl, .inl ⟨rfl, rfl, rfl⟩⟩
  rw [commitLeft] at h
  split at h
  · split at h
    · cases h; exact ⟨rfl, rfl, .inl ⟨rfl, rfl, rfl⟩⟩
    split at h
    · split at h
      · cases h; exact ⟨rfl, rfl, .inl ⟨rfl, rfl, rfl⟩⟩
      · cases h
    · exact hi h
  · split at h
    · cases h; exact ⟨rfl, rfl, .inl ⟨rfl, rfl, rfl⟩⟩
    split at h
    · cases h; exact hi ‹_›
    split at h
    · rename_i hr
      rw [clearLeft] at h
      split at h
      · cases h
        refine ⟨rfl, rfl, .inr ⟨?_, hr⟩⟩
        dsimp only
        split <;> decide
      · cases h
    · cases h

/-- The rest of the commit does not look at the grace token that was staged. -/
theorem commitHandshake_staged (s : PeerStore) (peer : DeviceId) (c : HandshakeCommit)
    (g : GraceToken) (o : Outcome IoError) (os : List (Outcome IoError)) (d : Disk RecordName B) :
    s.Ends peer c d ((s.commitLeft peer c os).map fun l =>
        { l with
          staged := some g
          written := if o.failed && !o.leftNew then none else some g })
      ((commitHandshake { s with grace := s.grace.insert peer g } peer c).exec os
        (Function.update d .grace
          ((d .grace).write (Codec.toAllocvec (s.grace.insert peer g)) false o))) := by
  have h := commitHandshake_left { s with grace := s.grace.insert peer g } peer c os
    (Function.update d .grace
      ((d .grace).write (Codec.toAllocvec (s.grace.insert peer g)) false o))
  have hl : { s with grace := s.grace.insert peer g }.commitLeft peer c os =
      s.commitLeft peer c os := rfl
  rw [hl] at h
  cases hs : s.commitLeft peer c os with
  | none =>
    rw [hs] at h
    exact h
  | some l =>
    rw [hs] at h
    obtain ⟨e, d', os', hx, hd⟩ := h
    obtain ⟨hstaged, hwritten, -⟩ := commitLeft_spec hs
    rw [contents_write] at hx hd
    refine ⟨e, d', os', ?_, ?_⟩
    · rw [hx]
      cases o.failed && !o.leftNew <;>
        simp only [leftInMemory, leftTombstones, leftOnRecords, hstaged] <;> rfl
    · rw [hd]
      funext n
      cases n <;> cases o.failed && !o.leftNew <;> simp only [leftOnRecords, hwritten] <;> rfl

/-- The same for the commit on the host. -/
theorem commitHostHandshake_left (s : PeerStore) (peer : DeviceId) (c : HandshakeCommit)
    (os : List (Outcome IoError)) (d : Disk RecordName B) (r : ResumedWith) :
    s.Ends peer c d (hostCommitLeft s peer c r os)
      ((commitHostHandshake s peer c r).exec os d) := by
  have hc := commitHandshake_left s peer c os d
  rw [hostCommitLeft, commitHostHandshake]
  by_cases hk : (!c.resumed || decide (r = .previousToken)) = true
  · rw [if_pos hk, if_pos hk, Prog.exec_bind]
    -- the grace token is dropped after a commit that has succeeded
    cases hl : s.commitLeft peer c os with
    | some l =>
      rw [hl] at hc
      obtain ⟨e, d', os', hx, hd⟩ := hc
      rw [hx]
      exact ⟨e, d', os', rfl, hd⟩
    | none =>
      rw [hl] at hc
      obtain ⟨pairId, s', d', os', hx⟩ := hc
      rw [hx]
      simp only [Prog.exec_bind]
      exact ⟨_, _, _, _, rfl⟩
  · rw [if_neg hk, if_neg hk, Prog.exec_bind, stageGrace]
    cases hg : s.stagedGrace peer c with
    | none => exact hc
    | some g =>
      simp only [setGrace_exec]
      exact commitHandshake_staged s peer c g (os.getD 0 .ok) (os.drop 1) d

end Left

/-! ## When that authorizes nobody -/

section Harmless

variable (s s₀ : PeerStore) (peer : DeviceId) (c : HandshakeCommit) (l : Left) (r : Contents B)

/-- A token of a device that was accepted before: in memory, or by the store that loads from the
records. -/
def AcceptedBefore (d : Disk RecordName B) (x : DeviceId) (t : ResumptionToken) : Prop :=
  s.Accepts x t ∨ ∃ s₀, ((loadFrom (B := B)).exec [] d).1 = .ok s₀ ∧ s₀.Accepts x t

/-- The tombstones in memory are all there: they were not touched, or they are those of the record,
which was not rewritten, decodes and has each of them. -/
def TombstonesKept : Prop :=
  match l.tombstones with
  | .kept => True
  | .erased => False
  | .reread => l.revocations = false ∧ ∃ m : FMap DeviceId RevocationRecord,
      (r .revocations).bind Codec.fromBytes = some m ∧
      ∀ x, s.isRevoked x = true → (m.lookup x).isSome = true

/-- The maps in memory where their record was rewritten, and those of the records elsewhere. -/
def mixed : PeerStore :=
  { s₀ with
    map := if l.peers then s.map else s₀.map
    pairState := if l.pairState = .untouched then s₀.pairState else s.pairState
    grace := if l.written.isSome then s.grace else s₀.grace }

/-- The peer's generation on the records. -/
def leftPairId : Option PairId :=
  match l.pairState with
  | .untouched => (s₀.pairState.lookup peer).map (·.pairId)
  | .back => (s.pairState.lookup peer).map (·.pairId)
  | .installed => some c.candidatePairId

/-- The records that were rewritten accept nothing new beside the others; the records held `s₀`. -/
structure RecordsHarmless : Prop where
  /-- The new token is on its record: the peer is revoked there, or the token was accepted. -/
  token : l.peers = true → s₀.isRevoked peer = false →
    s.Accepts peer c.token ∨ s₀.Accepts peer c.token
  /-- So for the peer's grace token, if its generation is the one on the records. -/
  grace : s₀.isRevoked peer = false → l.peers = true ∨ (s₀.map.lookup peer).isSome = true →
    ∀ g, l.written.or (s₀.grace.lookup peer) = some g →
      leftPairId s s₀ peer c l = some g.pairId → s.Accepts peer g.token ∨ s₀.Accepts peer g.token
  /-- Of another device, the mix of the maps accepts nothing that neither side accepts. -/
  others : ∀ x ≠ peer, ∀ t, (mixed s s₀ l).Accepts x t → s.Accepts x t ∨ s₀.Accepts x t

/-- What failed calls left behind authorizes nobody: the tombstones are there, and if the records
`d` loaded before, those that were rewritten are harmless. -/
structure Harmless (d : Disk RecordName B) : Prop where
  tombstones : TombstonesKept s l (contents d)
  records : ∀ s₀, ((loadFrom (B := B)).exec [] d).1 = .ok s₀ → RecordsHarmless s s₀ peer c l

/-- The store that the records hold afterwards, if the tombstone record is not rewritten. -/
def leftLoaded : PeerStore :=
  { s₀ with
    map := if l.peers then (s.leave peer c true false false).map else s₀.map
    pairState := match l.pairState with
      | .untouched => s₀.pairState
      | .back => s.pairState
      | .installed => (s.leave peer c false true false).pairState
    grace := match l.written with
      | none => s₀.grace
      | some g => s.grace.insert peer g }

variable {s s₀ peer c l r}

theorem TombstonesKept.revocations (h : TombstonesKept s l r)
    (hl : l.tombstones = .kept → l.revocations = false) : l.revocations = false := by
  rw [TombstonesKept] at h
  split at h
  · exact hl ‹_›
  · exact h.elim
  · exact h.1

/-- What is loaded from the records that are left. -/
theorem decode_leftOnRecords (hl : l.revocations = false) (h : decode r = .ok s₀) :
    decode (leftOnRecords s peer c l r) = .ok (leftLoaded s s₀ peer c l) := by
  rw [decode] at h
  cases hr : revocationsOf (r .revocations) with
  | error e => rw [hr] at h; cases h
  | ok m =>
    rw [hr] at h
    cases h
    have hrev : leftOnRecords s peer c l r .revocations = r .revocations := by
      rw [leftOnRecords, hl]; rfl
    rw [decode, hrev, hr]
    refine congrArg Except.ok ?_
    simp only [leftLoaded, PeerStore.mk.injEq, true_and]
    refine ⟨?_, ?_, ?_⟩
    · cases hp : l.peers <;> simp [leftOnRecords, hp]
    · cases hp : l.pairState <;> simp [leftOnRecords, hp]
    · cases hp : l.written <;> simp [leftOnRecords, hp]

/-- The records load afterwards only if they loaded before. -/
theorem decode_of_leftOnRecords {s' : PeerStore} (hl : l.revocations = false)
    (h : decode (leftOnRecords s peer c l r) = .ok s') :
    ∃ s₀, decode r = .ok s₀ ∧ s' = leftLoaded s s₀ peer c l := by
  have hrev : leftOnRecords s peer c l r .revocations = r .revocations := by
    rw [leftOnRecords, hl]; rfl
  have hr : ∃ m, revocationsOf (r .revocations) = .ok m := by
    rw [decode, hrev] at h
    cases hr : revocationsOf (r .revocations) with
    | error e => rw [hr] at h; cases h
    | ok m => exact ⟨m, rfl⟩
  obtain ⟨m, hr⟩ := hr
  have h₀ : ∃ s₀, decode r = .ok s₀ := ⟨_, by rw [decode, hr]; rfl⟩
  obtain ⟨s₀, h₀⟩ := h₀
  rw [decode_leftOnRecords hl h₀] at h
  cases h
  exact ⟨s₀, h₀, rfl⟩

/-- Another device is accepted as by the records. -/
theorem accepts_leftLoaded_of_ne {x : DeviceId} (hx : x ≠ peer) (t : ResumptionToken) :
    (leftLoaded s s₀ peer c l).Accepts x t ↔ (mixed s s₀ l).Accepts x t := by
  have hm : (leftLoaded s s₀ peer c l).map.lookup x = (mixed s s₀ l).map.lookup x := by
    cases hp : l.peers
    · simp [leftLoaded, mixed, hp]
    · simpa [leftLoaded, mixed, hp] using (lookup_leave_of_ne s c true false false hx).1
  have hpair : (leftLoaded s s₀ peer c l).pairState.lookup x =
      (mixed s s₀ l).pairState.lookup x := by
    cases hp : l.pairState
    · simp [leftLoaded, mixed, hp]
    · simp [leftLoaded, mixed, hp]
    · simpa [leftLoaded, mixed, hp] using (lookup_leave_of_ne s c false true false hx).2.1
  have hg : (leftLoaded s s₀ peer c l).grace.lookup x = (mixed s s₀ l).grace.lookup x := by
    cases hp : l.written <;> simp [leftLoaded, mixed, hp, hx]
  exact accepts_congr hm hpair rfl hg t

/-- The peer's own tokens on the records. -/
theorem accepts_leftLoaded_self {t : ResumptionToken} :
    (leftLoaded s s₀ peer c l).Accepts peer t ↔ s₀.isRevoked peer = false ∧
      ((if l.peers then some c.token else (s₀.map.lookup peer).map (·.token)) = some t ∨
        (l.peers = true ∨ (s₀.map.lookup peer).isSome = true) ∧
        ∃ g, l.written.or (s₀.grace.lookup peer) = some g ∧
          leftPairId s s₀ peer c l = some g.pairId ∧ g.token = t) := by
  have hmap : (leftLoaded s s₀ peer c l).map.lookup peer =
      if l.peers then some ⟨c.ticket <|> (s.map.lookup peer).bind (·.ticket), c.token⟩
      else s₀.map.lookup peer := by
    cases hp : l.peers
    · simp [leftLoaded, hp]
    · simp [leftLoaded, hp, lookup_map_leave]
  have hpair : ((leftLoaded s s₀ peer c l).pairState.lookup peer).map (·.pairId) =
      leftPairId s s₀ peer c l := by
    cases hp : l.pairState
    · simp [leftLoaded, leftPairId, hp]
    · simp [leftLoaded, leftPairId, hp]
    · simp [leftLoaded, leftPairId, hp, lookup_pairState_leave]
  have hgrace : (leftLoaded s s₀ peer c l).grace.lookup peer =
      l.written.or (s₀.grace.lookup peer) := by
    cases hp : l.written <;> simp [leftLoaded, hp]
  rw [accepts_iff, hmap, hpair, hgrace]
  show (s₀.isRevoked peer = false ∧ _) ↔ _
  cases l.peers <;> cases s₀.map.lookup peer <;> simp

/-- When the records let no one in who was not let in before. -/
theorem recordsHarmless_iff : RecordsHarmless s s₀ peer c l ↔
    ∀ x t, (leftLoaded s s₀ peer c l).Accepts x t → s.Accepts x t ∨ s₀.Accepts x t := by
  constructor
  · intro h x t ht
    by_cases hx : x = peer
    · subst hx
      obtain ⟨hr, htok | ⟨hm, g, hg, hid, rfl⟩⟩ := accepts_leftLoaded_self.mp ht
      · split at htok
        · cases htok
          exact h.token ‹_› hr
        · obtain ⟨rec, hrec, rfl⟩ := Option.map_eq_some_iff.mp htok
          exact .inr (accepts_iff.mpr ⟨hr, rec, hrec, .inl rfl⟩)
      · exact h.grace hr hm g hg hid
    · exact h.others x hx t ((accepts_leftLoaded_of_ne hx t).mp ht)
  · intro h
    refine ⟨fun hp hr => ?_, fun hr hm g hg hid => ?_, fun x hx t ht => ?_⟩
    · exact h peer _ (accepts_leftLoaded_self.mpr ⟨hr, .inl (by rw [hp]; rfl)⟩)
    · exact h peer _ (accepts_leftLoaded_self.mpr ⟨hr, .inr ⟨hm, g, hg, hid, rfl⟩⟩)
    · exact h x t ((accepts_leftLoaded_of_ne hx t).mpr ht)

/-- Where memory and the records agree, nothing is mixed. -/
theorem mixed_of_loaded {d : Disk RecordName B} (h : s.Loaded d)
    (h₀ : ((loadFrom (B := B)).exec [] d).1 = .ok s₀) : mixed s s₀ l = s₀ := by
  have h' := loaded_of_loadFrom h₀
  have hm : s.map = s₀.map := h.map.symm.trans h'.map
  have hp : s.pairState = s₀.pairState := h.pairState.symm.trans h'.pairState
  have hg : s.grace = s₀.grace := h.grace.symm.trans h'.grace
  rw [mixed, hm, hp, hg, ite_self, ite_self, ite_self]

/-! ### In memory -/

theorem lookup_leftInMemory_of_ne {x : DeviceId} (hx : x ≠ peer) :
    (leftInMemory s peer c l r).map.lookup x = s.map.lookup x ∧
    (leftInMemory s peer c l r).pairState.lookup x = s.pairState.lookup x ∧
    (leftInMemory s peer c l r).grace.lookup x = s.grace.lookup x := by
  obtain ⟨hm, hp, -⟩ := lookup_leave_of_ne s c l.memory l.memory false hx
  refine ⟨hm, hp, ?_⟩
  cases hs : l.staged <;> simp [leftInMemory, hs, hx]

/-- No device loses its tombstone in memory, if and only if the tombstones are kept. -/
theorem tombstonesKept_iff (hl : l.tombstones = .kept ∨ s.isRevoked peer = true) :
    TombstonesKept s l r ↔
      ∀ x, s.isRevoked x = true → (leftInMemory s peer c l r).isRevoked x = true := by
  -- a tombstone that is erased is missed
  have herased (h : ∀ x, s.isRevoked x = true →
      ((s.revocations.erase peer).lookup x).isSome = true) : s.isRevoked peer = false := by
    by_contra hr
    have hlost := h peer (by simpa using hr)
    rw [Finmap.lookup_erase] at hlost
    cases hlost
  show _ ↔ ∀ x, s.isRevoked x = true → ((leftTombstones s peer c l r).lookup x).isSome = true
  rw [TombstonesKept, leftTombstones]
  cases ht : l.tombstones with
  | kept => exact ⟨fun _ x hx => hx, fun _ => trivial⟩
  | erased =>
    have hr : s.isRevoked peer = true := hl.resolve_left (by rw [ht]; decide)
    refine ⟨False.elim, fun h => ?_⟩
    rw [herased h] at hr
    cases hr
  | reread =>
    have hr : s.isRevoked peer = true := hl.resolve_left (by rw [ht]; decide)
    dsimp only
    cases hrev : l.revocations with
    | true =>
      refine ⟨fun h => (by cases h.1), fun h => ?_⟩
      simp only [leftOnRecords, hrev, ↓reduceIte, Option.bind_some, Codec.fromBytes_toAllocvec,
        Option.getD_some] at h
      rw [herased h] at hr
      cases hr
    | false =>
      simp only [leftOnRecords, hrev, Bool.false_eq_true, ↓reduceIte, true_and]
      cases hb : (r .revocations).bind (Codec.fromBytes (α := FMap DeviceId RevocationRecord)) with
      | none =>
        refine ⟨fun ⟨_, hm, _⟩ => (by cases hm), fun h => ?_⟩
        rw [herased h] at hr
        cases hr
      | some m => exact ⟨fun ⟨_, hm, h⟩ => by cases hm; exact h, fun h => ⟨m, rfl, h⟩⟩

/-- With its tombstones, the store in memory accepts what it accepted before. -/
theorem accepts_leftInMemory (hstaged : ∀ g, l.staged = some g → s.Accepts peer g.token)
    (hl : l.tombstones = .kept ∧ l.memory = false ∨
      l.tombstones ≠ .kept ∧ s.isRevoked peer = true)
    (hkept : ∀ x, s.isRevoked x = true → (leftInMemory s peer c l r).isRevoked x = true)
    {x : DeviceId} {t : ResumptionToken} (h : (leftInMemory s peer c l r).Accepts x t) :
    s.Accepts x t := by
  have hx : s.isRevoked x = false := by
    by_contra hr
    have := (accepts_iff.mp h).1
    rw [hkept x (by simpa using hr)] at this
    cases this
  by_cases hp : x = peer
  · subst hp
    rcases hl with ⟨-, hm⟩ | ⟨-, hr⟩
    · obtain ⟨-, rec, hrec, hor⟩ := accepts_iff.mp h
      simp only [leftInMemory, hm, leave, Bool.false_eq_true, ↓reduceIte] at hrec hor
      rcases hor with htok | ⟨g, hg, hid, htok⟩
      · exact accepts_iff.mpr ⟨hx, rec, hrec, .inl htok⟩
      · cases hs : l.staged with
        | none =>
          rw [hs] at hg
          exact accepts_iff.mpr ⟨hx, rec, hrec, .inr ⟨g, hg, hid, htok⟩⟩
        | some g' =>
          rw [hs, Finmap.lookup_insert] at hg
          cases hg
          rw [← htok]
          exact hstaged _ hs
    · rw [hx] at hr
      cases hr
  · obtain ⟨hm, hpair, hg⟩ := lookup_leftInMemory_of_ne (s := s) (c := c) (l := l) (r := r) hp
    obtain ⟨-, hacc⟩ := accepts_iff.mp h
    rw [hm, hpair, hg] at hacc
    exact accepts_iff.mpr ⟨hx, hacc⟩

end Harmless

end PeerStore

/-- The two commits. -/
inductive CommitBy where
  | handshake
  | host (resumedWith : ResumedWith)
  deriving DecidableEq

namespace CommitBy

open PeerStore

variable {B : Type} [Postcard B]

/-- The source's function. -/
def prog (k : CommitBy) (s : PeerStore) (peer : DeviceId) (c : HandshakeCommit) :
    StoreM B (Except IoError PairId × PeerStore) :=
  match k with
  | handshake => s.commitHandshake peer c
  | host r => s.commitHostHandshake peer c r

/-- What the commit leaves if it fails. -/
def left (k : CommitBy) (s : PeerStore) (peer : DeviceId) (c : HandshakeCommit)
    (os : List (Outcome IoError)) : Option Left :=
  match k with
  | handshake => s.commitLeft peer c os
  | host r => s.hostCommitLeft peer c r os

/-- The commit has authorized nobody, or it has not failed: the store in memory and the one that
is loaded from the records accept only tokens that one of the two accepted before, and each has the
tombstones that it had before. -/
def AuthorizesNobody (k : CommitBy) (s : PeerStore) (peer : DeviceId) (c : HandshakeCommit)
    (os : List (Outcome IoError)) (d : Disk RecordName B) : Prop :=
  ((k.prog s peer c).exec os d).1.1.toOption = none →
    ((∀ x t, ((k.prog s peer c).exec os d).1.2.Accepts x t → s.AcceptedBefore d x t) ∧
      ∀ x, s.isRevoked x = true → ((k.prog s peer c).exec os d).1.2.isRevoked x = true) ∧
    ∀ s', ((loadFrom (B := B)).exec [] ((k.prog s peer c).exec os d).2.1).1 = .ok s' →
      (∀ x t, s'.Accepts x t → s.AcceptedBefore d x t) ∧
      ∀ s₀, ((loadFrom (B := B)).exec [] d).1 = .ok s₀ →
        ∀ x, s₀.isRevoked x = true → s'.isRevoked x = true

theorem left_spec (k : CommitBy) (s : PeerStore) (peer : DeviceId) (c : HandshakeCommit)
    (os : List (Outcome IoError)) (d : Disk RecordName B) :
    s.Ends peer c d (k.left s peer c os) ((k.prog s peer c).exec os d) := by
  cases k with
  | handshake => exact commitHandshake_left s peer c os d
  | host r => exact commitHostHandshake_left s peer c os d r

/-- A grace token that is staged is the current token. -/
theorem accepts_stagedGrace {s : PeerStore} {peer : DeviceId} {c : HandshakeCommit} {g : GraceToken}
    (h : s.stagedGrace peer c = some g) : s.Accepts peer g.token := by
  unfold stagedGrace at h
  split at h
  · rename_i hc
    obtain ⟨r, hr, ho⟩ := tokenIsUnchanged_iff.mp hc.2
    rw [ho] at h
    cases h
    exact accepts_iff.mpr ⟨hc.1, r, hr, .inl rfl⟩
  · cases h

/-- The staged grace token is one that the store accepts. -/
theorem left_staged {k : CommitBy} {s : PeerStore} {peer : DeviceId} {c : HandshakeCommit}
    {os : List (Outcome IoError)} {l : Left} (h : k.left s peer c os = some l) :
    (∀ g, l.staged = some g → s.Accepts peer g.token) ∧
    (l.tombstones = .kept ∧ l.memory = false ∧ l.revocations = false ∨
      l.tombstones ≠ .kept ∧ s.isRevoked peer = true) := by
  have hplain {os : List (Outcome IoError)} (h : s.commitLeft peer c os = some l) :
      (∀ g, l.staged = some g → s.Accepts peer g.token) ∧
      (l.tombstones = .kept ∧ l.memory = false ∧ l.revocations = false ∨
        l.tombstones ≠ .kept ∧ s.isRevoked peer = true) := by
    obtain ⟨hs, -, hl⟩ := commitLeft_spec h
    exact ⟨fun g hg => (by rw [hs] at hg; cases hg), hl⟩
  cases k with
  | handshake => exact hplain h
  | host r =>
    rw [left, hostCommitLeft] at h
    split at h
    · exact hplain h
    split at h
    · exact hplain h
    · rename_i g hg
      obtain ⟨l', hl', rfl⟩ := Option.map_eq_some_iff.mp h
      refine ⟨fun g' hg' => ?_, (commitLeft_spec hl').2.2⟩
      cases hg'
      exact accepts_stagedGrace hg

/-- A failed commit of any store over any records, with any outcomes of its calls, authorizes nobody
exactly when what the failed calls left behind is harmless. -/
theorem failed_commit_authorizes_nobody_iff (k : CommitBy) (s : PeerStore) (peer : DeviceId)
    (c : HandshakeCommit) (os : List (Outcome IoError)) (d : Disk RecordName B) :
    k.AuthorizesNobody s peer c os d ↔
      ∀ l, k.left s peer c os = some l → s.Harmless peer c l d := by
  have hspec := k.left_spec s peer c os d
  rw [AuthorizesNobody]
  cases hl : k.left s peer c os with
  | none =>
    rw [hl] at hspec
    obtain ⟨pairId, s', d', os', hx⟩ := hspec
    rw [hx]
    exact ⟨fun _ _ h => (Option.some_ne_none _ h.symm).elim,
      fun _ h => (Option.some_ne_none _ h).elim⟩
  | some l =>
    rw [hl] at hspec
    obtain ⟨e, d', os', hx, hd⟩ := hspec
    obtain ⟨hstaged, hcases⟩ := left_staged hl
    have hkept := tombstonesKept_iff (c := c) (r := contents d)
      (hcases.imp (fun h => h.1) (fun h => h.2))
    have hrev (h : TombstonesKept s l (contents d)) : l.revocations = false :=
      h.revocations fun hk => hcases.elim (fun h => h.2.2) fun h => (h.1 hk).elim
    rw [hx]
    simp only [loadFrom_eq_decode, hd]
    constructor
    · rintro h l' ⟨⟩
      obtain ⟨⟨-, hmem⟩, hload⟩ := h rfl
      have ht := hkept.mpr hmem
      refine ⟨ht, fun s₀ h₀ => recordsHarmless_iff.mpr fun x t hacc => ?_⟩
      rw [loadFrom_eq_decode] at h₀
      rcases (hload _ (decode_leftOnRecords (hrev ht) h₀)).1 x t hacc with h | ⟨s₁, h₁, h⟩
      · exact .inl h
      · rw [loadFrom_eq_decode, h₀] at h₁
        cases h₁
        exact .inr h
    · intro h _
      obtain ⟨ht, hrecords⟩ := h l rfl
      have hmem := hkept.mp ht
      refine ⟨⟨fun x t hacc => .inl (accepts_leftInMemory hstaged
        (hcases.imp (fun h => ⟨h.1, h.2.1⟩) id) hmem hacc), hmem⟩, fun s' hs' => ?_⟩
      obtain ⟨s₀, h₀, rfl⟩ := decode_of_leftOnRecords (hrev ht) hs'
      have hs₀ := (loadFrom_eq_decode d).trans h₀
      refine ⟨fun x t hacc => ?_, fun s₁ h₁ x hx => ?_⟩
      · exact (recordsHarmless_iff.mp (hrecords s₀ hs₀) x t hacc).imp id fun h => ⟨s₀, hs₀, h⟩
      · rw [h₀] at h₁
        cases h₁
        exact hx

/-- The device 1 was paired and then revoked with the tombstone 7. -/
def revokedOne : Process Blob := (Blob.paired ⟨1⟩ 1 1).step (.call (.revoke ⟨1⟩ 7 0))

/-- The commit of its new pair cannot clear the tombstone: the write fails with the old record in
place, and reading it back fails too. -/
def unreadable : List (Outcome IoError) :=
  [.ok, .ok, .failedOld ⟨.other, "disk full"⟩, .failedOld ⟨.other, "too many open files"⟩]

/-- The commit returns an error, and in memory the device is no longer revoked, also of a store
that was just loaded. -/
theorem failed_commit_lifts_revocation :
    ¬ ∀ (k : CommitBy) (s : PeerStore) (peer : DeviceId) (c : HandshakeCommit)
      (os : List (Outcome IoError)) (d : Disk RecordName Blob),
      ((loadFrom (B := Blob)).exec [] d).1 = .ok s → k.AuthorizesNobody s peer c os d := by
  intro h
  have hrev := (h .handshake revokedOne.store ⟨1⟩ (Blob.freshPair 2 2 (some 7)) unreadable
    revokedOne.disk (by decide) (by decide)).1.2 ⟨1⟩ (by decide)
  revert hrev
  decide

/-- If the record can be read back, the failed commit authorizes nobody. -/
theorem failed_commit_authorizes_nobody_readable :
    (((CommitBy.host .currentToken).prog (B := Blob) revokedOne.store ⟨1⟩
      (Blob.freshPair 2 2 (some 7))).exec (unreadable.take 3) revokedOne.disk).1.1.toOption = none ∧
    (CommitBy.host .currentToken).AuthorizesNobody revokedOne.store ⟨1⟩
      (Blob.freshPair 2 2 (some 7)) (unreadable.take 3) revokedOne.disk := by
  refine ⟨by decide, (failed_commit_authorizes_nobody_iff _ _ _ _ _ revokedOne.disk).mpr ?_⟩
  intro l hl
  have hleft : (CommitBy.host .currentToken).left revokedOne.store ⟨1⟩
      (Blob.freshPair 2 2 (some 7)) (unreadable.take 3) =
      some { peers := true, pairState := .installed, memory := true, tombstones := .reread } := by
    decide
  rw [hleft] at hl
  cases hl
  have hload : ((loadFrom (B := Blob)).exec [] revokedOne.disk).1 = .ok revokedOne.store := by
    decide
  refine ⟨⟨rfl, revokedOne.store.revocations, by decide, fun x hx => hx⟩, fun s₀ h₀ => ?_⟩
  have hothers (l : Left) := mixed_of_loaded (l := l) (loaded_of_loadFrom hload) h₀
  rw [hload] at h₀
  cases h₀
  have hrevoked : ¬ revokedOne.store.isRevoked ⟨1⟩ = false := by decide
  exact ⟨fun _ hr => absurd hr hrevoked, fun hr => absurd hr hrevoked,
    fun x _ t ht => .inr (by rwa [hothers] at ht)⟩

end CommitBy

end Portty
