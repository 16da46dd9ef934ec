import Portty.Lib.Run
import Portty.Lib.Table
import Portty.Transport.PeersRun

/-!
# A revocation notice (`lib.rs`)

The store of the phone is shared by the commands that pair, reconnect and remove a host, and by the
session loops of all generations. A loop that gets `PairRevoked` looks whether the store still has
the pair of its own generation, and then forgets the host. Each of the two takes the lock of the
store on its own, so they are two steps (`check`, `delete`).

`notice_deletes_own_generation`: the credential that is deleted is the one that the notice is about,
in every run in which no other pair of the host is committed between the two steps.
`newer_pair_deleted`: else a newer one is deleted.

`Prog.spares .identity` is used for what an operation of the store does whatever the calls reply: no
operation touches that record.
-/

namespace Portty

open Records

namespace PeerStore

variable {B : Type} [Postcard B] {s : PeerStore} {peer x : DeviceId}

/-! ## What the operations do to the credential of a host -/

/-- The credential of the host and its generation are the same. -/
def SameAt (x : DeviceId) (s s' : PeerStore) : Prop :=
  s'.map.lookup x = s.map.lookup x ∧ s'.pairState.lookup x = s.pairState.lookup x

theorem SameAt.trans {s' s'' : PeerStore} (h : SameAt x s s') (h' : SameAt x s' s'') :
    SameAt x s s'' :=
  ⟨h'.1.trans h.1, h'.2.trans h.2⟩

theorem sameAt_restorePairState (s : PeerStore) (previous : Option PairState) (hx : x ≠ peer) :
    SameAt x s (s.restorePairState peer previous) := by
  cases previous <;> simp [SameAt, restorePairState, hx]

theorem rememberToken_spares (s : PeerStore) (peer : DeviceId) (ticket : Option String)
    (token : ResumptionToken) (dur : Durability) :
    (rememberToken (B := B) s peer ticket token dur).spares .identity fun r =>
      r.2.pairState = s.pairState ∧ ∀ x, x ≠ peer → SameAt x s r.2 := by
  unfold rememberToken persist
  refine StoreM.spares_write (by decide) fun reply => ?_
  cases reply with
  | ok _ => exact ⟨rfl, fun x hx => by simp [SameAt, hx]⟩
  | error e =>
    refine ⟨rfl, fun x hx => ?_⟩
    cases s.map.lookup peer <;> simp [SameAt, restoreToken, hx]

/-- A commit writes no record of the identity. -/
theorem installGeneration_spares (s : PeerStore) (peer : DeviceId) (c : HandshakeCommit)
    (dur : Durability) :
    (installGeneration (B := B) s peer c dur).spares .identity fun r =>
      ∀ x, x ≠ peer → SameAt x s r.2 := by
  have hset : ∀ x, x ≠ peer → SameAt x s { s with
      pairState := s.pairState.insert peer ⟨c.candidatePairId, c.candidateEventKey⟩ } := by
    intro x hx
    simp [SameAt, hx]
  unfold installGeneration
  refine StoreM.spares_write (by decide) fun reply => ?_
  cases reply with
  | error e => exact fun x hx => (hset x hx).trans (sameAt_restorePairState _ _ hx)
  | ok _ =>
    refine Prog.spares_bind (rememberToken_spares _ _ _ _ _) fun r hr => ?_
    obtain ⟨result, s'⟩ := r
    cases result with
    | ok _ => exact fun x hx => (hset x hx).trans (hr.2 x hx)
    | error e =>
      have hback : ∀ x, x ≠ peer → SameAt x s (s'.restorePairState peer (s.pairState.lookup peer)) :=
        fun x hx => ((hset x hx).trans (hr.2 x hx)).trans (sameAt_restorePairState _ _ hx)
      refine StoreM.spares_write (by decide) fun reply => ?_
      cases reply with
      | ok _ => exact hback
      | error e => exact hback

/-- Neither does the end of a tombstone. -/
theorem clearTombstone_spares (s : PeerStore) (peer : DeviceId) (pairId : PairId) :
    (clearTombstone (B := B) s peer pairId).spares .identity fun r =>
      r.2.map = s.map ∧ r.2.pairState = s.pairState := by
  unfold clearTombstone
  split
  · exact ⟨rfl, rfl⟩
  refine StoreM.spares_write (by decide) fun reply => ?_
  cases reply with
  | ok _ => exact ⟨rfl, rfl⟩
  | error e =>
    intro bytes
    cases bytes with
    | error e => exact ⟨rfl, rfl⟩
    | ok bytes =>
      simp only [Prog.bind]
      split <;> exact ⟨rfl, rfl⟩

/-- A commit is about its own host. -/
theorem commitHandshake_spares (s : PeerStore) (peer : DeviceId) (c : HandshakeCommit) :
    (commitHandshake (B := B) s peer c).spares .identity fun r => ∀ x, x ≠ peer →
      SameAt x s r.2 := by
  unfold commitHandshake
  split
  · unfold commitResume
    split
    · exact fun _ _ => ⟨rfl, rfl⟩
    split
    · exact fun _ _ => ⟨rfl, rfl⟩
    split
    · exact Prog.spares_bind (rememberToken_spares _ _ _ _ _) fun r hr => hr.2
    · exact Prog.spares_bind (installGeneration_spares _ _ _ _) fun r hr => hr
  · unfold commitFresh
    split
    · exact fun _ _ => ⟨rfl, rfl⟩
    refine Prog.spares_bind (installGeneration_spares _ _ _ _) fun r hr => ?_
    obtain ⟨result, s'⟩ := r
    cases result with
    | error e => exact hr
    | ok _ =>
      refine Prog.spares_mono (clearTombstone_spares _ _ _) fun r' hr' x hx => (hr x hx).trans ?_
      exact ⟨by rw [hr'.1], by rw [hr'.2]⟩

/-- A resume of a stored generation rotates the token, and no more. Without a token it is refused.
-/
theorem commitHandshake_stored (c : HandshakeCommit) (hc : c.resumed = true)
    (hs : (s.pairState.lookup peer).isSome = true) :
    (commitHandshake (B := B) s peer c).spares .identity fun r =>
      r.2.pairState = s.pairState ∧ (s.map.lookup peer = none → r.2.map.lookup peer = none) := by
  obtain ⟨existing, hexisting⟩ := Option.isSome_iff_exists.mp hs
  unfold commitHandshake commitResume
  rw [if_pos hc]
  split
  · exact ⟨rfl, fun h => h⟩
  split
  · exact ⟨rfl, fun h => h⟩
  next htoken =>
  rw [hexisting]
  refine Prog.spares_bind (rememberToken_spares _ _ _ _ _) fun r hr => ⟨hr.1, fun hnone => ?_⟩
  simp [tokenIsUnchanged, hnone] at htoken

theorem setLastHost_spares (s : PeerStore) (peer : DeviceId) :
    (setLastHost (B := B) s peer).spares .identity fun r =>
      r.2.map = s.map ∧ r.2.pairState = s.pairState := by
  unfold setLastHost
  split
  · exact ⟨rfl, rfl⟩
  refine StoreM.spares_write (by decide) fun reply => ?_
  cases reply with
  | ok _ => exact ⟨rfl, rfl⟩
  | error e => exact ⟨rfl, rfl⟩

theorem dropGrace_spares_all (s : PeerStore) (peer : DeviceId) :
    (dropGrace (B := B) s peer).spares .identity fun s' =>
      s'.map = s.map ∧ s'.pairState = s.pairState := by
  unfold dropGrace persistGrace
  split
  · exact ⟨rfl, rfl⟩
  dsimp only
  split
  · exact ⟨by decide, fun _ => ⟨rfl, rfl⟩⟩
  · exact ⟨by decide, fun _ => ⟨rfl, rfl⟩⟩

omit [Postcard B] in
theorem dropLastHost_spares (s : PeerStore) (drop : Bool) :
    (dropLastHost (B := B) s drop).spares .identity fun r =>
      r.2.map = s.map ∧ r.2.pairState = s.pairState := by
  unfold dropLastHost
  split
  · exact ⟨rfl, rfl⟩
  refine ⟨by decide, fun reply => ?_⟩
  cases reply with
  | ok _ => exact ⟨rfl, rfl⟩
  | error e => exact ⟨rfl, rfl⟩

/-- The credential of the host is deleted, or all is as it was. -/
theorem forget_spares (s : PeerStore) (peer : DeviceId) :
    (forget (B := B) s peer).spares .identity fun r =>
      (∀ x, x ≠ peer → SameAt x s r.2) ∧ (SameAt peer s r.2 ∨ r.2.map.lookup peer = none) := by
  unfold forget
  split
  · exact ⟨fun _ _ => ⟨rfl, rfl⟩, .inl ⟨rfl, rfl⟩⟩
  next removed hremoved =>
  have hgone : ∀ s' : PeerStore, s'.map = s.map.erase peer → s'.pairState = s.pairState.erase peer →
      (∀ x, x ≠ peer → SameAt x s s') ∧ (SameAt peer s s' ∨ s'.map.lookup peer = none) := by
    intro s' hmap hpair
    refine ⟨fun x hx => ?_, .inr ?_⟩
    · simp [SameAt, hmap, hpair, hx]
    · simp [hmap]
  refine StoreM.spares_write (by decide) fun reply => ?_
  cases reply with
  | error e =>
    -- It is put back.
    refine ⟨fun x hx => ?_, .inl ?_⟩
    · cases hstate : s.pairState.lookup peer <;> simp [SameAt, hx]
    · cases hstate : s.pairState.lookup peer <;> simp [SameAt, hremoved, hstate]
  | ok _ =>
    refine StoreM.spares_write (by decide) fun reply => ?_
    cases reply with
    | error e => exact hgone _ rfl rfl
    | ok _ =>
      refine Prog.spares_bind (dropGrace_spares_all _ _) fun s' hs' => ?_
      refine Prog.spares_mono (dropLastHost_spares _ _) fun r hr => ?_
      exact hgone _ (hr.1.trans hs'.1) (hr.2.trans hs'.2)

end PeerStore

namespace Phone

namespace PairRevoked

/-! ## Sessions -/

/-- Where the session loop is with a notice. -/
inductive Phase where
  | idle
  /-- `PairRevoked` was taken from the reader. -/
  | notified (revoked : PairId)
  /-- The store had the pair of this generation. -/
  | checked (revoked : PairId)
  | ended
  deriving DecidableEq, Repr

/-- A session loop, with the host and the pair of its generation. -/
structure Session where
  peer : DeviceId
  pairId : PairId
  /-- Its `Connection` was taken and dropped. -/
  shutdown : Bool := false
  phase : Phase := .idle
  deriving DecidableEq, Repr

/-- The store and its disk, the loops of all links, and the current one. -/
structure World (B : Type) where
  store : PeerStore
  disk : Records.Disk RecordName B
  sessions : List Session := []
  current : Option Nat := none
  /-- The hosts of the events `portty://pair-revoked`. -/
  told : List DeviceId := []

/-- The calls of a step on the disk end as in `os`. -/
inductive Event where
  /-- `pair`, `reconnect`, `disconnect` or `remove_host` takes the connection. -/
  | take
  /-- `pair` or `reconnect`, at the end of its handshake. -/
  | commit (peer : DeviceId) (c : HandshakeCommit) (os : List (Outcome IoError))
  /-- `remove_host`, or a `reconnect` that is told that the pair was revoked. -/
  | forget (peer : DeviceId) (os : List (Outcome IoError))
  | receive (i : Nat) (revoked : PairId)
  | check (i : Nat)
  | delete (i : Nat) (os : List (Outcome IoError))
  deriving DecidableEq, Repr

namespace World

variable {B : Type} [Postcard B] (w : World B)

/-- A loop goes on. -/
def setSession (i : Nat) (f : Session → Session) : World B :=
  { w with sessions := w.sessions.modify i f }

/-- The loop of the current link is told to stop. -/
def take : World B :=
  match w.current with
  | none => w
  | some i => { w.setSession i fun s => { s with shutdown := true } with current := none }

/-- What `pair` and `reconnect` do under the lock of the store. -/
def commitProg (s : PeerStore) (peer : DeviceId) (c : HandshakeCommit) :
    StoreM B (Option PairId × PeerStore) := do
  match ← s.commitHandshake peer c with
  | (.error _, s) => return (none, s)
  | (.ok pairId, s) =>
    let (_, s) ← s.setLastHost peer
    return (some pairId, s)

/-- If the commit succeeds, a session starts with the committed pair. -/
def commit (peer : DeviceId) (c : HandshakeCommit) (os : List (Outcome IoError)) : World B :=
  let r := (commitProg w.store peer c).exec os w.disk
  let w' := { w with store := r.1.2, disk := r.2.1 }
  match r.1.1 with
  | none => w'
  | some pairId =>
    { w' with sessions := w.sessions ++ [{ peer, pairId }], current := some w.sessions.length }

/-- The host is forgotten, in memory and on disk. -/
def forget (peer : DeviceId) (os : List (Outcome IoError)) : World B :=
  let r := (w.store.forget peer).exec os w.disk
  { w with store := r.1.2, disk := r.2.1 }

/-- A loop that was told to stop takes no frame. -/
def receive (i : Nat) (s : Session) (revoked : PairId) : World B :=
  if s.shutdown = false ∧ s.phase = .idle then w.setSession i fun s => { s with phase := .notified revoked }
  else w

/-- `revoked_pair_id == pair_id && peers.pair_id(&peer) == Some(pair_id)` -/
def check (i : Nat) (s : Session) : World B :=
  match s.phase with
  | .notified revoked =>
    if revoked = s.pairId ∧ w.store.pairId s.peer = some s.pairId then
      w.setSession i fun s => { s with phase := .checked revoked }
    else w.setSession i fun s => { s with phase := .idle }
  | _ => w

/-- `peers.forget(&peer)`; the loop ends. -/
def delete (i : Nat) (s : Session) (os : List (Outcome IoError)) : World B :=
  match s.phase with
  | .checked _ =>
    let w' := (w.forget s.peer os).setSession i fun s => { s with phase := .ended }
    match ((w.store.forget s.peer).exec os w.disk).1.1 with
    | .ok () => { w' with told := w.told ++ [s.peer] }
    | .error _ => w'
  | _ => w

/-- One event. -/
def step : Event → World B
  | .take => w.take
  | .commit peer c os => w.commit peer c os
  | .forget peer os => w.forget peer os
  | .receive i revoked => (w.sessions[i]?).elim w fun s => w.receive i s revoked
  | .check i => (w.sessions[i]?).elim w fun s => w.check i s
  | .delete i os => (w.sessions[i]?).elim w fun s => w.delete i s os

end World

/-! ## The result -/

variable {B : Type} [Postcard B] {w w' : World B} {i : Nat} {s : Session} {peer : DeviceId}
  {revoked : PairId} {os : List (Outcome IoError)}

/-- The pair id that is stored for a host. -/
def storedPair (w : World B) (peer : DeviceId) : Option PairId :=
  (w.store.pairState.lookup peer).map (·.pairId)

/-- A notice deletes the credential of its own pair, and of no other. -/
def OwnGeneration (w : World B) : Prop :=
  ∀ (i : Nat) (os : List (Outcome IoError)) (peer : DeviceId),
    (w.store.map.lookup peer).isSome = true →
    ((w.step (.delete i os)).store.map.lookup peer).isSome = false →
      ∃ s revoked, w.sessions[i]? = some s ∧ s.peer = peer ∧ s.phase = .checked revoked ∧
        storedPair w peer = some revoked

/-- The loop is between the check and the deletion. -/
def Phase.isChecked : Phase → Bool
  | .checked _ => true
  | _ => false

/-- No other pair of the host is committed between the check and the deletion of a notice: the
commit is a resume of the stored pair, or no loop of the host has checked. -/
def Meets (w : World B) : Event → Prop
  | .commit peer c _ => ∀ s ∈ w.sessions, s.peer = peer → s.phase.isChecked = true →
      c.resumed = true ∧ (w.store.pairState.lookup peer).isSome = true
  | _ => True

instance (w : World B) : (ev : Event) → Decidable (Meets w ev)
  | .commit .. => inferInstanceAs (Decidable (∀ s ∈ w.sessions, _))
  | .take | .forget .. | .receive .. | .check _ | .delete .. => .isTrue trivial

/-- What a loop has checked is still so, unless the credential is gone. -/
def Holds (w : World B) (s : Session) : Prop :=
  ∀ revoked, s.phase = .checked revoked →
    w.store.map.lookup s.peer = none ∨ storedPair w s.peer = some revoked

/-- What was checked holds for all loops. -/
def Inv (w : World B) : Prop := ∀ s ∈ w.sessions, Holds w s

omit [Postcard B] in
theorem mem_setSession {f : Session → Session} {s' : Session}
    (h : s' ∈ (w.setSession i f).sessions) :
    s' ∈ w.sessions ∨ ∃ s, w.sessions[i]? = some s ∧ s' = f s := by
  obtain ⟨j, hj⟩ := List.mem_iff_getElem?.mp h
  obtain ⟨-, s, hs, rfl⟩ | ⟨-, hj⟩ := Table.modify_cases hj
  · exact .inr ⟨s, hs, rfl⟩
  · exact .inl (List.mem_of_getElem? hj)

omit [Postcard B] in
/-- A session is changed; the store is not. -/
theorem Inv.setSession (h : Inv w) (i : Nat) {f : Session → Session}
    (hf : ∀ s, w.sessions[i]? = some s → Holds w (f s)) : Inv (w.setSession i f) := by
  intro s' hs'
  obtain hold | ⟨s, hs, rfl⟩ := mem_setSession hs'
  · exact h s' hold
  · exact hf s hs

omit [Postcard B] in
/-- The store is changed by an operation that keeps what was checked. -/
theorem Holds.store (h : Holds w s) {store : PeerStore} {disk : Records.Disk RecordName B}
    (hs : PeerStore.SameAt s.peer w.store store ∨ store.map.lookup s.peer = none) :
    Holds { w with store, disk } s := by
  intro revoked hp
  obtain ⟨hmap, hpair⟩ | hnone := hs
  · rw [storedPair, hmap, hpair]
    exact h revoked hp
  · exact .inl hnone

omit [Postcard B] in
theorem Inv.take (h : Inv w) : Inv w.take := by
  unfold World.take
  split
  · exact h
  · refine h.setSession _ fun s hs => ?_
    exact h s (List.mem_of_getElem? hs)

omit [Postcard B] in
theorem Inv.receive (h : Inv w) (i : Nat) (s : Session) (revoked : PairId) :
    Inv (w.receive i s revoked) := by
  unfold World.receive
  split
  · exact h.setSession i fun _ _ => nofun
  · exact h

omit [Postcard B] in
/-- A check reads the pair of the store. -/
theorem Inv.check (h : Inv w) (hs : w.sessions[i]? = some s) : Inv (w.check i s) := by
  unfold World.check
  split
  · split
    · next revoked _ hc =>
      obtain ⟨rfl, hpair⟩ := hc
      refine h.setSession i fun s' hs' revoked' hp => .inr ?_
      obtain rfl := Option.some.inj (hs.symm.trans hs')
      obtain rfl := Phase.checked.inj hp
      -- The store gave the pair id, so the host is not revoked and this is the stored one.
      unfold PeerStore.pairId at hpair
      split at hpair
      · cases hpair
      · exact hpair
    · exact h.setSession i fun _ _ => nofun
  · exact h

theorem forget_at (w : World B) (peer x : DeviceId) (os : List (Outcome IoError)) :
    PeerStore.SameAt x w.store (w.forget peer os).store ∨
      (w.forget peer os).store.map.lookup x = none := by
  obtain ⟨hother, hself⟩ := (Prog.spares_exec (PeerStore.forget_spares w.store peer) os w.disk).1
  by_cases hx : x = peer
  · subst hx
    exact hself
  · exact .inl (hother x hx)

theorem Inv.forget (h : Inv w) (peer : DeviceId) (os : List (Outcome IoError)) :
    Inv (w.forget peer os) :=
  fun s hs => (h s hs).store (forget_at w peer s.peer os)

theorem Inv.delete (h : Inv w) (i : Nat) (s : Session) (os : List (Outcome IoError)) :
    Inv (w.delete i s os) := by
  unfold World.delete
  split
  · have hforget : Inv ((w.forget s.peer os).setSession i fun s => { s with phase := .ended }) :=
      (h.forget s.peer os).setSession i fun _ _ => nofun
    dsimp only
    split
    · exact hforget
    · exact hforget
  · exact h

theorem commitProg_spares (s : PeerStore) (peer : DeviceId) (c : HandshakeCommit)
    {Q : PeerStore → Prop}
    (hQ : ∀ s₁ s₂ : PeerStore, s₂.map = s₁.map → s₂.pairState = s₁.pairState → Q s₁ → Q s₂)
    (h : (s.commitHandshake (B := B) peer c).spares .identity fun r => Q r.2) :
    (World.commitProg (B := B) s peer c).spares .identity fun r => Q r.2 := by
  refine Prog.spares_bind h fun r hr => ?_
  obtain ⟨result, s'⟩ := r
  cases result with
  | error e => exact hr
  | ok pairId =>
    exact Prog.spares_bind (PeerStore.setLastHost_spares s' peer) fun r' hr' => hQ s' r'.2 hr'.1 hr'.2 hr

/-- A commit resumes the pair that was checked, or nothing was checked. -/
theorem Holds.commit (h : Holds w s) {c : HandshakeCommit} (hs : s ∈ w.sessions)
    (hm : Meets w (.commit peer c os)) :
    Holds { w with
      store := ((World.commitProg w.store peer c).exec os w.disk).1.2
      disk := ((World.commitProg w.store peer c).exec os w.disk).2.1 } s := by
  by_cases hp : s.peer = peer
  · subst hp
    intro revoked hphase
    obtain ⟨hc, hstored⟩ := hm s hs rfl (by rw [hphase]; rfl)
    have hkeep := (Prog.spares_exec (commitProg_spares w.store s.peer c
      (Q := fun s' => s'.pairState = w.store.pairState ∧
        (w.store.map.lookup s.peer = none → s'.map.lookup s.peer = none))
      (fun _ _ hmap hpair hq => by rw [hmap, hpair]; exact hq)
      (PeerStore.commitHandshake_stored c hc hstored)) os w.disk).1
    obtain hnone | hpair := h revoked hphase
    · exact .inl (hkeep.2 hnone)
    · refine .inr ?_
      rw [storedPair, hkeep.1]
      exact hpair
  · have hkeep := (Prog.spares_exec (commitProg_spares w.store peer c
      (Q := fun s' => ∀ x, x ≠ peer → PeerStore.SameAt x w.store s')
      (fun _ _ hmap hpair hq x hx => ⟨by rw [hmap]; exact (hq x hx).1, by rw [hpair]; exact (hq x hx).2⟩)
      (PeerStore.commitHandshake_spares w.store peer c)) os w.disk).1
    exact h.store (.inl (hkeep s.peer hp))

theorem Inv.commit (h : Inv w) {c : HandshakeCommit} (hm : Meets w (.commit peer c os)) :
    Inv (w.commit peer c os) := by
  have hold : ∀ s ∈ w.sessions, Holds { w with
      store := ((World.commitProg w.store peer c).exec os w.disk).1.2
      disk := ((World.commitProg w.store peer c).exec os w.disk).2.1 } s :=
    fun s hs => (h s hs).commit hs hm
  unfold World.commit
  dsimp only
  split
  · exact hold
  · intro s hs
    obtain hs | hs := List.mem_append.mp hs
    · exact hold s hs
    · rw [List.mem_singleton.mp hs]
      nofun

theorem Inv.step (h : Inv w) {ev : Event} (hm : Meets w ev) : Inv (w.step ev) := by
  cases ev with
  | take => exact h.take
  | commit peer c os => exact h.commit hm
  | forget peer os => exact h.forget peer os
  | receive i revoked =>
    simp only [World.step]
    cases w.sessions[i]? with
    | none => exact h
    | some s => exact h.receive i s revoked
  | check i =>
    simp only [World.step]
    cases hs : w.sessions[i]? with
    | none => exact h
    | some s => exact h.check hs
  | delete i os =>
    simp only [World.step]
    cases w.sessions[i]? with
    | none => exact h
    | some s => exact h.delete i s os

theorem store_delete (w : World B) (i : Nat) (s : Session) (os : List (Outcome IoError)) :
    (w.delete i s os).store = w.store ∨ (∃ revoked, s.phase = .checked revoked) ∧
      (w.delete i s os).store = (w.forget s.peer os).store := by
  unfold World.delete
  split
  · next revoked hp =>
    refine .inr ⟨⟨revoked, hp⟩, ?_⟩
    dsimp only
    split <;> rfl
  · exact .inl rfl

/-- A loop deletes the pair that it was told of. -/
theorem Inv.ownGeneration (h : Inv w) : OwnGeneration w := by
  intro i os peer hsome hnone
  simp only [World.step] at hnone
  cases hs : w.sessions[i]? with
  | none =>
    rw [hs, Option.elim_none, hsome] at hnone
    cases hnone
  | some s =>
    rw [hs, Option.elim_some] at hnone
    obtain he | ⟨⟨revoked, hp⟩, he⟩ := store_delete w i s os
    · rw [he, hsome] at hnone
      cases hnone
    rw [he] at hnone
    -- Only the host of the session can have been deleted.
    have hpeer : s.peer = peer := by
      by_contra hne
      have hsame := (Prog.spares_exec (PeerStore.forget_spares w.store s.peer) os w.disk).1.1 peer
        (Ne.symm hne)
      have hmap : (w.forget s.peer os).store.map.lookup peer = w.store.map.lookup peer := hsame.1
      rw [hmap, hsome] at hnone
      cases hnone
    subst hpeer
    obtain hgone | hpair := h s (List.mem_of_getElem? hs) revoked hp
    · rw [hgone] at hsome
      cases hsome
    · exact ⟨s, revoked, rfl, rfl, hp, hpair⟩

/-- In every run in which no other pair of a host is committed between the check and the deletion of
a notice, a notice deletes only the pair that it is about. -/
theorem notice_deletes_own_generation (store : PeerStore) (disk : Records.Disk RecordName B)
    (evs : List Event)
    (h : Run.Along World.step Meets { store, disk } evs) :
    OwnGeneration (Run.run World.step { store, disk } evs) := by
  have hinv : Inv (Run.run World.step { store, disk } evs) :=
    h.induction nofun fun _ _ hw hm => hw.step hm
  exact hinv.ownGeneration

/-- A new phone. -/
def sampleStore : PeerStore := ⟨∅, ∅, ∅, ∅, none⟩

/-- It is paired with the host 1, which then revokes the pair. The loop has checked the notice. -/
def sampleNotice : List Event :=
  [.commit ⟨1⟩ (Blob.freshPair 1 1 none) [], .receive 0 ⟨1⟩, .check 0, .take]

/-- Another host is paired before the credential is deleted. -/
theorem notice_deletes_own_generation_other_host :
    let w := Run.run World.step { store := sampleStore, disk := Blob.empty }
      (sampleNotice ++ [.commit ⟨2⟩ (Blob.freshPair 2 2 none) []])
    OwnGeneration w ∧ (w.step (.delete 0 [])).store.map.lookup ⟨1⟩ = none :=
  ⟨notice_deletes_own_generation sampleStore Blob.empty _ (by decide), by decide⟩

/-- The host is paired again after the check of a notice about its old pair. The notice then deletes
the new one. -/
theorem newer_pair_deleted :
    let w := Run.run World.step { store := sampleStore, disk := Blob.empty }
      (sampleNotice ++ [.commit ⟨1⟩ (Blob.freshPair 2 2 none) []])
    storedPair w ⟨1⟩ = some ⟨2⟩ ∧ (w.step (.delete 0 [])).store.map.lookup ⟨1⟩ = none ∧
      ¬ OwnGeneration w := by
  intro w
  refine ⟨by decide, by decide, fun h => ?_⟩
  obtain ⟨s, revoked, hs, -, hp, hpair⟩ := h 0 [] ⟨1⟩ (by decide) (by decide)
  have hsession : w.sessions[0]? =
      some { peer := ⟨1⟩, pairId := ⟨1⟩, shutdown := true, phase := .checked ⟨1⟩ } := by
    decide
  obtain rfl := Option.some.inj (hsession.symm.trans hs)
  obtain rfl := Phase.checked.inj hp
  revert hpair
  decide

end PairRevoked

end Phone

end Portty
