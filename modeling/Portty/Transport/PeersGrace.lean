import Portty.Lib.Run
import Portty.Transport.PeersRefine

/-!
# Lost writes of the grace record

A reconnect ignores whether its write of the grace record succeeds, and this write is not durable.
So the record can keep an entry that memory has replaced or dropped, and a later load takes it
over: it is filtered by pair generation and tombstone, and a rotation changes neither.

* **`GraceRun`**: a host process that commits reconnects. The call on the grace record can fail, the
  process can die between two calls, and a crash of the machine can take the grace record back to
  an older content; all other writes succeed.
* **`Exposed`**: the grace record has an entry for the device's generation that is not the token
  which the reconnect replaces. If the reconnect's own call on the record is lost, this entry stays.
* **`grace_admits_current_and_previous`**: if no call is lost over such an entry, a reload accepts
  for a device its current token and the one before, and nothing else.
-/

namespace Portty

open Records

namespace PeerStore

variable {B : Type} [Postcard B]

/-! ## The calls of a reconnect -/

/-- The call of `persist_grace`. -/
def graceCall (G : FMap DeviceId GraceToken) : Call RecordName B :=
  if G = ∅ then .remove .grace else .write .grace (Codec.toAllocvec G) false

/-- The calls of `commit_handshake` of a resume that is not refused. -/
def resumeCalls (s : PeerStore) (peer : DeviceId) (c : HandshakeCommit) :
    List (Call RecordName B) :=
  let peers := .write .peers (Codec.toAllocvec (s.leave peer c true false false).map) false
  match s.pairState.lookup peer with
  | some _ => [peers]
  | none => [.write .pairState (Codec.toAllocvec (s.leave peer c false true false).pairState) true,
      peers]

/-- The calls of `commit_host_handshake` of a resume. -/
def reconnectCalls (s : PeerStore) (peer : DeviceId) (c : HandshakeCommit) (r : ResumedWith) :
    List (Call RecordName B) :=
  if (s.refusal peer c).isSome then []
  else match r with
    | .currentToken => match s.stagedGrace peer c with
      | some g => graceCall (s.grace.insert peer g) :: s.resumeCalls peer c
      | none => s.resumeCalls peer c
    | .previousToken => s.resumeCalls peer c ++
      if (s.grace.lookup peer).isNone then [] else [graceCall (s.grace.erase peer)]

section Makes

variable {s : PeerStore} {peer : DeviceId} {c : HandshakeCommit}

omit [Postcard B] in
theorem write_makes {n m : RecordName} (hm : m ≠ n) (b : B) (dur : Durability) :
    (StoreM.write m b dur).makes n (.ok ()) [.write m b dur.sync] := by
  refine ⟨_, rfl, ?_⟩
  rintro r (hr | rfl)
  · exact absurd hr hm
  · rfl

theorem persistGrace_makes {α : Type} (s : PeerStore) (a : α) :
    (do let _ ← s.persistGrace; return a : StoreM B α).makes .grace a [graceCall s.grace] := by
  unfold persistGrace graceCall
  split
  · exact ⟨_, rfl, fun _ _ => rfl⟩
  · exact ⟨_, rfl, fun _ _ => rfl⟩

theorem dropGrace_makes (s : PeerStore) (peer : DeviceId) :
    (s.dropGrace (B := B) peer).makes .grace { s with grace := s.grace.erase peer }
      (if (s.grace.lookup peer).isNone then [] else [graceCall (s.grace.erase peer)]) := by
  unfold dropGrace
  split
  · rename_i hn
    rw [FMap.erase_of_lookup_none (Option.isNone_iff_eq_none.mp hn)]
    exact rfl
  · exact persistGrace_makes { s with grace := s.grace.erase peer } _

theorem rememberToken_makes (s : PeerStore) (peer : DeviceId) (ticket : Option String)
    (token : ResumptionToken) (dur : Durability) :
    let m := s.map.insert peer ⟨ticket <|> (s.map.lookup peer).bind (·.ticket), token⟩
    (s.rememberToken (B := B) peer ticket token dur).makes .grace (.ok (), { s with map := m })
      [.write .peers (Codec.toAllocvec m) dur.sync] :=
  Prog.makes_bind_ret (write_makes (by decide) _ dur) rfl

theorem installGeneration_makes (s : PeerStore) (peer : DeviceId) (c : HandshakeCommit)
    (dur : Durability) :
    (s.installGeneration (B := B) peer c dur).makes .grace (.ok (), s.leave peer c true true false)
      [.write .pairState (Codec.toAllocvec (s.leave peer c false true false).pairState) true,
        .write .peers (Codec.toAllocvec (s.leave peer c true false false).map) dur.sync] :=
  Prog.makes_bind (write_makes (by decide) _ .required)
    (Prog.makes_bind_ret (rememberToken_makes _ peer c.ticket c.token dur) rfl)

theorem commitResume_makes (hr : s.isRevoked peer = false)
    (ht : s.tokenIsUnchanged peer c.observedToken = true) :
    (s.commitResume (B := B) peer c).makes .grace
      (.ok (((s.pairState.lookup peer).map (·.pairId)).getD c.candidatePairId),
        s.leave peer c true (s.pairState.lookup peer).isNone false)
      (s.resumeCalls peer c) := by
  unfold commitResume resumeCalls
  rw [← isRevoked_eq, if_neg (by simp [hr]), if_neg (by simp [ht])]
  cases hp : s.pairState.lookup peer with
  | some x =>
    exact Prog.makes_bind_ret (rememberToken_makes s peer c.ticket c.token .bestEffort) rfl
  | none => exact Prog.makes_bind_ret (installGeneration_makes s peer c .bestEffort) rfl

/-- A resume that is refused stages no grace token. -/
theorem stagedGrace_of_refusal {e : IoError} (hc : c.resumed = true)
    (h : s.refusal peer c = some e) : s.stagedGrace peer c = none := by
  unfold stagedGrace
  rw [if_neg]
  intro hcan
  rw [refusal_eq_none_iff.mpr (by rw [if_pos hc]; exact hcan)] at h
  cases h

/-- A resume that is not refused is of an active peer with the observed token. -/
theorem of_refusal_none (hc : c.resumed = true) (h : s.refusal peer c = none) :
    s.isRevoked peer = false ∧ ∃ r, s.map.lookup peer = some r ∧
      c.observedToken = some r.token := by
  have hr := refusal_eq_none_iff.mp h
  rw [if_pos hc] at hr
  exact ⟨hr.1, tokenIsUnchanged_iff.mp hr.2⟩

/-- Such a resume stages the token that it replaces. -/
theorem stagedGrace_of_refusal_none {x : PeerRecord} (hc : c.resumed = true)
    (h : s.refusal peer c = none) (hx : s.map.lookup peer = some x) :
    s.stagedGrace peer c =
      some ⟨((s.pairState.lookup peer).map (·.pairId)).getD c.candidatePairId, x.token⟩ := by
  obtain ⟨hr, y, hy, ho⟩ := of_refusal_none hc h
  cases hx.symm.trans hy
  rw [stagedGrace, if_pos ⟨hr, tokenIsUnchanged_iff.mpr ⟨x, hx, ho⟩⟩, ho]
  rfl

/-- Whatever happens to the calls on the grace record, a reconnect makes the same calls and ends as
if they had succeeded. -/
theorem commitHostHandshake_makes (s : PeerStore) (peer : DeviceId) (c : HandshakeCommit)
    (r : ResumedWith) (hc : c.resumed = true) :
    (s.commitHostHandshake (B := B) peer c r).makes .grace (s.hostCommit peer c r)
      (s.reconnectCalls peer c r) := by
  unfold commitHostHandshake hostCommit reconnectCalls
  cases href : s.refusal peer c with
  | some e =>
    rw [hc]
    cases r with
    | currentToken =>
      rw [stageGrace, stagedGrace_of_refusal hc href]
      exact commitHandshake_refused href
    | previousToken =>
      rw [commitHandshake_refused href]
      exact rfl
  | none =>
    have hres := refusal_eq_none_iff.mp href
    rw [if_pos hc] at hres
    obtain ⟨hr, ht⟩ := hres
    simp only [hc, Option.isSome_none, Bool.false_eq_true, ↓reduceIte, Bool.not_true,
      Bool.false_or, decide_eq_true_eq, commitHandshake, resumed]
    cases r with
    | previousToken =>
      exact Prog.makes_bind (commitResume_makes hr ht)
        (Prog.makes_bind_ret (dropGrace_makes _ peer) rfl)
    | currentToken =>
      rw [stageGrace]
      cases hg : s.stagedGrace peer c with
      | none => exact commitResume_makes hr ht
      | some g =>
        exact Prog.makes_bind (persistGrace_makes { s with grace := s.grace.insert peer g } _)
          (commitResume_makes (s := { s with grace := s.grace.insert peer g }) hr ht)

end Makes

/-! ## What a prefix of the calls leaves -/

section Prefix

variable {s : PeerStore} {peer : DeviceId} {c : HandshakeCommit} {r : ResumedWith}
  {d : Disk RecordName B} {R : FMap DeviceId GraceToken} {o : Outcome IoError}

theorem Loaded.graceCall (h : Loaded s d) (G : FMap DeviceId GraceToken) (o : Outcome IoError) :
    Loaded { s with grace := if o.failed && !o.leftNew then s.grace else G }
      ((PeerStore.graceCall G).perform o d) := by
  unfold PeerStore.graceCall
  by_cases hG : G = ∅
  · rw [if_pos hG]
    refine ⟨h.map, h.pairState, h.revocations, ?_⟩
    cases o with
    | failedOld e => simpa [Call.perform, Slot.remove] using h.grace
    | ok | failedNew e => simp [Call.perform, Slot.remove, hG]
  · rw [if_neg hG]
    exact h.write_grace G false o

/-- The records after the first `i` calls of a resume: the generation and the token may be there,
and nothing of the grace record has changed. -/
theorem loaded_resumeCalls (peer : DeviceId) (c : HandshakeCommit)
    (h : Loaded { s with grace := R } d) (o : Outcome IoError) (i : Nat) :
    ∃ token generation, Loaded { s.leave peer c token generation false with grace := R }
        (Call.performAll .grace o ((s.resumeCalls peer c).take i) d) ∧
      (generation = true → s.pairState.lookup peer = none) ∧
      ((token = true ∨ generation = true) → i ≠ 0) ∧
      ((s.resumeCalls (B := B) peer c).length ≤ i →
        token = true ∧ generation = (s.pairState.lookup peer).isNone) := by
  unfold resumeCalls
  cases hp : s.pairState.lookup peer with
  | some x =>
    have h₁ := h.write_peers (s.leave peer c true false false).map false .ok
    cases i with
    | zero => exact ⟨false, false, h, by simp⟩
    | succ i =>
      refine ⟨true, false, ?_, by simp⟩
      rw [List.take_of_length_le (by simp)]
      exact h₁
  | none =>
    have h₁ := h.write_pairState (s.leave peer c false true false).pairState true .ok
    have h₂ := h₁.write_peers (s.leave peer c true false false).map false .ok
    rcases i with _ | _ | i
    · exact ⟨false, false, h, by simp⟩
    · exact ⟨false, true, h₁, by simp⟩
    · refine ⟨true, true, ?_, by simp⟩
      rw [List.take_of_length_le (by simp)]
      exact h₂

/-- A resume writes other records than the grace. -/
theorem name_resumeCalls {k : Call RecordName B} (hk : k ∈ s.resumeCalls peer c) :
    k.name ≠ .grace := by
  unfold resumeCalls at hk
  cases hp : s.pairState.lookup peer with
  | some x =>
    rw [hp] at hk
    obtain rfl := List.mem_singleton.mp hk
    exact (by decide : RecordName.peers ≠ .grace)
  | none =>
    rw [hp] at hk
    obtain rfl | hk := List.mem_cons.mp hk
    · exact (by decide : RecordName.pairState ≠ .grace)
    · obtain rfl := List.mem_singleton.mp hk
      exact (by decide : RecordName.peers ≠ .grace)

theorem name_graceCall (G : FMap DeviceId GraceToken) :
    (PeerStore.graceCall (B := B) G).name = .grace := by
  unfold PeerStore.graceCall
  split <;> rfl

/-- These calls have written another record, and none of them has changed the grace record. -/
def GraceLost (o : Outcome IoError) (cs : List (Call RecordName B)) : Prop :=
  (∃ k ∈ cs, k.name ≠ .grace) ∧ ∀ k ∈ cs, k.name = .grace → (o.failed && !o.leftNew) = true

instance (o : Outcome IoError) (cs : List (Call RecordName B)) : Decidable (GraceLost o cs) :=
  inferInstanceAs (Decidable (_ ∧ _))

theorem exists_resumeCalls (s : PeerStore) (peer : DeviceId) (c : HandshakeCommit) {i : Nat}
    (hi : i ≠ 0) :
    ∃ k ∈ (s.resumeCalls (B := B) peer c).take i, k.name ≠ .grace := by
  obtain ⟨i, rfl⟩ := Nat.exists_eq_succ_of_ne_zero hi
  have hne : ∃ k ks, s.resumeCalls (B := B) peer c = k :: ks := by
    unfold resumeCalls
    split <;> exact ⟨_, _, rfl⟩
  obtain ⟨k, ks, hk⟩ := hne
  have hmem : k ∈ s.resumeCalls peer c := by simp [hk]
  exact ⟨k, by simp [hk], name_resumeCalls hmem⟩

/-- The records after the first `i` calls of a reconnect. If the grace record still has its old
content although another record was written, the call on it was lost. -/
theorem loaded_reconnectCalls (hc : c.resumed = true) (href : s.refusal peer c = none)
    (h : Loaded { s with grace := R } d) (o : Outcome IoError) (i : Nat) :
    ∃ token generation grace, Loaded { s.leave peer c token generation false with
          grace := if grace then (s.resumed peer c r).grace else R }
        (Call.performAll .grace o ((s.reconnectCalls peer c r).take i) d) ∧
      (generation = true → s.pairState.lookup peer = none) ∧
      ((s.reconnectCalls (B := B) peer c r).length ≤ i →
        token = true ∧ generation = (s.pairState.lookup peer).isNone) ∧
      (grace = false → token = true ∨ generation = true →
        GraceLost o ((s.reconnectCalls (B := B) peer c r).take i)) := by
  unfold reconnectCalls resumed
  rw [href]
  cases r with
  | currentToken =>
    obtain ⟨-, x, hx, -⟩ := of_refusal_none hc href
    obtain ⟨g, hg⟩ : ∃ g, s.stagedGrace peer c = some g :=
      ⟨_, stagedGrace_of_refusal_none hc href hx⟩
    simp only [hg, Option.isSome_none, Bool.false_eq_true, ↓reduceIte]
    cases i with
    | zero => exact ⟨false, false, false, h, by simp⟩
    | succ i =>
      have h₁ := h.graceCall (s.grace.insert peer g) o
      obtain ⟨token, generation, h₂, hgen, hi, hall⟩ := loaded_resumeCalls (s := s)
        (R := if o.failed && !o.leftNew then R else s.grace.insert peer g) peer c h₁ o i
      refine ⟨token, generation, !(o.failed && !o.leftNew), ?_, hgen,
        fun hlen => hall (Nat.le_of_succ_le_succ hlen), fun hk ht => ⟨?_, ?_⟩⟩
      · rw [List.take_succ_cons, Call.performAll, List.foldl_cons, name_graceCall, if_pos rfl]
        cases hk : o.failed && !o.leftNew <;> rw [hk] at h₂ <;> exact h₂
      · obtain ⟨k, hk, hn⟩ := exists_resumeCalls (B := B) s peer c (hi ht)
        exact ⟨k, List.mem_cons_of_mem _ hk, hn⟩
      · intro k _ _
        simpa using hk
  | previousToken =>
    obtain ⟨token, generation, h₁, hgen, hi, hall⟩ := loaded_resumeCalls peer c h o i
    have hlost : token = true ∨ generation = true →
        GraceLost o ((s.resumeCalls (B := B) peer c).take i) := fun ht =>
      ⟨exists_resumeCalls s peer c (hi ht), fun k hk hn =>
        absurd hn (name_resumeCalls (List.mem_of_mem_take hk))⟩
    simp only [Option.isSome_none, Bool.false_eq_true, ↓reduceIte]
    by_cases hdrop : (s.grace.lookup peer).isNone ∨ i ≤ (s.resumeCalls (B := B) peer c).length
    · -- the grace record is not touched
      have htake : (s.resumeCalls (B := B) peer c ++ if (s.grace.lookup peer).isNone then [] else
          [PeerStore.graceCall (s.grace.erase peer)]).take i = (s.resumeCalls peer c).take i := by
        obtain hn | hi := hdrop
        · rw [if_pos hn, List.append_nil]
        · exact List.take_append_of_le_length hi
      rw [htake]
      refine ⟨token, generation, false, h₁, hgen, fun hlen => hall ?_, fun _ => hlost⟩
      exact (List.length_append ▸ Nat.le_add_right _ _ : _ ≤ _).trans hlen
    · obtain ⟨hn, hlen⟩ := not_or.mp hdrop
      rw [if_neg hn, List.take_of_length_le (by simp; omega)]
      rw [List.take_of_length_le (by omega)] at h₁ hlost
      have h₂ := h₁.graceCall (s.grace.erase peer) o
      refine ⟨token, generation, !(o.failed && !o.leftNew), ?_, hgen,
        fun _ => hall (by omega), fun hk ht => ⟨?_, ?_⟩⟩
      · rw [Call.performAll, List.foldl_append, List.foldl_cons, name_graceCall, if_pos rfl]
        cases hk : o.failed && !o.leftNew <;> rw [hk] at h₂ <;> exact h₂
      · obtain ⟨k, hk, hn⟩ := (hlost ht).1
        exact ⟨k, List.mem_append_left _ hk, hn⟩
      · intro k _ _
        simpa using hk

end Prefix

/-! ## Which tokens are accepted -/

/-- A device's accepted tokens are its current one and the one before. -/
def OnlyLastTwo (s : PeerStore) (previous : DeviceId → Option ResumptionToken) : Prop :=
  ∀ x t, s.Accepts x t → s.token x = some t ∨ previous x = some t

/-- The grace entries `R` have one for the peer's generation after the commit, and it is not the
token that the commit replaces. -/
def Exposed (s : PeerStore) (peer : DeviceId) (c : HandshakeCommit) (R : FMap DeviceId GraceToken) :
    Prop :=
  ∃ g, R.lookup peer = some g ∧
    g.pairId = ((s.pairState.lookup peer).map (·.pairId)).getD c.candidatePairId ∧
    (s.map.lookup peer).map (·.token) ≠ some g.token

instance (s : PeerStore) (peer : DeviceId) (c : HandshakeCommit) (R : FMap DeviceId GraceToken) :
    Decidable (s.Exposed peer c R) :=
  inferInstanceAs (Decidable (∃ g ∈ R.lookup peer, _ ∧ _))

section Accepts

variable {s : PeerStore} {peer : DeviceId} {c : HandshakeCommit} {r : ResumedWith}
  {R : FMap DeviceId GraceToken} {previous previous' : DeviceId → Option ResumptionToken}
  {token generation grace : Bool}

theorem lookup_grace_resumed (s : PeerStore) (c : HandshakeCommit) (r : ResumedWith) {x : DeviceId}
    (hx : x ≠ peer) : (s.resumed peer c r).grace.lookup x = s.grace.lookup x := by
  unfold resumed
  dsimp only
  split <;> simp [hx]

/-- The entry that a reconnect leaves for its peer is the token that it replaces. -/
theorem token_grace_resumed {g : GraceToken} {x : PeerRecord} (hc : c.resumed = true)
    (href : s.refusal peer c = none) (hx : s.map.lookup peer = some x)
    (hg : (s.resumed peer c r).grace.lookup peer = some g) : g.token = x.token := by
  cases r with
  | previousToken => simp [resumed] at hg
  | currentToken =>
    have hstaged := stagedGrace_of_refusal_none hc href hx
    simp only [resumed, hstaged, FMap.lookup_insert_ite, ↓reduceIte, Option.some.injEq] at hg
    rw [← hg]

/-- The generation of the peer after a commit that installs one only if there is none. -/
theorem pairId_leave {p : PairId} (token : Bool)
    (hgen : generation = true → s.pairState.lookup peer = none)
    (h : ((s.leave peer c token generation false).pairState.lookup peer).map (·.pairId) = some p) :
    p = ((s.pairState.lookup peer).map (·.pairId)).getD c.candidatePairId := by
  rw [lookup_pairState_leave] at h
  cases generation with
  | true =>
    rw [hgen rfl]
    exact (Option.some.inj h).symm
  | false =>
    rw [if_neg Bool.false_ne_true] at h
    rw [h]
    rfl

/-- The records that a reconnect leaves accept the current token and the one before, if the grace
record was rewritten or had nothing to expose. -/
theorem onlyLastTwo_leave (grace : Bool) (hc : c.resumed = true) (href : s.refusal peer c = none)
    (hs : s.OnlyLastTwo previous) (hR : { s with grace := R }.OnlyLastTwo previous)
    (hgen : generation = true → s.pairState.lookup peer = none)
    (hexp : grace = false → token = true ∨ generation = true → ¬ s.Exposed peer c R)
    (hprev : ∀ x, previous' x =
      if ((s.leave peer c token generation false).map.lookup x).map (·.token) =
        (s.map.lookup x).map (·.token) then previous x else (s.map.lookup x).map (·.token)) :
    OnlyLastTwo { s.leave peer c token generation false with
      grace := if grace then (s.resumed peer c r).grace else R } previous' := by
  intro x t hacc
  obtain ⟨hrev, y, hy, ht⟩ := accepts_iff.mp hacc
  by_cases hx : x = peer
  · subst hx
    obtain ⟨-, z, hz, -⟩ := of_refusal_none hc href
    have hcur : y.token = t → ({ s.leave x c token generation false with
        grace := if grace then (s.resumed x c r).grace else R } : PeerStore).token x = some t := by
      intro hyt
      rw [PeerStore.token, hrev, hy, ← hyt]
      rfl
    obtain hyt | ⟨g, hg, hgp, rfl⟩ := ht
    · exact .inl (hcur hyt)
    by_cases hsame : grace = false ∧ token = false ∧ generation = false
    · -- nothing has been written yet
      obtain ⟨rfl, rfl, rfl⟩ := hsame
      have hkept : previous' x = previous x := (hprev x).trans (if_pos rfl)
      rw [hkept]
      exact hR x _ hacc
    · have hgt : g.token = z.token := by
        cases grace with
        | true => exact token_grace_resumed hc href hz hg
        | false =>
          by_contra hne
          refine hexp rfl ?_ ⟨g, hg, pairId_leave token hgen hgp, ?_⟩
          · cases token <;> cases generation <;> simp_all
          · rw [hz]
            exact fun h => hne (Option.some.inj h).symm
      have hp := hprev x
      rw [show (s.leave x c token generation false).map.lookup x = some y from hy, hz] at hp
      by_cases he : y.token = z.token
      · exact .inl (hcur (he.trans hgt.symm))
      · refine .inr (hp.trans ((if_neg fun h => he (Option.some.inj h)).trans ?_))
        exact congrArg some hgt.symm
  · obtain ⟨hm, hp, hr⟩ := lookup_leave_of_ne s c token generation false hx
    rw [hprev x, hm, if_pos rfl]
    cases grace with
    | true =>
      have h : s.Accepts x t := by
        refine (accepts_congr ?_ ?_ ?_ ?_ t).mp hacc
        exacts [hm, hp, hr, lookup_grace_resumed s c r hx]
      have htoken := hs x t h
      rwa [PeerStore.token, isRevoked, ← hm, ← hr] at htoken
    | false =>
      have h : PeerStore.Accepts { s with grace := R } x t := by
        refine (accepts_congr ?_ ?_ ?_ ?_ t).mp hacc
        exacts [hm, hp, hr, rfl]
      have htoken := hR x t h
      rwa [PeerStore.token, isRevoked, ← hm, ← hr] at htoken

end Accepts

end PeerStore

/-! ## Runs -/

/-- A host process with its records. Beside them, the token that each device had before its
current one, if it has had one. -/
structure GraceRun (B : Type) where
  mem : PeerStore
  disk : Disk RecordName B
  previous : DeviceId → Option ResumptionToken

/-- What happens to the process: a reconnect is committed; the process dies before the reconnect's
call number `i` and is started again; it loads its records again; a pending write of the grace
record becomes durable; the machine crashes, and with it goes what the grace record has not made
durable. The call of a reconnect on the grace record ends with `o`, its others succeed. -/
inductive GraceEvent where
  | commit (peer : DeviceId) (c : HandshakeCommit) (r : ResumedWith) (o : Outcome IoError)
  | die (peer : DeviceId) (c : HandshakeCommit) (r : ResumedWith) (o : Outcome IoError) (i : Nat)
  | reload
  | settle
  | lose

namespace GraceRun

open PeerStore

variable {B : Type} [Postcard B]

/-- The commit of a reconnect. -/
def reconnect (c : HandshakeCommit) : HandshakeCommit := { c with resumed := true }

/-- A process that has just loaded its records. -/
def start (s : PeerStore) (d : Disk RecordName B) : GraceRun B :=
  { mem := s, disk := d, previous := s.graceTokens.lookup }

/-- The token on record. -/
def tokenOn (d : Disk RecordName B) (x : DeviceId) : Option ResumptionToken :=
  ((mapOf (d .peers).current).lookup x).map PeerRecord.token

/-- The process with new memory and records. Where a token changed, the old one is the previous
one. -/
def goes (p : GraceRun B) (s : PeerStore) (d : Disk RecordName B) : GraceRun B where
  mem := s
  disk := d
  previous x := if tokenOn d x = tokenOn p.disk x then p.previous x else tokenOn p.disk x

/-- Load the records; a load that fails leaves the store in memory. -/
def load (p : GraceRun B) (d : Disk RecordName B) : PeerStore :=
  (((loadFrom (B := B)).exec [] d).1.toOption).getD p.mem

/-- The program of a reconnect. -/
def prog (p : GraceRun B) (peer : DeviceId) (c : HandshakeCommit) (r : ResumedWith) :
    StoreM B (Except IoError PairId × PeerStore) :=
  p.mem.commitHostHandshake peer (reconnect c) r

/-- One event. -/
def step (p : GraceRun B) : GraceEvent → GraceRun B
  | .commit peer c r o =>
    let x := (p.prog peer c r).exec ((p.prog peer c r).onlyOn .grace o p.disk) p.disk
    p.goes x.1.2 x.2.1
  | .die peer c r o i =>
    let d := (p.prog peer c r).after i ((p.prog peer c r).onlyOn .grace o p.disk) p.disk
    p.goes (p.load d) d
  | .reload => p.goes (p.load p.disk) p.disk
  | .settle => p.goes p.mem (crash (fun n => if n = .grace then .settled else .kept) p.disk)
  | .lose =>
    let d := crash (fun n => if n = .grace then .reverted else .kept) p.disk
    p.goes (p.load d) d

/-- What the grace record decodes to. -/
def graceOn (c : Option B) : FMap DeviceId GraceToken := mapOf c

/-- The lost calls of this step expose no old entry. A call on the grace record that is lost, or not
made, finds there no entry of the peer's generation other than the token that is replaced. And an
older content that comes back has no entry of a device's generation that was replaced or dropped
since, other than the device's current token. -/
def Covered (p : GraceRun B) : GraceEvent → Prop
  | .commit peer c r o => GraceLost (B := B) o (p.mem.reconnectCalls peer (reconnect c) r) →
      ¬ p.mem.Exposed peer (reconnect c) (graceOn (p.disk .grace).current)
  | .die peer c r o i => GraceLost (B := B) o ((p.mem.reconnectCalls peer (reconnect c) r).take i) →
      ¬ p.mem.Exposed peer (reconnect c) (graceOn (p.disk .grace).current)
  | .lose => ∀ x g, (graceOn (p.disk .grace).durable).lookup x = some g →
      (p.mem.pairState.lookup x).map (·.pairId) = some g.pairId →
      (graceOn (p.disk .grace).current).lookup x = some g ∨ p.mem.token x = some g.token
  | .reload | .settle => True

/-- The records other than the grace record decode to memory; memory and the records accept only
the last two tokens of a device. -/
structure Wf (p : GraceRun B) : Prop where
  loaded : Loaded { p.mem with grace := graceOn (p.disk .grace).current } p.disk
  mem : p.mem.OnlyLastTwo p.previous
  records : OnlyLastTwo { p.mem with grace := graceOn (p.disk .grace).current } p.previous

section Step

variable {p : GraceRun B} {d : Disk RecordName B} {s : PeerStore}
  {previous : DeviceId → Option ResumptionToken}

theorem tokenOn_of_loaded (h : Loaded s d) (x : DeviceId) :
    tokenOn d x = (s.map.lookup x).map (·.token) := by
  rw [tokenOn, h.map]

/-- A process that loads records which accept only the last two tokens. -/
theorem wf_load (hd : Loaded s d) (h : s.OnlyLastTwo previous) :
    Wf ⟨p.load d, d, previous⟩ := by
  obtain ⟨last, hl⟩ := loadFrom_of_loaded hd
  have hload : p.load d = { s with lastConnected := last } := by
    rw [load, hl]
    rfl
  have hg : graceOn (d .grace).current = s.grace := hd.grace
  rw [hload]
  refine ⟨?_, h, ?_⟩
  · show Loaded { s with lastConnected := last, grace := graceOn (d .grace).current } d
    rw [hg]
    exact ⟨hd.map, hd.pairState, hd.revocations, hd.grace⟩
  · show OnlyLastTwo { s with lastConnected := last, grace := graceOn (d .grace).current } previous
    rw [hg]
    exact h

/-- The previous tokens do not change with the tokens. -/
theorem goes_previous_of_eq (p : GraceRun B) (s : PeerStore)
    (h : ∀ x, tokenOn d x = tokenOn p.disk x) :
    p.goes s d = ⟨s, d, p.previous⟩ := by
  unfold goes
  simp only [h, ↓reduceIte]

theorem wf_reload (h : Wf p) : Wf (p.step .reload) := by
  rw [step, goes_previous_of_eq p _ fun _ => rfl]
  exact wf_load h.loaded h.records

/-- A store that settles has written its grace record. -/
theorem wf_settle (h : Wf p) : Wf (p.step .settle) := by
  have hcur : ∀ n, (crash (fun n => if n = .grace then .settled else .kept) p.disk n).current =
      (p.disk n).current := by
    intro n
    cases n <;> rfl
  have htoken : ∀ x, tokenOn (crash (fun n => if n = .grace then .settled else .kept) p.disk) x =
      tokenOn p.disk x := fun x => by rw [tokenOn, hcur, tokenOn]
  rw [step, goes_previous_of_eq p _ htoken]
  refine ⟨?_, h.mem, ?_⟩
  · show Loaded { p.mem with grace := graceOn (crash _ p.disk .grace).current } _
    rw [hcur]
    refine ⟨?_, ?_, ?_, ?_⟩
    · rw [hcur]; exact h.loaded.map
    · rw [hcur]; exact h.loaded.pairState
    · rw [hcur]; exact h.loaded.revocations
    · rw [hcur]; rfl
  · show OnlyLastTwo { p.mem with grace := graceOn (crash _ p.disk .grace).current } _
    rw [hcur]
    exact h.records

theorem wf_lose (h : Wf p) (hcov : p.Covered .lose) : Wf (p.step .lose) := by
  have htoken : ∀ x, tokenOn (crash (fun n => if n = .grace then .reverted else .kept) p.disk) x =
      tokenOn p.disk x := fun _ => rfl
  rw [step, goes_previous_of_eq p _ htoken]
  refine wf_load (s := { p.mem with grace := graceOn (p.disk .grace).durable })
    ⟨h.loaded.map, h.loaded.pairState, h.loaded.revocations, rfl⟩ fun x t hacc => ?_
  obtain ⟨hrev, y, hy, hyt | ⟨g, hg, hgp, rfl⟩⟩ := accepts_iff.mp hacc
  · exact h.records x t (accepts_iff.mpr ⟨hrev, y, hy, .inl hyt⟩)
  · obtain hcur | htok := hcov x g hg hgp
    · exact h.records x _ (accepts_iff.mpr ⟨hrev, y, hy, .inr ⟨g, hcur, hgp, rfl⟩⟩)
    · exact .inl htok

/-- The records after the first `i` calls of a reconnect, and, after all of them, the store in
memory. -/
theorem wf_calls {peer : DeviceId} {c : HandshakeCommit} {r : ResumedWith} {o : Outcome IoError}
    {i : Nat} (h : Wf p)
    (hcov : GraceLost (B := B) o ((p.mem.reconnectCalls peer (reconnect c) r).take i) →
      ¬ p.mem.Exposed peer (reconnect c) (graceOn (p.disk .grace).current)) :
    let d := Call.performAll .grace o ((p.mem.reconnectCalls peer (reconnect c) r).take i) p.disk
    Wf (p.goes (p.load d) d) ∧
      ((p.mem.reconnectCalls (B := B) peer (reconnect c) r).length ≤ i →
        Wf (p.goes (p.mem.hostCommit peer (reconnect c) r).2 d)) := by
  intro d
  cases href : p.mem.refusal peer (reconnect c) with
  | some e =>
    have hd : d = p.disk := by
      simp [d, reconnectCalls, href, Call.performAll]
    rw [hd, hostCommit_of_refusal href, goes_previous_of_eq p _ fun _ => rfl,
      goes_previous_of_eq p _ fun _ => rfl]
    exact ⟨wf_load h.loaded h.records, fun _ => h⟩
  | none =>
    obtain ⟨token, generation, grace, hl, hgen, hall, hlost⟩ :=
      loaded_reconnectCalls (r := r) rfl href h.loaded o i
    have hprev : ∀ m x, (p.goes m d).previous x =
        if ((p.mem.leave peer (reconnect c) token generation false).map.lookup x).map (·.token) =
          (p.mem.map.lookup x).map (·.token) then p.previous x
        else (p.mem.map.lookup x).map (·.token) := by
      intro m x
      rw [← tokenOn_of_loaded h.loaded, ← tokenOn_of_loaded hl]
      rfl
    have hrecords := onlyLastTwo_leave (r := r) grace rfl href h.mem h.records hgen
      (fun hk ht => hcov (hlost hk ht)) (hprev p.mem)
    refine ⟨wf_load hl hrecords, fun hlen => ?_⟩
    obtain ⟨rfl, rfl⟩ := hall hlen
    have hmem := onlyLastTwo_leave (r := r) true rfl href h.mem h.records hgen
      (fun hk => (Bool.noConfusion hk)) (hprev p.mem)
    have hcommit : (p.mem.hostCommit peer (reconnect c) r).2 =
        p.mem.resumed peer (reconnect c) r := by
      rw [hostCommit, href]
      rfl
    have hg : graceOn (d .grace).current =
        if grace then (p.mem.resumed peer (reconnect c) r).grace
        else graceOn (p.disk .grace).current := hl.grace
    rw [hcommit]
    refine ⟨?_, hmem, ?_⟩
    · show Loaded { p.mem.resumed peer (reconnect c) r with grace := graceOn (d .grace).current } d
      rw [hg]
      exact hl
    · show OnlyLastTwo { p.mem.resumed peer (reconnect c) r with
        grace := graceOn (d .grace).current } _
      rw [hg]
      exact hrecords

theorem wf_step {e : GraceEvent} (h : Wf p) (hcov : p.Covered e) : Wf (p.step e) := by
  cases e with
  | commit peer c r o =>
    have hmakes := commitHostHandshake_makes (B := B) p.mem peer (reconnect c) r rfl
    have hlen := List.take_length (l := p.mem.reconnectCalls (B := B) peer (reconnect c) r)
    have hwf := (wf_calls h (by rw [hlen]; exact hcov)).2 le_rfl
    rw [hlen] at hwf
    rw [step, prog, Prog.makes_exec hmakes]
    exact hwf
  | die peer c r o i =>
    have hmakes := commitHostHandshake_makes (B := B) p.mem peer (reconnect c) r rfl
    rw [step, prog, Prog.makes_after hmakes]
    exact (wf_calls h hcov).1
  | reload => exact wf_reload h
  | settle => exact wf_settle h
  | lose => exact wf_lose h hcov

end Step

/-- If every step of the run is covered, then a load of the records accepts for every device its
current token and the one that was current before it, and no other. -/
theorem grace_admits_current_and_previous (s : PeerStore) (d : Disk RecordName B)
    (hload : ((loadFrom (B := B)).exec [] d).1 = .ok s) (evs : List GraceEvent)
    (hcov : Run.Along step Covered (start s d) evs) (s' : PeerStore)
    (hreload : ((loadFrom (B := B)).exec [] (Run.run step (start s d) evs).disk).1 = .ok s') :
    ∀ x t, s'.Accepts x t →
      s'.token x = some t ∨ (Run.run step (start s d) evs).previous x = some t := by
  have hl := loaded_of_loadFrom hload
  have hstart : (start s d).Wf := by
    have hs : s.OnlyLastTwo s.graceTokens.lookup := by
      rintro x t (h | h | h)
      · exact .inl h
      · exact .inl ((lookup_tokens s x).symm.trans h)
      · exact .inr h
    have hg : graceOn (d .grace).current = s.grace := hl.grace
    refine ⟨?_, hs, ?_⟩
    · show Loaded { s with grace := graceOn (d .grace).current } d
      rw [hg]
      exact hl
    · show OnlyLastTwo { s with grace := graceOn (d .grace).current } _
      rw [hg]
      exact hs
  have hwf : (Run.run step (start s d) evs).Wf :=
    hcov.induction hstart fun _ _ h hc => wf_step h hc
  obtain ⟨last, hlast⟩ := loadFrom_of_loaded hwf.loaded
  rw [hlast] at hreload
  cases hreload
  exact hwf.records

/-- A resume with the token `observed` that rotates to `token`. -/
def resume (observed token : Nat) : HandshakeCommit :=
  { Blob.freshPair token 9 none with observedToken := some ⟨observed⟩ }

/-- A write that leaves what was there. -/
def diskFull : Outcome IoError := .failedOld ⟨.other, "disk full"⟩

/-- The device 1, paired with the token 1, reconnects twice by its current token, and the second
write of the grace record fails: after a reload, the token of two rotations ago is accepted. -/
theorem stale_grace_admitted :
    ¬ ∀ (s : PeerStore) (d : Disk RecordName Blob),
      ((loadFrom (B := Blob)).exec [] d).1 = .ok s → ∀ (evs : List GraceEvent) (s' : PeerStore),
      ((loadFrom (B := Blob)).exec [] (Run.run step (start s d) evs).disk).1 = .ok s' →
      ∀ x t, s'.Accepts x t →
        s'.token x = some t ∨ (Run.run step (start s d) evs).previous x = some t := by
  intro h
  let p := start (Blob.paired ⟨1⟩ 1 1).store (Blob.paired ⟨1⟩ 1 1).disk
  let evs : List GraceEvent :=
    [.commit ⟨1⟩ (resume 1 2) .currentToken .ok, .commit ⟨1⟩ (resume 2 3) .currentToken diskFull]
  have hold := h p.mem p.disk (by decide) evs ((Run.run step p evs).load (Run.run step p evs).disk)
    (by decide) ⟨1⟩ ⟨1⟩ (by decide)
  revert hold
  decide

/-- A run from the device 1 paired with the token 1: its first write of the grace record fails, the
second succeeds. -/
def pairedOne : GraceRun Blob := start (Blob.paired ⟨1⟩ 1 1).store (Blob.paired ⟨1⟩ 1 1).disk

/-- The grace of the first rotation is not written. -/
def lostFirst : List GraceEvent :=
  [.commit ⟨1⟩ (resume 1 2) .currentToken diskFull, .commit ⟨1⟩ (resume 2 3) .currentToken .ok]

/-- The store that this run leaves on record. -/
def afterLostFirst : PeerStore :=
  (Run.run step pairedOne lostFirst).load (Run.run step pairedOne lostFirst).disk

theorem lostFirst_covered : Run.Along step Covered pairedOne lostFirst := by
  refine ⟨fun _ => ?_, fun h => absurd h ?_, trivial⟩
  · show ¬ pairedOne.mem.Exposed _ _ _
    decide
  · decide

/-- The reloaded store accepts the tokens 2 and 3. -/
theorem grace_admits_current_and_previous_one_lost :
    afterLostFirst.Accepts ⟨1⟩ ⟨2⟩ ∧ afterLostFirst.Accepts ⟨1⟩ ⟨3⟩ ∧
      ∀ x t, afterLostFirst.Accepts x t → afterLostFirst.token x = some t ∨
        (Run.run step pairedOne lostFirst).previous x = some t :=
  ⟨by decide, by decide, grace_admits_current_and_previous (Blob.paired ⟨1⟩ 1 1).store
    (Blob.paired ⟨1⟩ 1 1).disk (by decide) lostFirst lostFirst_covered afterLostFirst (by decide)⟩

end GraceRun

end Portty
