import Portty.Transport.PeersExec

/-!
# The store without failures

If no call fails, the operations are functions of the store in memory, and the records follow it.

* **`hostCommit`, `revoked`, `forgotten`**: the operations as such functions.
* **`commitHostHandshake_refines`, `revoke_refines`, `forget_refines`**: from a store that agrees
  with its records, the operation on the records gives the function's result, and the two agree
  again.
-/

namespace Portty

open Records

namespace PeerStore

/-- The store after `commit_host_handshake` of a resume that is not refused. -/
def resumed (s : PeerStore) (peer : DeviceId) (c : HandshakeCommit) (r : ResumedWith) : PeerStore :=
  { s.leave peer c true (s.pairState.lookup peer).isNone false with
    grace := match r, s.stagedGrace peer c with
      | .currentToken, some g => s.grace.insert peer g
      | .currentToken, none => s.grace
      | .previousToken, _ => s.grace.erase peer }

/-- The store after `commit_host_handshake` of a fresh pair that is not refused. -/
def paired (s : PeerStore) (peer : DeviceId) (c : HandshakeCommit) : PeerStore :=
  { s.leave peer c true true true with grace := s.grace.erase peer }

/-- Why a commit is refused. -/
def refusal (s : PeerStore) (peer : DeviceId) (c : HandshakeCommit) : Option IoError :=
  if c.resumed then
    if s.isRevoked peer then some ⟨.permissionDenied, "peer was revoked while reconnecting"⟩
    else if !s.tokenIsUnchanged peer c.observedToken then
      some ⟨.permissionDenied, "peer credential changed while reconnecting"⟩
    else none
  else if s.revocationMarker peer ≠ c.observedRevocation then
    some ⟨.permissionDenied, "peer was revoked while pairing"⟩
  else none

/-- `commit_host_handshake`. -/
def hostCommit (s : PeerStore) (peer : DeviceId) (c : HandshakeCommit) (r : ResumedWith) :
    Except IoError PairId × PeerStore :=
  match s.refusal peer c with
  | some e => (.error e, s)
  | none =>
    if c.resumed then (.ok (((s.pairState.lookup peer).map (·.pairId)).getD c.candidatePairId),
      s.resumed peer c r)
    else (.ok c.candidatePairId, s.paired peer c)

/-- The store after `revoke`. -/
def revoked (s : PeerStore) (peer : DeviceId) (e : EventId) (now : Nat) : PeerStore where
  map := s.map.erase peer
  pairState := s.pairState.erase peer
  revocations := s.revocations.insert peer (s.tombstone peer e now)
  grace := s.grace.erase peer
  lastConnected := if s.lastConnected = some peer then none else s.lastConnected

/-- The store after `forget`. -/
def forgotten (s : PeerStore) (peer : DeviceId) : PeerStore :=
  if (s.map.lookup peer).isNone then s
  else
    { s with
      map := s.map.erase peer
      pairState := s.pairState.erase peer
      grace := s.grace.erase peer
      lastConnected := if s.lastConnected = some peer then none else s.lastConnected }

section HostCommit

variable {s : PeerStore} {peer : DeviceId} {c : HandshakeCommit} {r : ResumedWith}

theorem refusal_eq_none_iff : s.refusal peer c = none ↔
    if c.resumed then s.isRevoked peer = false ∧ s.tokenIsUnchanged peer c.observedToken = true
    else s.revocationMarker peer = c.observedRevocation := by
  unfold refusal
  cases c.resumed
  · simp
  · cases s.isRevoked peer <;> cases s.tokenIsUnchanged peer c.observedToken <;> simp

theorem hostCommit_toOption_ne_none :
    (s.hostCommit peer c r).1.toOption ≠ none ↔ s.refusal peer c = none := by
  unfold hostCommit
  cases s.refusal peer c with
  | some e => simp [Except.toOption]
  | none => cases c.resumed <;> simp [Except.toOption]

theorem hostCommit_of_refusal {e : IoError} (h : s.refusal peer c = some e) :
    s.hostCommit peer c r = (.error e, s) := by
  rw [hostCommit, h]

/-- A commit that succeeds installs the token of its handshake, and nothing else in the token
map. -/
theorem lookup_map_hostCommit (h : s.refusal peer c = none) (p : DeviceId) :
    ((s.hostCommit peer c r).2.map.lookup p).map (·.token) =
      if p = peer then some c.token else (s.map.lookup p).map (·.token) := by
  rw [hostCommit, h]
  cases c.resumed <;>
    simp only [Bool.false_eq_true, ↓reduceIte, resumed, paired, leave, FMap.lookup_insert_ite] <;>
    split <;> rfl

theorem isRevoked_hostCommit (h : s.refusal peer c = none) :
    (s.hostCommit peer c r).2.isRevoked peer = false := by
  have hr := refusal_eq_none_iff.mp h
  rw [hostCommit, h]
  cases hc : c.resumed with
  | true =>
    rw [hc] at hr
    exact hr.1
  | false => simp [paired, leave, isRevoked]

theorem token_hostCommit (h : s.refusal peer c = none) :
    (s.hostCommit peer c r).2.token peer = some c.token := by
  rw [token, isRevoked_hostCommit h, if_neg Bool.false_ne_true, lookup_map_hostCommit h, if_pos rfl]

/-- A resume by the current token keeps that token as the previous one. -/
theorem graceTokens_hostCommit_current {t : ResumptionToken} (h : s.refusal peer c = none)
    (hc : c.resumed = true) (ho : c.observedToken = some t) :
    (s.hostCommit peer c .currentToken).2.graceTokens.lookup peer = some t := by
  obtain ⟨hr, hu⟩ : s.isRevoked peer = false ∧ s.tokenIsUnchanged peer c.observedToken = true := by
    simpa [hc] using refusal_eq_none_iff.mp h
  have hg : s.stagedGrace peer c =
      some ⟨((s.pairState.lookup peer).map (·.pairId)).getD c.candidatePairId, t⟩ := by
    rw [stagedGrace, if_pos ⟨hr, hu⟩, ho]
    rfl
  have hrevoked := isRevoked_hostCommit (r := .currentToken) h
  rw [lookup_graceTokens]
  refine ⟨⟨((s.pairState.lookup peer).map (·.pairId)).getD c.candidatePairId, t⟩, ?_, hrevoked, ?_,
    ?_, rfl⟩
  · simp [hostCommit, h, hc, resumed, hg]
  · simp [hostCommit, h, hc, resumed, leave]
  · cases hp : s.pairState.lookup peer <;> simp [hostCommit, h, hc, resumed, leave, hp]

/-- Any other commit uses the previous token up. -/
theorem graceTokens_hostCommit_none (h : s.refusal peer c = none)
    (hk : c.resumed = false ∨ r = .previousToken) :
    (s.hostCommit peer c r).2.graceTokens.lookup peer = none := by
  have hg : (s.hostCommit peer c r).2.grace.lookup peer = none := by
    cases hc : c.resumed with
    | false => simp [hostCommit, h, hc, paired]
    | true =>
      obtain rfl : r = .previousToken := by simpa [hc] using hk
      simp [hostCommit, h, hc, resumed]
  rw [graceTokens, FMap.lookup_filterMap, hg]
  rfl

end HostCommit

variable {B α β : Type} [Postcard B] {s t t₁ t₂ : PeerStore} {peer : DeviceId}
  {c : HandshakeCommit} {d : Disk RecordName B}

/-! ## Programs on the records as functions of the store -/

/-- Without failures, from records that decode to `t`, the program returns `a` and leaves records
that decode to `t'`. -/
def RunsTo (p : StoreM B α) (t : PeerStore) (a : α) (t' : PeerStore) : Prop :=
  ∀ d, Loaded t d → ∃ d', p.exec [] d = (a, d', []) ∧ Loaded t' d'

theorem RunsTo.ret (a : α) : RunsTo (B := B) (.ret a) t a t := fun d h => ⟨d, rfl, h⟩

theorem RunsTo.bind {p : StoreM B α} {f : α → StoreM B β} {a : α} {b : β} (hp : RunsTo p t a t₁)
    (hf : RunsTo (f a) t₁ b t₂) : RunsTo (p >>= f) t b t₂ := by
  intro d h
  obtain ⟨d₁, h₁, hl₁⟩ := hp d h
  obtain ⟨d₂, h₂, hl₂⟩ := hf d₁ hl₁
  exact ⟨d₂, by rw [Prog.exec_bind, h₁, h₂], hl₂⟩

theorem persist_runsTo (s : PeerStore) (dur : Durability) :
    RunsTo (B := B) (s.persist dur) t (.ok ()) { t with map := s.map } :=
  fun _ h => ⟨_, rfl, h.write_peers s.map dur.sync .ok⟩

theorem persistPairState_runsTo (s : PeerStore) :
    RunsTo (B := B) s.persistPairState t (.ok ()) { t with pairState := s.pairState } :=
  fun _ h => ⟨_, rfl, h.write_pairState s.pairState true .ok⟩

theorem persistRevocations_runsTo (s : PeerStore) :
    RunsTo (B := B) s.persistRevocations t (.ok ()) { t with revocations := s.revocations } :=
  fun _ h => ⟨_, rfl, h.write_revocations s.revocations true .ok⟩

theorem persistGrace_runsTo (s : PeerStore) :
    RunsTo (B := B) s.persistGrace t (.ok ()) { t with grace := s.grace } := by
  intro d h
  unfold persistGrace
  split
  · rename_i he
    refine ⟨_, rfl, h.map, h.pairState, h.revocations, ?_⟩
    simp [he, Slot.remove]
  · exact ⟨_, rfl, h.write_grace s.grace false .ok⟩

theorem removeLastHost_runsTo (last : Option DeviceId) :
    RunsTo (B := B) (StoreM.remove .lastHost) t (.ok ()) { t with lastConnected := last } :=
  fun _ h => ⟨_, rfl, h.map, h.pairState, h.revocations, h.grace⟩

theorem setGrace_runsTo (s : PeerStore) (peer : DeviceId) (g : GraceToken) :
    RunsTo (B := B) (s.setGrace peer g) t { s with grace := s.grace.insert peer g }
      { t with grace := s.grace.insert peer g } :=
  (persistGrace_runsTo _).bind (.ret _)

/-- Dropping a grace token removes the entry, if there is one. -/
theorem dropGrace_runsTo (s : PeerStore) (peer : DeviceId) (h : t.grace = s.grace) :
    RunsTo (B := B) (s.dropGrace peer) t { s with grace := s.grace.erase peer }
      { t with grace := s.grace.erase peer } := by
  unfold dropGrace
  split
  · rename_i hn
    rw [FMap.erase_of_lookup_none (Option.isNone_iff_eq_none.mp hn),
      show { t with grace := s.grace } = t by rw [← h]]
    exact .ret s
  · exact (persistGrace_runsTo _).bind (.ret _)

theorem rememberToken_runsTo (s : PeerStore) (peer : DeviceId) (ticket : Option String)
    (token : ResumptionToken) (dur : Durability) :
    let m := s.map.insert peer ⟨ticket <|> (s.map.lookup peer).bind (·.ticket), token⟩
    RunsTo (B := B) (s.rememberToken peer ticket token dur) t (.ok (), { s with map := m })
      { t with map := m } :=
  (persist_runsTo _ dur).bind (.ret _)

theorem installGeneration_runsTo (s : PeerStore) (peer : DeviceId) (c : HandshakeCommit)
    (dur : Durability) :
    RunsTo (B := B) (s.installGeneration peer c dur) t (.ok (), s.leave peer c true true false)
      { t with map := (s.leave peer c true true false).map,
               pairState := (s.leave peer c true true false).pairState } :=
  (persistPairState_runsTo _).bind ((rememberToken_runsTo _ peer c.ticket c.token dur).bind (.ret _))

theorem clearTombstone_runsTo (s : PeerStore) (peer : DeviceId) (pairId : PairId)
    (h : t.revocations = s.revocations) :
    RunsTo (B := B) (s.clearTombstone peer pairId) t
      (.ok pairId, { s with revocations := s.revocations.erase peer })
      { t with revocations := s.revocations.erase peer } := by
  unfold clearTombstone
  split
  · rename_i hr
    rw [FMap.erase_of_lookup_none (by simpa [isRevoked] using hr),
      show { t with revocations := s.revocations } = t by rw [← h]]
    exact .ret (Except.ok pairId, s)
  · exact (persistRevocations_runsTo _).bind (.ret _)

/-! ## The operations -/

theorem commitFresh_runsTo (h : s.revocationMarker peer = c.observedRevocation) :
    RunsTo (B := B) (s.commitFresh peer c) s (.ok c.candidatePairId, s.leave peer c true true true)
      (s.leave peer c true true true) := by
  unfold commitFresh
  rw [if_neg (not_not.mpr h)]
  exact (installGeneration_runsTo s peer c _).bind (clearTombstone_runsTo _ peer _ rfl)

theorem commitResume_runsTo (h : t = { s with grace := t.grace }) (hr : s.isRevoked peer = false)
    (ht : s.tokenIsUnchanged peer c.observedToken = true) :
    RunsTo (B := B) (s.commitResume peer c) t
      (.ok (((s.pairState.lookup peer).map (·.pairId)).getD c.candidatePairId),
        s.leave peer c true (s.pairState.lookup peer).isNone false)
      { s.leave peer c true (s.pairState.lookup peer).isNone false with grace := t.grace } := by
  unfold commitResume
  rw [← isRevoked_eq, if_neg (by simp [hr]), if_neg (by simp [ht]), h]
  cases hp : s.pairState.lookup peer with
  | some x => exact (rememberToken_runsTo s peer c.ticket c.token _).bind (.ret _)
  | none => exact (installGeneration_runsTo s peer c _).bind (.ret _)

/-- A refused commit changes nothing. -/
theorem commitHandshake_refused {e : IoError} (h : s.refusal peer c = some e) :
    s.commitHandshake (B := B) peer c = .ret (.error e, s) := by
  unfold refusal at h
  unfold commitHandshake
  split at h
  · rw [if_pos ‹_›, commitResume, ← isRevoked_eq]
    split at h
    · cases h; rw [if_pos ‹_›]; rfl
    split at h
    · cases h; rw [if_neg ‹_›, if_pos ‹_›]; rfl
    · cases h
  · rw [if_neg ‹_›, commitFresh]
    split at h
    · cases h; rw [if_pos ‹_›]; rfl
    · cases h

/-- `commit_host_handshake` on the records is `hostCommit`. -/
theorem commitHostHandshake_refines (s : PeerStore) (peer : DeviceId) (c : HandshakeCommit)
    (r : ResumedWith) :
    RunsTo (B := B) (s.commitHostHandshake peer c r) s (s.hostCommit peer c r)
      (s.hostCommit peer c r).2 := by
  unfold commitHostHandshake hostCommit
  cases href : s.refusal peer c with
  | some e =>
    split
    · rw [commitHandshake_refused href]
      exact .ret _
    · have hstage : s.stagedGrace peer c = none := by
        unfold stagedGrace
        rw [if_neg]
        rintro ⟨hr, ht⟩
        have hres : c.resumed = true := by simp_all
        rw [refusal_eq_none_iff.mpr (by rw [if_pos hres]; exact ⟨hr, ht⟩)] at href
        cases href
      rw [stageGrace, hstage]
      show RunsTo (s.commitHandshake peer c) s _ _
      rw [commitHandshake_refused href]
      exact .ret _
  | none =>
    have href := refusal_eq_none_iff.mp href
    cases hres : c.resumed with
    | false =>
      rw [hres] at href
      rw [if_pos (by simp)]
      simp only [Bool.false_eq_true, ↓reduceIte, commitHandshake, hres]
      exact (commitFresh_runsTo href).bind ((dropGrace_runsTo _ peer rfl).bind (.ret _))
    | true =>
      rw [hres] at href
      obtain ⟨hr, ht⟩ := href
      simp only [↓reduceIte, commitHandshake, hres, resumed]
      cases r with
      | previousToken =>
        rw [if_pos (by simp)]
        exact (commitResume_runsTo rfl hr ht).bind ((dropGrace_runsTo _ peer rfl).bind (.ret _))
      | currentToken =>
        rw [if_neg (by simp), stageGrace]
        cases s.stagedGrace peer c with
        | none => exact commitResume_runsTo rfl hr ht
        | some g =>
          refine (setGrace_runsTo s peer g).bind ?_
          exact commitResume_runsTo (s := { s with grace := s.grace.insert peer g }) rfl hr ht

theorem revoke_refines (s : PeerStore) (peer : DeviceId) (e : EventId) (now : Nat) :
    RunsTo (B := B) (s.revoke peer e now) s (.ok (s.tombstone peer e now), s.revoked peer e now)
      (s.revoked peer e now) := by
  refine (persistRevocations_runsTo _).bind ((persist_runsTo _ _).bind
    ((persistPairState_runsTo _).bind ((dropGrace_runsTo _ peer rfl).bind ?_)))
  unfold revoked
  dsimp only
  split
  · exact (removeLastHost_runsTo none).bind (.ret _)
  · exact .ret _

/-- Forgetting a host is the step of the model. -/
theorem forget_refines (s : PeerStore) (peer : DeviceId) :
    RunsTo (B := B) (s.forget peer) s (.ok (), s.forgotten peer) (s.forgotten peer) := by
  unfold forget forgotten
  cases hm : s.map.lookup peer with
  | none => exact .ret _
  | some r =>
    simp only [Option.isNone_some, Bool.false_eq_true, ↓reduceIte]
    refine (persist_runsTo _ _).bind ((persistPairState_runsTo _).bind
      ((dropGrace_runsTo _ peer rfl).bind ?_))
    unfold dropLastHost
    by_cases hl : s.lastConnected = some peer
    · simp only [hl, decide_true, Bool.true_eq_false, ↓reduceIte]
      exact (removeLastHost_runsTo none).bind (.ret _)
    · simp only [hl, decide_false, ↓reduceIte]
      exact .ret _

end PeerStore

end Portty
