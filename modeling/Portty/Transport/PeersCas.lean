import Portty.Transport.PeersRefine

/-!
# Concurrent handshakes on one store

The host runs any number of handshakes at once. Each one observes the store when it starts (its
device's token and tombstone, `Observed`), and commits later, after a network round trip and perhaps
a prompt, with the credentials its session derived (`Derived`). In between, other handshakes commit
and devices are revoked and forgotten. No write fails here.

* **`Shared`**: the store, its records and what each handshake has observed; `step` is one event,
  and every interleaving is a list of events (`run`).
* **`Stale o σ`**: the token that `o` observed is not the current one. It stays so, if derived
  tokens are new (`stale_run`), and a stale handshake cannot resume.
-/

namespace Portty

open Records

/-- What a handshake has observed of its device when it started. -/
structure Observed where
  peer : DeviceId
  token : Option ResumptionToken
  revocation : Option EventId
  deriving DecidableEq

/-- What the session of a handshake derives. -/
structure Derived where
  token : ResumptionToken
  pairId : PairId
  eventKey : PairEventKey
  deriving DecidableEq

/-- How a handshake authenticated. -/
inductive CommitKind where
  | resume (resumedWith : ResumedWith)
  | fresh
  deriving DecidableEq

namespace CommitKind

/-- The commit goes on with the stored pair. -/
def resumed : CommitKind → Bool
  | resume _ => true
  | fresh => false

/-- A fresh pair passes `CurrentToken`, which is not looked at. -/
def resumedWith : CommitKind → ResumedWith
  | resume r => r
  | fresh => .currentToken

end CommitKind

/-- The commit of a handshake. -/
def Observed.commit (o : Observed) (k : CommitKind) (x : Derived) : HandshakeCommit where
  ticket := none
  token := x.token
  resumed := k.resumed
  candidatePairId := x.pairId
  candidateEventKey := x.eventKey
  observedRevocation := o.revocation
  observedToken := o.token

/-- The store, its records, and the handshakes in the order they started. -/
structure Shared (B : Type) where
  store : PeerStore
  disk : Disk RecordName B
  handshakes : List Observed

/-- What the handshakes do, in any order. -/
inductive CasEvent where
  /-- A connection of `peer`: the store is loaded again and observed. -/
  | start (peer : DeviceId)
  /-- The handshake number `i` commits. -/
  | commit (i : Nat) (k : CommitKind) (x : Derived)
  | revoke (peer : DeviceId) (e : EventId) (now : Nat)
  | forget (peer : DeviceId)
  deriving DecidableEq

namespace Shared

open PeerStore

variable {B : Type} [Postcard B]

/-- The result of a commit, with the store and the records after it. -/
def commitOutcome (σ : Shared B) (o : Observed) (k : CommitKind) (x : Derived) :
    (Except IoError PairId × PeerStore) × Disk RecordName B × List (Outcome IoError) :=
  (σ.store.commitHostHandshake o.peer (o.commit k x) k.resumedWith).exec [] σ.disk

/-- One event. -/
def step (σ : Shared B) : CasEvent → Shared B
  | .start peer =>
    match ((loadFrom (B := B)).exec [] σ.disk).1 with
    | .error _ => σ
    | .ok s =>
      { σ with
        store := s
        handshakes := σ.handshakes ++ [⟨peer, s.token peer, s.revocationMarker peer⟩] }
  | .commit i k x =>
    match σ.handshakes[i]? with
    | none => σ
    | some o => { σ with
        store := (σ.commitOutcome o k x).1.2
        disk := (σ.commitOutcome o k x).2.1 }
  | .revoke peer e now =>
    let r := (σ.store.revoke peer e now).exec [] σ.disk
    { σ with store := r.1.2, disk := r.2.1 }
  | .forget peer =>
    let r := (σ.store.forget peer).exec [] σ.disk
    { σ with store := r.1.2, disk := r.2.1 }

/-- A run of the handshakes. -/
def run (σ : Shared B) (evs : List CasEvent) : Shared B := evs.foldl step σ

theorem run_append (σ : Shared B) (evs evs' : List CasEvent) :
    σ.run (evs ++ evs') = (σ.run evs).run evs' := List.foldl_append

/-- The handshake number `i` commits successfully if it commits now. -/
def Succeeds (σ : Shared B) (i : Nat) (k : CommitKind) (x : Derived) : Prop :=
  ∃ o, σ.handshakes[i]? = some o ∧ (σ.commitOutcome o k x).1.1.toOption ≠ none

/-- The token that a handshake commits was not observed by any handshake of its device. -/
def FreshIn (σ : Shared B) : CasEvent → Prop
  | .commit i _ x => ∀ o ∈ σ.handshakes[i]?, ∀ o' ∈ σ.handshakes, o'.peer = o.peer →
      o'.token ≠ some x.token
  | _ => True

instance (σ : Shared B) : (ev : CasEvent) → Decidable (σ.FreshIn ev)
  | .commit i _ x => inferInstanceAs (Decidable (∀ o ∈ σ.handshakes[i]?, ∀ o' ∈ σ.handshakes,
      o'.peer = o.peer → o'.token ≠ some x.token))
  | .start _ | .revoke _ _ _ | .forget _ => inferInstanceAs (Decidable True)

/-- Every commit of the run brings a new token. -/
def Fresh (σ : Shared B) : List CasEvent → Prop
  | [] => True
  | ev :: evs => σ.FreshIn ev ∧ (σ.step ev).Fresh evs

instance decidableFresh (σ : Shared B) : (evs : List CasEvent) → Decidable (σ.Fresh evs)
  | [] => inferInstanceAs (Decidable True)
  | ev :: evs => @instDecidableAnd _ _ _ (decidableFresh (σ.step ev) evs)

/-! ## One step -/

variable {σ : Shared B} {o : Observed} {k : CommitKind} {x : Derived}

theorem commitOutcome_eq (h : σ.store.Loaded σ.disk) (o : Observed) (k : CommitKind) (x : Derived) :
    (σ.commitOutcome o k x).1 = σ.store.hostCommit o.peer (o.commit k x) k.resumedWith ∧
      (σ.commitOutcome o k x).1.2.Loaded (σ.commitOutcome o k x).2.1 := by
  obtain ⟨d', he, hl⟩ := commitHostHandshake_refines (B := B) σ.store o.peer (o.commit k x)
    k.resumedWith σ.disk h
  rw [commitOutcome, he]
  exact ⟨rfl, hl⟩

theorem step_start (h : σ.store.Loaded σ.disk) (peer : DeviceId) :
    ∃ last, σ.step (.start peer) =
      { σ with
        store := { σ.store with lastConnected := last }
        handshakes := σ.handshakes ++
          [⟨peer, σ.store.token peer, σ.store.revocationMarker peer⟩] } := by
  obtain ⟨last, hl⟩ := loadFrom_of_loaded h
  exact ⟨last, by simp only [step, hl]; rfl⟩

theorem step_commit {i : Nat} (hi : σ.handshakes[i]? = some o) :
    σ.step (.commit i k x) =
      { σ with store := (σ.commitOutcome o k x).1.2, disk := (σ.commitOutcome o k x).2.1 } := by
  simp only [step, hi]

theorem step_commit_none {i : Nat} (hi : σ.handshakes[i]? = none) :
    σ.step (.commit i k x) = σ := by
  simp only [step, hi]

/-- The token on record for a device, revoked or not. -/
def current (σ : Shared B) (p : DeviceId) : Option ResumptionToken :=
  (σ.store.map.lookup p).map (·.token)

/-- What a step does to the token of each device: nothing, or it is removed, or it becomes the one
that a handshake of the device commits. -/
theorem step_current (h : σ.store.Loaded σ.disk) (ev : CasEvent) (p : DeviceId) :
    (σ.step ev).current p = σ.current p ∨ (σ.step ev).current p = none ∨
    ∃ i k x o, ev = .commit i k x ∧ σ.handshakes[i]? = some o ∧ o.peer = p ∧
      (σ.step ev).current p = some x.token := by
  cases ev with
  | start peer =>
    obtain ⟨last, he⟩ := step_start h peer
    rw [he]
    exact .inl rfl
  | commit i k x =>
    cases hi : σ.handshakes[i]? with
    | none => rw [step_commit_none hi]; exact .inl rfl
    | some o =>
      rw [step_commit hi, (commitOutcome_eq h o k x).1]
      cases href : σ.store.refusal o.peer (o.commit k x) with
      | some e => rw [hostCommit_of_refusal href]; exact .inl rfl
      | none =>
        have hm := lookup_map_hostCommit (r := k.resumedWith) href p
        by_cases hp : p = o.peer
        · rw [if_pos hp] at hm
          exact .inr (.inr ⟨i, k, x, o, rfl, hi, hp.symm, hm⟩)
        · rw [if_neg hp] at hm
          exact .inl hm
  | revoke peer e now =>
    obtain ⟨d', he, -⟩ := revoke_refines (B := B) σ.store peer e now σ.disk h
    simp only [current, step, he, revoked, FMap.lookup_erase_ite]
    split
    · exact .inr (.inl rfl)
    · exact .inl rfl
  | forget peer =>
    obtain ⟨d', he, -⟩ := forget_refines (B := B) σ.store peer σ.disk h
    simp only [current, step, he, forgotten]
    split
    · exact .inl rfl
    · simp only [FMap.lookup_erase_ite]
      split
      · exact .inr (.inl rfl)
      · exact .inl rfl

/-- The records follow the store. -/
theorem loaded_step (h : σ.store.Loaded σ.disk) (ev : CasEvent) :
    (σ.step ev).store.Loaded (σ.step ev).disk := by
  cases ev with
  | start peer =>
    obtain ⟨last, he⟩ := step_start h peer
    rw [he]
    exact ⟨h.map, h.pairState, h.revocations, h.grace⟩
  | commit i k x =>
    cases hi : σ.handshakes[i]? with
    | none => rw [step_commit_none hi]; exact h
    | some o => rw [step_commit hi]; exact (commitOutcome_eq h o k x).2
  | revoke peer e now =>
    obtain ⟨d', he, hl⟩ := revoke_refines (B := B) σ.store peer e now σ.disk h
    simpa only [step, he] using hl
  | forget peer =>
    obtain ⟨d', he, hl⟩ := forget_refines (B := B) σ.store peer σ.disk h
    simpa only [step, he] using hl

theorem loaded_run (h : σ.store.Loaded σ.disk) (evs : List CasEvent) :
    (σ.run evs).store.Loaded (σ.run evs).disk := by
  induction evs generalizing σ with
  | nil => exact h
  | cons ev evs ih => exact ih (loaded_step h ev)

/-- The token that the handshake observed is not the current one. -/
def Stale (o : Observed) (σ : Shared B) : Prop := o.token = none ∨ σ.current o.peer ≠ o.token

/-- No handshake is forgotten. -/
theorem handshakes_step (ev : CasEvent) : σ.handshakes <+: (σ.step ev).handshakes := by
  cases ev with
  | start peer =>
    unfold step
    cases ((loadFrom (B := B)).exec [] σ.disk).1 with
    | error e => exact List.prefix_rfl
    | ok s => exact List.prefix_append _ _
  | commit i k x =>
    cases hi : σ.handshakes[i]? with
    | none => rw [step_commit_none hi]
    | some o => rw [step_commit hi]
  | revoke peer e now => exact List.prefix_rfl
  | forget peer => exact List.prefix_rfl

theorem stale_step (h : σ.store.Loaded σ.disk) {ev : CasEvent} (hf : σ.FreshIn ev)
    (ho : o ∈ σ.handshakes) (hs : Stale o σ) : Stale o (σ.step ev) := by
  rcases hs with hs | hs
  · exact .inl hs
  rcases step_current h ev o.peer with hc | hc | ⟨i, k, x, o', rfl, hi, hp, hc⟩
  · exact .inr (hc ▸ hs)
  · rw [Stale, hc]
    by_cases hn : o.token = none
    · exact .inl hn
    · exact .inr (Ne.symm hn)
  · rw [Stale, hc]
    exact .inr (Ne.symm (hf o' hi o ho hp.symm))

/-- A token that is no longer the current one does not become it again. -/
theorem stale_run (h : σ.store.Loaded σ.disk) {evs : List CasEvent} (hf : σ.Fresh evs)
    (ho : o ∈ σ.handshakes) (hs : Stale o σ) : Stale o (σ.run evs) := by
  induction evs generalizing σ with
  | nil => exact hs
  | cons ev evs ih =>
    exact ih (loaded_step h ev) hf.2 ((handshakes_step ev).subset ho) (stale_step h hf.1 ho hs)

/-! ## Commits -/

theorem succeeds_iff (h : σ.store.Loaded σ.disk) {i : Nat} (hi : σ.handshakes[i]? = some o) :
    σ.Succeeds i k x ↔ σ.store.refusal o.peer (o.commit k x) = none := by
  rw [← hostCommit_toOption_ne_none (r := k.resumedWith), ← (commitOutcome_eq h o k x).1]
  constructor
  · rintro ⟨o', hi', hs⟩
    rw [hi] at hi'
    cases hi'
    exact hs
  · exact fun hs => ⟨o, hi, hs⟩

/-- A resume succeeds only on the token it observed, and without a tombstone. -/
theorem resume_checked (h : σ.store.Loaded σ.disk) {i : Nat} (hi : σ.handshakes[i]? = some o)
    {r : ResumedWith} (hs : σ.Succeeds i (.resume r) x) :
    o.token ≠ none ∧ σ.current o.peer = o.token ∧ σ.store.revocationMarker o.peer = none := by
  obtain ⟨hr, ht⟩ := refusal_eq_none_iff.mp ((succeeds_iff h hi).mp hs)
  obtain ⟨rec, hrec, hobs⟩ := tokenIsUnchanged_iff.mp ht
  have hobs : o.token = some rec.token := hobs
  rw [isRevoked_eq] at hr
  refine ⟨by simp [hobs], ?_, Option.not_isSome_iff_eq_none.mp (by simp [hr])⟩
  rw [current, hrec, hobs]
  rfl

theorem not_succeeds_of_stale (h : σ.store.Loaded σ.disk) {i : Nat}
    (hi : σ.handshakes[i]? = some o) (hs : Stale o σ) (r : ResumedWith) (x : Derived) :
    ¬ σ.Succeeds i (.resume r) x := by
  intro hok
  obtain ⟨hn, hc, -⟩ := resume_checked h hi hok
  rcases hs with hs | hs
  · exact hn hs
  · exact hs hc

theorem current_commit (h : σ.store.Loaded σ.disk) {i : Nat} (hi : σ.handshakes[i]? = some o)
    (hs : σ.Succeeds i k x) : (σ.step (.commit i k x)).store.token o.peer = some x.token := by
  rw [step_commit hi, (commitOutcome_eq h o k x).1]
  exact token_hostCommit ((succeeds_iff h hi).mp hs)

omit [Postcard B] in
theorem current_of_token {p : DeviceId} {t : ResumptionToken} (h : σ.store.token p = some t) :
    σ.current p = some t := by
  unfold PeerStore.token at h
  split at h
  · cases h
  · exact h

/-- After a commit every handshake of the device that has already started is stale. -/
theorem stale_of_commit (h : σ.store.Loaded σ.disk) {i : Nat} (hi : σ.handshakes[i]? = some o)
    (hs : σ.Succeeds i k x) (hf : σ.FreshIn (.commit i k x)) {o' : Observed}
    (ho' : o' ∈ σ.handshakes) (hp : o'.peer = o.peer) : Stale o' (σ.step (.commit i k x)) := by
  have hc := current_of_token (current_commit h hi hs)
  rw [Stale, hp, hc]
  exact .inr (Ne.symm (hf o hi o' ho' hp))

omit [Postcard B] in
/-- Without a token on record every handshake of the device is stale. -/
theorem stale_of_current_none {p : DeviceId} (hc : σ.current p = none) (hp : o.peer = p) :
    Stale o σ := by
  rw [Stale, hp, hc]
  by_cases hn : o.token = none
  · exact .inl hn
  · exact .inr (Ne.symm hn)

theorem current_revoke (h : σ.store.Loaded σ.disk) (p : DeviceId) (e : EventId) (now : Nat) :
    (σ.step (.revoke p e now)).current p = none := by
  obtain ⟨d', he, -⟩ := revoke_refines (B := B) σ.store p e now σ.disk h
  simp [current, step, he, revoked]

theorem current_forget (h : σ.store.Loaded σ.disk) (p : DeviceId) :
    (σ.step (.forget p)).current p = none := by
  obtain ⟨d', he, -⟩ := forget_refines (B := B) σ.store p σ.disk h
  simp only [current, step, he, forgotten]
  split
  · rename_i hn
    rw [Option.isNone_iff_eq_none.mp hn]
    rfl
  · rw [Finmap.lookup_erase]
    rfl

theorem fresh_append {evs evs' : List CasEvent} (h : σ.Fresh (evs ++ evs')) :
    σ.Fresh evs ∧ (σ.run evs).Fresh evs' := by
  induction evs generalizing σ with
  | nil => exact ⟨trivial, h⟩
  | cons ev evs ih =>
    obtain ⟨h₁, h₂⟩ := ih h.2
    exact ⟨⟨h.1, h₁⟩, h₂⟩

theorem handshakes_run (evs : List CasEvent) : σ.handshakes <+: (σ.run evs).handshakes := by
  induction evs generalizing σ with
  | nil => exact List.prefix_rfl
  | cons ev evs ih => exact (handshakes_step ev).trans ih

/-- The store and its records, before any handshake. -/
def start (s : PeerStore) (d : Disk RecordName B) : Shared B := ⟨s, d, []⟩

/-- The handshake has observed the store as it was at some point of the run. -/
def ObservedIn (σ : Shared B) (evs : List CasEvent) (o : Observed) : Prop :=
  ∃ pre post, evs = pre ++ .start o.peer :: post ∧ o.token = (σ.run pre).store.token o.peer ∧
    o.revocation = (σ.run pre).store.revocationMarker o.peer

theorem observedIn_append {evs : List CasEvent} (h : σ.ObservedIn evs o) (evs' : List CasEvent) :
    σ.ObservedIn (evs ++ evs') o := by
  obtain ⟨pre, post, rfl, h₁, h₂⟩ := h
  exact ⟨pre, post ++ evs', by simp, h₁, h₂⟩

/-- Each handshake has observed the store as it was when it started. -/
theorem observedIn_run (h : σ.store.Loaded σ.disk) (h₀ : σ.handshakes = []) {evs : List CasEvent}
    (ho : o ∈ (σ.run evs).handshakes) : σ.ObservedIn evs o := by
  induction evs using List.reverseRecOn with
  | nil => rw [run, List.foldl_nil, h₀] at ho; cases ho
  | append_singleton evs ev ih =>
    rw [run_append] at ho
    have keep : o ∈ (σ.run evs).handshakes → σ.ObservedIn (evs ++ [ev]) o :=
      fun ho => observedIn_append (ih ho) _
    change o ∈ ((σ.run evs).step ev).handshakes at ho
    cases ev with
    | start peer =>
      obtain ⟨last, he⟩ := step_start (loaded_run h evs) peer
      rw [he, List.mem_append, List.mem_singleton] at ho
      rcases ho with ho | rfl
      · exact keep ho
      · exact ⟨evs, [], rfl, rfl, rfl⟩
    | commit i k x =>
      cases hi : (σ.run evs).handshakes[i]? with
      | none => rw [step_commit_none hi] at ho; exact keep ho
      | some o' => rw [step_commit hi] at ho; exact keep ho
    | revoke peer e now => exact keep ho
    | forget peer => exact keep ho

/-- What holds of a run. `(σ.run pre)` is the state in which the event after `pre` happens. -/
structure Safe (σ : Shared B) (evs : List CasEvent) : Prop where
  /-- A resume commits only if the token it observed is the current one and there is no tombstone.
  -/
  resume : ∀ pre i r x post o, evs = pre ++ .commit i (.resume r) x :: post →
    (σ.run pre).handshakes[i]? = some o → (σ.run pre).Succeeds i (.resume r) x →
    o.token ≠ none ∧ (σ.run pre).store.token o.peer = o.token ∧
      (σ.run pre).store.revocationMarker o.peer = none
  /-- A fresh pair commits only if the tombstone is the one it observed when it started. -/
  fresh : ∀ pre i x post o, evs = pre ++ .commit i .fresh x :: post →
    (σ.run pre).handshakes[i]? = some o → (σ.run pre).Succeeds i .fresh x →
    (σ.run pre).store.revocationMarker o.peer = o.revocation ∧ σ.ObservedIn pre o
  /-- After a commit the current token is the one its peer derived, in memory and on the records. -/
  derived : ∀ pre i k x post o, evs = pre ++ .commit i k x :: post →
    (σ.run pre).handshakes[i]? = some o → (σ.run pre).Succeeds i k x →
    (σ.run (pre ++ [.commit i k x])).store.token o.peer = some x.token ∧
    ∃ s, ((loadFrom (B := B)).exec [] (σ.run (pre ++ [.commit i k x])).disk).1 = .ok s ∧
      s.token o.peer = some x.token
  /-- If derived tokens are new: of all resumes that observed the same token at most one commits. -/
  once : σ.Fresh evs → ∀ pre i r x mid j r' x' post o o',
    evs = pre ++ .commit i (.resume r) x :: (mid ++ .commit j (.resume r') x' :: post) →
    (σ.run pre).handshakes[i]? = some o →
    (σ.run (pre ++ .commit i (.resume r) x :: mid)).handshakes[j]? = some o' →
    o'.peer = o.peer → o'.token = o.token → (σ.run pre).Succeeds i (.resume r) x →
    ¬ (σ.run (pre ++ .commit i (.resume r) x :: mid)).Succeeds j (.resume r') x'
  /-- If derived tokens are new: a resume that started before a revocation or a removal of its
  device does not commit after it. -/
  removed : σ.Fresh evs → ∀ pre ev mid j r x post o,
    ev = .forget o.peer ∨ (∃ e now, ev = .revoke o.peer e now) →
    evs = pre ++ ev :: (mid ++ .commit j (.resume r) x :: post) →
    (σ.run pre).handshakes[j]? = some o →
    ¬ (σ.run (pre ++ ev :: mid)).Succeeds j (.resume r) x

/-- Every interleaving of handshakes, revocations and removals. -/
theorem interleaving_safe (s : PeerStore) (d : Disk RecordName B)
    (hload : ((loadFrom (B := B)).exec [] d).1 = .ok s) (evs : List CasEvent) :
    (start s d).Safe evs := by
  have h : (start s d).store.Loaded (start s d).disk := loaded_of_loadFrom hload
  constructor
  · rintro pre i r x post o - hi hs
    obtain ⟨hn, hc, hm⟩ := resume_checked (loaded_run h pre) hi hs
    refine ⟨hn, ?_, hm⟩
    rw [PeerStore.token, isRevoked_eq, hm, if_neg (by simp)]
    exact hc
  · rintro pre i x post o - hi hs
    refine ⟨?_, observedIn_run h rfl (List.mem_of_getElem? hi)⟩
    exact refusal_eq_none_iff.mp ((succeeds_iff (loaded_run h pre) hi).mp hs)
  · rintro pre i k x post o - hi hs
    have hc : ((start s d).run (pre ++ [.commit i k x])).store.token o.peer = some x.token := by
      rw [run_append]
      exact current_commit (loaded_run h pre) hi hs
    obtain ⟨last, hl⟩ := loadFrom_of_loaded (loaded_run h (pre ++ [.commit i k x]))
    exact ⟨hc, _, hl, hc⟩
  · rintro hfresh pre i r x mid j r' x' post o o' rfl hi hj hp ht hs
    obtain ⟨-, hf, hrest⟩ := fresh_append hfresh
    have ho : o ∈ ((start s d).run pre).handshakes := List.mem_of_getElem? hi
    have hst := stale_of_commit (loaded_run h pre) hi hs hf ho rfl
    have hst' := stale_run (loaded_step (loaded_run h pre) _) (fresh_append hrest).1
      ((handshakes_step _).subset ho) hst
    rw [run_append] at hj ⊢
    refine not_succeeds_of_stale (loaded_run (loaded_run h pre) _) hj ?_ r' x'
    rw [Stale, hp, ht]
    exact hst'
  · rintro hfresh pre ev mid j r x post o hev rfl hj
    obtain ⟨-, hf, hrest⟩ := fresh_append hfresh
    have ho : o ∈ ((start s d).run pre).handshakes := List.mem_of_getElem? hj
    have hcur : (((start s d).run pre).step ev).current o.peer = none := by
      rcases hev with rfl | ⟨e, now, rfl⟩
      · exact current_forget (loaded_run h pre) _
      · exact current_revoke (loaded_run h pre) _ e now
    have hst := stale_run (loaded_step (loaded_run h pre) _) (fresh_append hrest).1
      ((handshakes_step _).subset ho) (stale_of_current_none hcur rfl)
    rw [run_append]
    refine not_succeeds_of_stale (loaded_run (loaded_run h pre) _) ?_ hst r x
    obtain ⟨l, hl⟩ := (handshakes_step (σ := (start s d).run pre) ev).trans (handshakes_run mid)
    show ((((start s d).run pre).step ev).run mid).handshakes[j]? = some o
    rw [← hl, List.getElem?_append_left (List.getElem?_eq_some_iff.mp hj).1]
    exact hj

/-- Two phones, or one phone twice, resume device 1 at the same time after it was paired, with new
tokens; the second is refused. -/
theorem interleaving_safe_two_resumes :
    (start ⟨∅, ∅, ∅, ∅, none⟩ Blob.empty).Safe
      [.start ⟨1⟩, .commit 0 .fresh ⟨⟨1⟩, ⟨1⟩, ⟨1⟩⟩, .start ⟨1⟩, .start ⟨1⟩,
        .commit 1 (.resume .currentToken) ⟨⟨2⟩, ⟨2⟩, ⟨2⟩⟩,
        .commit 2 (.resume .currentToken) ⟨⟨3⟩, ⟨3⟩, ⟨3⟩⟩] :=
  interleaving_safe ⟨∅, ∅, ∅, ∅, none⟩ Blob.empty rfl _

/-- The tokens of that run are new. -/
example : (start ⟨∅, ∅, ∅, ∅, none⟩ Blob.empty).Fresh
      [.start ⟨1⟩, .commit 0 .fresh ⟨⟨1⟩, ⟨1⟩, ⟨1⟩⟩, .start ⟨1⟩, .start ⟨1⟩,
        .commit 1 (.resume .currentToken) ⟨⟨2⟩, ⟨2⟩, ⟨2⟩⟩,
        .commit 2 (.resume .currentToken) ⟨⟨3⟩, ⟨3⟩, ⟨3⟩⟩] := by
  decide +kernel

instance (σ : Shared B) (i : Nat) (k : CommitKind) (x : Derived) : Decidable (σ.Succeeds i k x) :=
  decidable_of_iff (∃ o ∈ σ.handshakes[i]?, (σ.commitOutcome o k x).1.1.toOption ≠ none) Iff.rfl

/-- A fresh pair that started before its device was forgotten commits after it, with no tombstone
to see: `forget` leaves none. And a resume whose observed token is derived again commits a second
time. -/
theorem forget_undone_by_fresh_pair :
    (¬ ∀ (s : PeerStore) (d : Disk RecordName Blob) (pre mid : List CasEvent) (j : Nat)
      (k : CommitKind) (x : Derived) (o : Observed), ((loadFrom (B := Blob)).exec [] d).1 = .ok s →
      ((start s d).run pre).handshakes[j]? = some o → o.revocation = none →
      ¬ ((start s d).run (pre ++ .forget o.peer :: mid)).Succeeds j k x) ∧
    ¬ ∀ (s : PeerStore) (d : Disk RecordName Blob) (pre mid : List CasEvent) (i j : Nat)
      (r r' : ResumedWith) (x x' : Derived) (o o' : Observed),
      ((loadFrom (B := Blob)).exec [] d).1 = .ok s →
      ((start s d).run pre).handshakes[i]? = some o →
      ((start s d).run (pre ++ .commit i (.resume r) x :: mid)).handshakes[j]? = some o' →
      o'.peer = o.peer → o'.token = o.token → ((start s d).run pre).Succeeds i (.resume r) x →
      ¬ ((start s d).run (pre ++ .commit i (.resume r) x :: mid)).Succeeds j (.resume r') x' := by
  constructor
  · intro h
    exact h ⟨∅, ∅, ∅, ∅, none⟩ Blob.empty
      [.start ⟨1⟩, .commit 0 .fresh ⟨⟨1⟩, ⟨1⟩, ⟨1⟩⟩, .start ⟨1⟩] [] 1 .fresh ⟨⟨2⟩, ⟨2⟩, ⟨2⟩⟩
      ⟨⟨1⟩, some ⟨1⟩, none⟩ (by decide +kernel) (by decide +kernel) rfl (by decide +kernel)
  · intro h
    exact h ⟨∅, ∅, ∅, ∅, none⟩ Blob.empty
      [.start ⟨1⟩, .commit 0 .fresh ⟨⟨1⟩, ⟨1⟩, ⟨1⟩⟩, .start ⟨1⟩, .start ⟨1⟩] [] 1 2 .currentToken
      .currentToken ⟨⟨1⟩, ⟨2⟩, ⟨2⟩⟩ ⟨⟨3⟩, ⟨3⟩, ⟨3⟩⟩ ⟨⟨1⟩, some ⟨1⟩, none⟩ ⟨⟨1⟩, some ⟨1⟩, none⟩
      (by decide +kernel) (by decide +kernel) (by decide +kernel) rfl rfl (by decide +kernel)
      (by decide +kernel)

end Shared

end Portty
