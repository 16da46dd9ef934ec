import Portty.Transport.PeersRun

/-!
# A revocation survives crashes

`revoke d` writes its tombstone durably before it removes anything else. From then on, until a
fresh pair that saw this tombstone has written its own records and cleared it, `d` is in none of
the lists of the store, in memory and after every crash (`Process.inv_run`, `Good.absent`). After
such a fresh pair the old credentials stay dead, if the new ones are not equal to them: the records
can still hold a grace token of the old pairing (its removal is not durable when other peers have
one), but it is bound to the old pair id.

* **`View`**: what is known of `d`: the id of its tombstone, if it has one, and if it has paired
  again since the revocation.
* **`Good v s`**: the view is right about the store `s`. `Content v n c` says the same about the
  content `c` of one record, so it survives any mix of kept and reverted records.
* **`Op.keeps`**: every operation keeps the view, but a revocation of `d` and the fresh pair that
  clears its tombstone. These start with durable writes, of which the last changes the view
  (`revoke_startsWith`, `commitFresh_startsWith`).
-/

namespace Portty

open Records Records.Prog StoreM

/-- The entry of `d`, if there is one, satisfies `P`. -/
def EntryOk {V : Type} (d : DeviceId) (P : V → Prop) (m : FMap DeviceId V) : Prop :=
  ∀ v, m.lookup d = some v → P v

namespace EntryOk

variable {V : Type} {d : DeviceId} {P : V → Prop} {m : FMap DeviceId V}

theorem empty : EntryOk d P (∅ : FMap DeviceId V) := fun v h => by
  rw [Finmap.lookup_empty] at h; cases h

theorem insert (h : EntryOk d P m) {peer : DeviceId} {v : V} (hv : peer = d → P v) :
    EntryOk d P (m.insert peer v) := by
  intro w hw
  rw [FMap.lookup_insert_ite] at hw
  split at hw
  · cases hw; exact hv ‹d = peer›.symm
  · exact h w hw

theorem erase (h : EntryOk d P m) (peer : DeviceId) : EntryOk d P (m.erase peer) := by
  intro w hw
  rw [FMap.lookup_erase_ite] at hw
  split at hw
  · cases hw
  · exact h w hw

end EntryOk

/-- A device that was revoked, with the tokens it had and the pair ids its grace tokens were bound
to. -/
structure Revoked where
  device : DeviceId
  tokens : Set ResumptionToken
  pairs : Set PairId

/-- What is known of the device after its revocation. -/
structure View where
  /-- The id of its tombstone. -/
  tombstone : Option EventId
  /-- It has paired again: its current token and pair id are new. -/
  repaired : Bool
  deriving DecidableEq

namespace Revoked

variable (R : Revoked) (v : View)

/-- The tombstone is the one of the view. -/
def TombstoneOk (m : FMap DeviceId RevocationRecord) : Prop :=
  ∀ e, v.tombstone = some e → (m.lookup R.device).map (·.eventId) = some e

/-- Once it has paired again, its record has none of the old tokens. -/
def MapOk : FMap DeviceId PeerRecord → Prop :=
  EntryOk R.device fun r => v.repaired → r.token ∉ R.tokens

/-- Once it has paired again, its pair is none of the old ones. -/
def PairOk : FMap DeviceId PairState → Prop :=
  EntryOk R.device fun p => v.repaired → p.pairId ∉ R.pairs

/-- An old grace token is still bound to an old pair id. -/
def GraceOk : FMap DeviceId GraceToken → Prop :=
  EntryOk R.device fun g => g.token ∈ R.tokens → g.pairId ∈ R.pairs

variable {R} in
theorem graceOk_empty : R.GraceOk ∅ := EntryOk.empty

/-- The view is right about a store. -/
structure Good (s : PeerStore) : Prop where
  tombstone : R.TombstoneOk v s.revocations
  map : R.MapOk v s.map
  pairState : R.PairOk v s.pairState
  grace : R.GraceOk s.grace

section

variable {R v} {s : PeerStore} (h : R.Good v s)
include h

theorem Good.withMap {m : FMap DeviceId PeerRecord} (hm : R.MapOk v m) :
    R.Good v { s with map := m } := ⟨h.tombstone, hm, h.pairState, h.grace⟩

theorem Good.withPair {m : FMap DeviceId PairState} (hm : R.PairOk v m) :
    R.Good v { s with pairState := m } := ⟨h.tombstone, h.map, hm, h.grace⟩

theorem Good.withGrace {m : FMap DeviceId GraceToken} (hm : R.GraceOk m) :
    R.Good v { s with grace := m } := ⟨h.tombstone, h.map, h.pairState, hm⟩

theorem Good.withRevocations {m : FMap DeviceId RevocationRecord} (hm : R.TombstoneOk v m) :
    R.Good v { s with revocations := m } := ⟨hm, h.map, h.pairState, h.grace⟩

theorem Good.withLast (l : Option DeviceId) : R.Good v { s with lastConnected := l } :=
  ⟨h.tombstone, h.map, h.pairState, h.grace⟩

end

/-- The view is right about the content of one record. -/
def Content {B : Type} [Postcard B] : RecordName → Option B → Prop
  | .revocations, c => ∃ m, PeerStore.revocationsOf c = .ok m ∧ R.TombstoneOk v m
  | .peers, c => R.MapOk v (PeerStore.mapOf c)
  | .pairState, c => R.PairOk v (PeerStore.mapOf c)
  | .grace, c => R.GraceOk (PeerStore.mapOf c)
  | .identity, _ | .lastHost, _ => True

section

variable {B : Type} [Postcard B] {R v}

theorem content_peers {m : FMap DeviceId PeerRecord} (h : R.MapOk v m) :
    R.Content v .peers (some (Codec.toAllocvec m : B)) := by
  simpa [Content] using h

theorem content_pairState {m : FMap DeviceId PairState} (h : R.PairOk v m) :
    R.Content v .pairState (some (Codec.toAllocvec m : B)) := by
  simpa [Content] using h

theorem content_revocations {m : FMap DeviceId RevocationRecord} (h : R.TombstoneOk v m) :
    R.Content v .revocations (some (Codec.toAllocvec m : B)) :=
  ⟨m, PeerStore.revocationsOf_toAllocvec m, h⟩

end

/-- A handshake's new credentials are not old ones of the device. -/
structure FreshCommit (peer : DeviceId) (c : HandshakeCommit) : Prop where
  token : peer = R.device → c.token ∉ R.tokens
  pair : peer = R.device → c.candidatePairId ∉ R.pairs

end Revoked

namespace PeerStore

variable {B : Type} [Postcard B]

section Keeps

variable {R : Revoked} {v : View} {s : PeerStore}

theorem persistGrace_keeps (h : R.GraceOk s.grace) :
    (persistGrace (B := B) s).keeps (R.Content v) fun _ => True := by
  unfold persistGrace
  split
  · exact ⟨by simpa [Revoked.Content] using Revoked.graceOk_empty, trivial⟩
  · exact ⟨by simpa [Revoked.Content] using h, trivial⟩

theorem rememberToken_keeps (h : R.Good v s) {peer : DeviceId} {token : ResumptionToken}
    (ht : peer = R.device → v.repaired → token ∉ R.tokens) (ticket : Option String)
    (dur : Durability) :
    (rememberToken (B := B) s peer ticket token dur).keeps (R.Content v) fun r =>
      R.Good v r.2 ∧ r.1 = .ok () := by
  have hm : R.MapOk v (s.map.insert peer ⟨ticket <|> (s.map.lookup peer).bind (·.ticket), token⟩) :=
    h.map.insert ht
  exact ⟨Revoked.content_peers hm, h.withMap hm, rfl⟩

theorem installGeneration_keeps (h : R.Good v s) {peer : DeviceId} {c : HandshakeCommit}
    (hc : R.FreshCommit peer c) (dur : Durability) :
    (installGeneration (B := B) s peer c dur).keeps (R.Content v) fun r =>
      R.Good v r.2 ∧ r.1 = .ok () := by
  have hp : R.PairOk v (s.pairState.insert peer ⟨c.candidatePairId, c.candidateEventKey⟩) :=
    h.pairState.insert fun e _ => hc.pair e
  refine keeps_write (Revoked.content_pairState hp) (keeps_bind ?_)
  refine keeps_mono (rememberToken_keeps (h.withPair hp) (fun e _ => hc.token e) _ _) ?_
  rintro ⟨r, s'⟩ ⟨hs, rfl⟩
  exact ⟨hs, rfl⟩

theorem commitResume_keeps (h : R.Good v s) {peer : DeviceId} {c : HandshakeCommit}
    (hc : R.FreshCommit peer c) :
    (commitResume (B := B) s peer c).keeps (R.Content v) fun r => R.Good v r.2 := by
  unfold commitResume
  split
  · exact h
  split
  · exact h
  split
  · refine keeps_bind (keeps_mono (rememberToken_keeps h (fun e _ => hc.token e) _ _) ?_)
    exact fun r hr => hr.1
  · refine keeps_bind (keeps_mono (installGeneration_keeps h hc _) ?_)
    exact fun r hr => hr.1

theorem setGrace_keeps (h : R.Good v s) {peer : DeviceId} {g : GraceToken}
    (hg : peer = R.device → g.token ∈ R.tokens → g.pairId ∈ R.pairs) :
    (setGrace (B := B) s peer g).keeps (R.Content v) (R.Good v) := by
  have hg' : R.GraceOk (s.grace.insert peer g) := h.grace.insert hg
  refine keeps_bind (keeps_mono (persistGrace_keeps hg') fun _ _ => ?_)
  exact h.withGrace hg'

theorem dropGrace_keeps (h : R.Good v s) (peer : DeviceId) :
    (dropGrace (B := B) s peer).keeps (R.Content v) (R.Good v) := by
  unfold dropGrace
  split
  · exact h
  have hg : R.GraceOk (s.grace.erase peer) := h.grace.erase peer
  refine keeps_bind (keeps_mono (persistGrace_keeps hg) fun _ _ => ?_)
  exact h.withGrace hg

/-- The tombstone stands as long as another device's is cleared. -/
theorem clearTombstone_keeps (h : R.Good v s) {peer : DeviceId}
    (hp : peer = R.device → v.tombstone = none) (pairId : PairId) :
    (clearTombstone (B := B) s peer pairId).keeps (R.Content v) fun r => R.Good v r.2 := by
  unfold clearTombstone
  split
  · exact h
  have ht : R.TombstoneOk v (s.revocations.erase peer) := by
    intro e he
    rw [FMap.lookup_erase_ite, if_neg]
    · exact h.tombstone e he
    · rintro rfl; rw [hp rfl] at he; cases he
  exact ⟨Revoked.content_revocations ht, h.withRevocations ht⟩

/-- A fresh commit goes on only with the tombstone that it has observed. -/
theorem commitFresh_keeps (h : R.Good v s) {peer : DeviceId} {c : HandshakeCommit}
    (hc : R.FreshCommit peer c)
    (ho : peer = R.device → v.tombstone ≠ none → c.observedRevocation ≠ v.tombstone) :
    (commitFresh (B := B) s peer c).keeps (R.Content v) fun r => R.Good v r.2 := by
  unfold commitFresh
  split
  · exact h
  rename_i hm
  refine keeps_bind (keeps_mono (installGeneration_keeps h hc _) ?_)
  rintro ⟨r, s'⟩ ⟨hs, rfl⟩
  refine clearTombstone_keeps hs (fun hd => ?_) _
  -- with a tombstone the marker check would have refused the commit
  cases ht : v.tombstone with
  | none => rfl
  | some e =>
    subst hd
    have := h.tombstone e ht
    rw [ht] at ho
    refine absurd ?_ (ho rfl (by simp))
    rw [← this]
    exact (not_not.mp hm).symm

theorem commitHandshake_keeps (h : R.Good v s) {peer : DeviceId} {c : HandshakeCommit}
    (hc : R.FreshCommit peer c)
    (ho : peer = R.device → c.resumed = false → v.tombstone ≠ none →
      c.observedRevocation ≠ v.tombstone) :
    (commitHandshake (B := B) s peer c).keeps (R.Content v) fun r => R.Good v r.2 := by
  unfold commitHandshake
  split
  · exact commitResume_keeps h hc
  · exact commitFresh_keeps h hc fun hd => ho hd (by simpa using ‹¬c.resumed = true›)

/-- A staged grace token is the current token, which is not an old one. -/
theorem stagedGrace_new (h : R.Good v s) (hv : v.tombstone = none → v.repaired = true)
    {c : HandshakeCommit} {g : GraceToken} (hg : s.stagedGrace R.device c = some g) :
    g.token ∉ R.tokens := by
  unfold stagedGrace at hg
  split at hg
  · rename_i hc
    obtain ⟨r, hr, ho⟩ := tokenIsUnchanged_iff.mp hc.2
    rw [ho] at hg
    cases hg
    cases ht : v.tombstone with
    | none => exact h.map r hr (hv ht)
    | some e =>
      have := h.tombstone e ht
      rw [isRevoked_eq, show s.revocationMarker R.device = some e from this] at hc
      simp at hc
  · cases hg

theorem stageGrace_keeps (h : R.Good v s) (hv : v.tombstone = none → v.repaired = true)
    (peer : DeviceId) (c : HandshakeCommit) :
    (stageGrace (B := B) s peer c).keeps (R.Content v) (R.Good v) := by
  unfold stageGrace
  split
  · rename_i g hg
    refine setGrace_keeps h fun hd hold => absurd hold ?_
    subst hd
    exact stagedGrace_new h hv hg
  · exact h

theorem commitHostHandshake_keeps (h : R.Good v s) (hv : v.tombstone = none → v.repaired = true)
    {peer : DeviceId} {c : HandshakeCommit} (hc : R.FreshCommit peer c)
    (ho : peer = R.device → c.resumed = false → v.tombstone ≠ none →
      c.observedRevocation ≠ v.tombstone) (r : ResumedWith) :
    (commitHostHandshake (B := B) s peer c r).keeps (R.Content v) fun r => R.Good v r.2 := by
  unfold commitHostHandshake
  split
  · refine keeps_bind (keeps_mono (commitHandshake_keeps h hc ho) ?_)
    rintro ⟨_ | pairId, s'⟩ hs
    · exact hs
    · exact keeps_bind (keeps_mono (dropGrace_keeps hs peer) fun _ hs => hs)
  · refine keeps_bind (keeps_mono (stageGrace_keeps h hv peer c) fun s' hs => ?_)
    exact commitHandshake_keeps hs hc ho

theorem remember_keeps (h : R.Good v s) {peer : DeviceId} {token : ResumptionToken}
    (ht : peer = R.device → token ∉ R.tokens) (ticket : Option String) :
    (remember (B := B) s peer ticket token).keeps (R.Content v) fun r => R.Good v r.2 := by
  unfold remember
  split
  · exact h
  · exact keeps_mono (rememberToken_keeps h (fun hd _ => ht hd) _ _) fun _ hr => hr.1

theorem setLastHost_keeps (h : R.Good v s) (peer : DeviceId) :
    (setLastHost (B := B) s peer).keeps (R.Content v) fun r => R.Good v r.2 := by
  unfold setLastHost
  split
  · exact h
  · exact ⟨trivial, h.withLast _⟩

theorem dropLastHost_keeps (h : R.Good v s) (drop : Bool) :
    (dropLastHost (B := B) s drop).keeps (R.Content v) fun r => R.Good v r.2 := by
  unfold dropLastHost
  split
  · exact h
  · exact ⟨trivial, h.withLast _⟩

theorem forget_keeps (h : R.Good v s) (peer : DeviceId) :
    (forget (B := B) s peer).keeps (R.Content v) fun r => R.Good v r.2 := by
  unfold forget
  split
  · exact h
  have hm : R.MapOk v (s.map.erase peer) := h.map.erase peer
  have hp : R.PairOk v (s.pairState.erase peer) := h.pairState.erase peer
  have h' := (h.withMap hm).withPair hp
  refine keeps_write (Revoked.content_peers hm) ?_
  refine keeps_write (Revoked.content_pairState hp) ?_
  refine keeps_bind (keeps_mono (dropGrace_keeps h' peer) fun s' hs => ?_)
  exact dropLastHost_keeps hs _

/-- Clearing the store keeps the tombstones. -/
theorem clear_keeps (h : R.Good v s) :
    (clear (B := B) s).keeps (R.Content v) fun r => R.Good v r.2 := by
  unfold clear
  split
  · exact h
  have hm : R.MapOk v ∅ := EntryOk.empty
  have hp : R.PairOk v ∅ := EntryOk.empty
  have h' := (h.withMap hm).withPair hp
  refine ⟨Revoked.content_peers hm, Revoked.content_pairState hp, ?_⟩
  show (ite _ _ _ : StoreM B _).keeps _ _
  split
  · exact dropLastHost_keeps h' _
  · refine keeps_bind (keeps_mono (persistGrace_keeps Revoked.graceOk_empty) ?_)
    exact fun _ _ => dropLastHost_keeps (h'.withGrace Revoked.graceOk_empty) _

theorem loadFrom_keeps :
    (loadFrom (B := B)).keeps (R.Content v) fun r => ∃ s, r = .ok s ∧ R.Good v s := by
  intro peers hm last _ pairs hp revs hr
  obtain ⟨m, hok, ht⟩ := hr
  simp only [Prog.bind, hok]
  intro grace hg
  exact ⟨_, rfl, ht, hm, hp, hg⟩

/-- After its tombstone a revocation only removes things. -/
theorem revoke_startsWith (s : PeerStore) (peer : DeviceId) (e : EventId) (now : Nat) :
    ∃ m : FMap DeviceId RevocationRecord,
    ∃ q : StoreM B (Except IoError RevocationRecord × PeerStore),
      (∀ d, (m.lookup d).map (·.eventId) = if d = peer then some e else s.revocationMarker d) ∧
      StartsWith [(.revocations, Codec.toAllocvec m)] (s.revoke peer e now) q ∧
      ∀ {R : Revoked} {v : View}, R.Good v { s with revocations := m } →
        q.keeps (R.Content v) fun r => R.Good v r.2 := by
  refine ⟨_, _, fun d => ?_, ⟨_, rfl, rfl⟩, fun {R v} h => ?_⟩
  · rw [FMap.lookup_insert_ite]
    split <;> rfl
  have hm : R.MapOk v (s.map.erase peer) := h.map.erase peer
  have hp : R.PairOk v (s.pairState.erase peer) := h.pairState.erase peer
  refine keeps_write (Revoked.content_peers hm) ?_
  refine keeps_write (Revoked.content_pairState hp) ?_
  refine keeps_bind (keeps_mono (dropGrace_keeps ((h.withMap hm).withPair hp) peer) ?_)
  intro s' hs
  show (ite _ _ _ : StoreM B _).keeps _ _
  split
  · exact ⟨trivial, hs.withLast none⟩
  · exact hs

/-- A fresh pair that clears the tombstone of `peer` does so by its third durable write, after those
of the new pair generation and of the new token. -/
theorem commitFresh_startsWith (s : PeerStore) (peer : DeviceId) (c : HandshakeCommit)
    (hr : s.isRevoked peer = true) (ho : c.observedRevocation = s.revocationMarker peer) :
    ∃ s' : PeerStore, StartsWith [(.pairState, Codec.toAllocvec s'.pairState),
        (.peers, Codec.toAllocvec s'.map), (.revocations, Codec.toAllocvec s'.revocations)]
      (commitFresh (B := B) s peer c) (.ret (.ok c.candidatePairId, s')) ∧
      s'.grace = s.grace ∧
      (∃ r, s'.map = s.map.insert peer r ∧ r.token = c.token) ∧
      s'.pairState = s.pairState.insert peer ⟨c.candidatePairId, c.candidateEventKey⟩ := by
  unfold commitFresh
  rw [if_neg (not_not.mpr ho.symm)]
  refine ⟨{ s with map := _, pairState := _, revocations := s.revocations.erase peer },
    ⟨_, rfl, _, rfl, ?_⟩, rfl, ⟨_, rfl, rfl⟩, rfl⟩
  show StartsWith _ (clearTombstone (B := B) { s with map := _, pairState := _ } peer _) _
  unfold clearTombstone
  rw [if_neg (by rw [isRevoked] at hr ⊢; simp [hr])]
  exact ⟨_, rfl, rfl⟩

end Keeps

end PeerStore

/-! ## Operations and the view -/

namespace Op

/-- The id of the tombstone that a revocation of `d` writes. -/
def revokes (d : DeviceId) : Op → Option EventId
  | revoke peer e _ => if peer = d then some e else none
  | _ => none

/-- The tombstone that a fresh pair of `d` has observed. -/
def repairs (d : DeviceId) : Op → Option EventId
  | commitHandshake peer c | commitHostHandshake peer c _ =>
    if peer = d ∧ c.resumed = false then c.observedRevocation else none
  | _ => none

end Op

namespace Event

/-- The operation of an event. -/
def op : Event → Op
  | .call o | .crash o _ _ => o

/-- The event has made the first `n` store calls of its operation. -/
def did (n : Nat) : Event → Bool
  | .call _ => true
  | .crash _ i _ => n ≤ i

/-- The tombstone of `d` after an event, if it was `t` before. A revocation writes it with its first
call, a fresh pair that has observed it clears it with its third. -/
def tombstone (d : DeviceId) (t : Option EventId) (ev : Event) : Option EventId :=
  match ev.op.revokes d with
  | some e => if ev.did 1 then some e else t
  | none => if t.isSome ∧ ev.op.repairs d = t ∧ ev.did 3 then none else t

end Event

/-- The view after an event. -/
def View.step (d : DeviceId) (v : View) (ev : Event) : View :=
  { tombstone := ev.tombstone d v.tombstone
    repaired := v.repaired || v.tombstone.isSome && (ev.tombstone d v.tombstone).isNone }

theorem View.step_of_tombstone {d : DeviceId} {v : View} {ev : Event}
    (h : ev.tombstone d v.tombstone = v.tombstone) : v.step d ev = v := by
  rw [View.step, h]
  obtain ⟨_ | e, r⟩ := v <;> simp

namespace Revoked

variable {B : Type} [Postcard B] {R : Revoked} {v w : View} {s : PeerStore}
  {p : Process B} {dk : Disk RecordName B}

/-- The credentials that an operation brings in are not old ones of the device. -/
def FreshOp (R : Revoked) : Op → Prop
  | .commitHandshake peer c | .commitHostHandshake peer c _ => R.FreshCommit peer c
  | .remember peer _ token => peer = R.device → token ∉ R.tokens
  | _ => True

/-- The view is right about a process: about its store in memory and about every content a crash
can leave. -/
structure Inv (R : Revoked) (v : View) (p : Process B) : Prop where
  mem : ∃ s, p.mem = some s ∧ R.Good v s
  disk : AllBoth (R.Content v) p.disk

theorem inv_boot (h : AllBoth (R.Content v) dk) : R.Inv v (Process.boot dk) := by
  obtain ⟨-, s, hs, hg⟩ := keeps_exec (PeerStore.loadFrom_keeps (R := R) (v := v)) h
  exact ⟨⟨s, by simp [Process.boot, hs, Except.toOption], hg⟩, h⟩

/-- An operation that starts with durable writes, of which the last changes the view from `v` to
`w`, and then keeps `w`. -/
theorem inv_of_startsWith (ws : List (RecordName × B)) {ev : Event}
    {q : StoreM B (Option PeerStore)} (hst : StartsWith ws (p.prog ev.op) q)
    (hd : ∀ x ∈ ws.dropLast, R.Content v x.1 (some x.2))
    (hv : ev.did ws.length = false → AllBoth (R.Content v) p.disk)
    (hw : AllBoth (R.Content w) (written ws p.disk))
    (hq : q.keeps (R.Content w) fun r => ∃ s, r = some s ∧ R.Good w s) :
    R.Inv (if ev.did ws.length then w else v) (p.step ev) := by
  cases ev with
  | call o =>
    obtain ⟨hdisk, hmem⟩ := keeps_exec hq hw
    rw [← hst.exec] at hdisk hmem
    exact ⟨hmem, hdisk⟩
  | crash o i f =>
    replace hst : StartsWith ws (p.prog o) q := hst
    rw [Process.step, hst.after]
    by_cases hi : i < ws.length
    · have hdid : (Event.crash o i f).did ws.length = false := by simpa [Event.did] using hi
      rw [if_pos hi, if_neg (by simp [hdid])]
      refine inv_boot (AllBoth.crash (AllBoth.written (hv hdid) fun x hx => hd x ?_) f)
      rw [List.dropLast_eq_take]
      exact List.take_subset_take_left _ (by omega) hx
    · rw [if_neg hi, if_pos (by simpa [Event.did] using hi)]
      exact inv_boot (AllBoth.crash (keeps_after hq hw _) f)

/-- An operation that keeps the view. -/
theorem inv_of_keeps {ev : Event} (hd : AllBoth (R.Content v) p.disk)
    (hq : (p.prog ev.op).keeps (R.Content v) fun r => ∃ s, r = some s ∧ R.Good v s) :
    R.Inv v (p.step ev) := by
  have h := inv_of_startsWith [] (v := v) rfl (by simp) (fun _ => hd) hd hq
  rwa [ite_self] at h

/-- Only the revocation record knows the tombstone. -/
theorem content_tombstone {n : RecordName} (hn : n ≠ .revocations) (t : Option EventId) :
    R.Content (B := B) { v with tombstone := t } n = R.Content v n := by
  cases n <;> first | exact absurd rfl hn | rfl

/-- A revocation that has written its tombstone. Nothing is assumed of the old tombstone record. -/
theorem inv_revoke {ev : Event} {e : EventId} {now : Nat} (hop : ev.op = .revoke R.device e now)
    (hs : p.mem = some s) (hg : R.Good { v with tombstone := none } s)
    (hd : ∀ n ≠ .revocations, (p.disk n).Both (R.Content v n))
    (hv : ev.did 1 = false → AllBoth (R.Content v) p.disk) :
    R.Inv (if ev.did 1 then { v with tombstone := some e } else v) (p.step ev) := by
  obtain ⟨m, q, hm, hst, hq⟩ := PeerStore.revoke_startsWith (B := B) s R.device e now
  have ht : R.TombstoneOk { v with tombstone := some e } m := by
    intro e' he
    rw [hm, if_pos rfl]
    exact he
  have hst' : StartsWith [(.revocations, Codec.toAllocvec m)] (p.prog ev.op)
      (q >>= fun r => return some r.2) := by
    rw [Process.prog_some hs, hop]
    exact hst.bind _
  refine inv_of_startsWith _ (w := { v with tombstone := some e }) hst' (by simp) hv ?_ ?_
  · intro n
    by_cases hn : n = .revocations
    · subst hn
      exact ⟨⟨m, by simp [written], ht⟩, ⟨m, by simp [written], ht⟩⟩
    · rw [content_tombstone hn, written, List.foldl_cons, List.foldl_nil, Function.update_of_ne hn]
      exact hd n hn
  · refine keeps_bind (keeps_mono (hq ⟨ht, hg.map, hg.pairState, hg.grace⟩) fun r hr => ?_)
    exact ⟨_, rfl, hr⟩

/-- What a fresh pair leaves in memory when it clears the tombstone, by its own view. -/
theorem good_repaired {s' : PeerStore} {c : HandshakeCommit} (hg : R.Good v s)
    (hc : R.FreshCommit R.device c) (hgr : s'.grace = s.grace)
    (hm : ∃ r, s'.map = s.map.insert R.device r ∧ r.token = c.token)
    (hp : s'.pairState = s.pairState.insert R.device ⟨c.candidatePairId, c.candidateEventKey⟩) :
    R.Good ⟨none, true⟩ s' := by
  obtain ⟨r, hm, hr⟩ := hm
  refine ⟨fun e he => (by cases he), ?_, ?_, ?_⟩
  · intro r' h'
    rw [hm, Finmap.lookup_insert] at h'
    cases h'
    exact fun _ => hr ▸ hc.token rfl
  · intro p' h'
    rw [hp, Finmap.lookup_insert] at h'
    cases h'
    exact fun _ => hc.pair rfl
  · rw [hgr]; exact hg.grace

/-- A fresh pair of the device that has observed its tombstone. -/
theorem inv_repair {ev : Event} {e : EventId} (h : R.Inv v p) (hv : v.tombstone = some e)
    (hop : ev.op.repairs R.device = some e) (hc : R.FreshOp ev.op) :
    R.Inv (if ev.did 3 then ⟨none, true⟩ else v) (p.step ev) := by
  obtain ⟨s, hs, hg⟩ := h.mem
  have hmark : s.revocationMarker R.device = some e := hg.tombstone e hv
  have hrev : s.isRevoked R.device = true := by rw [PeerStore.isRevoked_eq, hmark]; rfl
  -- both kinds of commit start with the same three writes
  obtain ⟨s', q, hst, hg', hq⟩ : ∃ s' : PeerStore, ∃ q : StoreM B (Option PeerStore),
      StartsWith [(.pairState, Codec.toAllocvec s'.pairState),
        (.peers, Codec.toAllocvec s'.map), (.revocations, Codec.toAllocvec s'.revocations)]
        (p.prog ev.op) q ∧ R.Good ⟨none, true⟩ s' ∧
      q.keeps (R.Content ⟨none, true⟩) fun r => ∃ s, r = some s ∧ R.Good ⟨none, true⟩ s := by
    rw [Process.prog_some hs]
    generalize ev.op = o at hop hc
    cases o with
    | commitHandshake peer c =>
      simp only [Op.repairs] at hop
      split at hop
      · rename_i hpeer
        obtain ⟨rfl, hres⟩ := hpeer
        obtain ⟨s', hst, hgr, hm, hp⟩ :=
          PeerStore.commitFresh_startsWith (B := B) s R.device c hrev (hop.trans hmark.symm)
        have hg' := good_repaired hg hc hgr hm hp
        refine ⟨s', .ret (some s'), ?_, hg', s', rfl, hg'⟩
        simp only [Op.prog, PeerStore.commitHandshake, hres]
        exact hst.bind _
      · cases hop
    | commitHostHandshake peer c r =>
      simp only [Op.repairs] at hop
      split at hop
      · rename_i hpeer
        obtain ⟨rfl, hres⟩ := hpeer
        obtain ⟨s', hst, hgr, hm, hp⟩ :=
          PeerStore.commitFresh_startsWith (B := B) s R.device c hrev (hop.trans hmark.symm)
        have hg' := good_repaired hg hc hgr hm hp
        refine ⟨s', do return some (← (do return (Except.ok (ε := IoError) c.candidatePairId,
          ← s'.dropGrace R.device))).2, ?_, hg', ?_⟩
        · simp only [Op.prog, PeerStore.commitHostHandshake, PeerStore.commitHandshake, hres]
          exact (hst.bind _).bind _
        · refine keeps_bind (keeps_bind (keeps_mono (PeerStore.dropGrace_keeps hg' _) ?_))
          exact fun s hs => ⟨s, rfl, hs⟩
      · cases hop
    | _ => cases hop
  have hpair : R.PairOk v s'.pairState := fun x hx _ => hg'.pairState x hx rfl
  have hmap : R.MapOk v s'.map := fun x hx _ => hg'.map x hx rfl
  refine inv_of_startsWith _ hst ?_ (fun _ => h.disk) ?_ hq
  · simpa using ⟨content_pairState hpair, content_peers hmap⟩
  · intro n
    have hgrace := h.disk .grace
    cases n with
    | pairState => exact ⟨content_pairState hg'.pairState, content_pairState hg'.pairState⟩
    | peers => exact ⟨content_peers hg'.map, content_peers hg'.map⟩
    | revocations => exact ⟨content_revocations hg'.tombstone, content_revocations hg'.tombstone⟩
    | grace => exact hgrace
    | identity | lastHost => exact ⟨trivial, trivial⟩

/-- Every other operation keeps the view. -/
theorem inv_other {ev : Event} (h : R.Inv v p) (hv : v.tombstone = none → v.repaired = true)
    (hc : R.FreshOp ev.op) (hrev : ev.op.revokes R.device = none)
    (hrep : v.tombstone ≠ none → ev.op.repairs R.device ≠ v.tombstone) : R.Inv v (p.step ev) := by
  obtain ⟨s, hs, hg⟩ := h.mem
  refine inv_of_keeps h.disk ?_
  rw [Process.prog_some hs]
  generalize ev.op = o at hrev hrep hc
  have done {α : Type} {q : StoreM B (α × PeerStore)}
      (hq : q.keeps (R.Content v) fun r => R.Good v r.2) :
      (q >>= fun r => return some r.2).keeps (R.Content v) fun r =>
        ∃ s, r = some s ∧ R.Good v s :=
    keeps_bind (keeps_mono hq fun r hr => ⟨_, rfl, hr⟩)
  cases o with
  | commitHandshake peer c =>
    refine done (PeerStore.commitHandshake_keeps hg hc fun hd hr ht => ?_)
    have := hrep ht
    rwa [Op.repairs, if_pos ⟨hd, hr⟩] at this
  | commitHostHandshake peer c r =>
    refine done (PeerStore.commitHostHandshake_keeps hg hv hc (fun hd hr ht => ?_) r)
    have := hrep ht
    rwa [Op.repairs, if_pos ⟨hd, hr⟩] at this
  | revoke peer e now =>
    have hpeer : peer ≠ R.device := by rintro rfl; simp [Op.revokes] at hrev
    obtain ⟨m, q, hm, hst, hq⟩ := PeerStore.revoke_startsWith (B := B) s peer e now
    have ht : R.TombstoneOk v m := by
      intro e' he
      rw [hm, if_neg hpeer.symm]
      exact hg.tombstone e' he
    obtain ⟨k, hk, hq'⟩ := hst
    rw [Op.prog, hk]
    have := hq (hg.withRevocations ht)
    rw [← show k (.ok ()) = q from hq'] at this
    exact ⟨content_revocations ht, done this⟩
  | forget peer => exact done (PeerStore.forget_keeps hg peer)
  | clear => exact done (PeerStore.clear_keeps hg)
  | remember peer ticket token => exact done (PeerStore.remember_keeps hg hc ticket)
  | setLastHost peer => exact done (PeerStore.setLastHost_keeps hg peer)
  | loadFrom =>
    refine keeps_bind (keeps_mono PeerStore.loadFrom_keeps ?_)
    rintro r ⟨s', rfl, hs'⟩
    exact ⟨s', rfl, hs'⟩

theorem inv_step {ev : Event} (h : R.Inv v p) (hv : v.tombstone = none → v.repaired = true)
    (hc : R.FreshOp ev.op) : R.Inv (v.step R.device ev) (p.step ev) := by
  cases hrev : ev.op.revokes R.device with
  | some e =>
    have hop : ∃ now, ev.op = .revoke R.device e now := by
      generalize ev.op = o at hrev
      cases o with
      | revoke peer e' now =>
        simp only [Op.revokes] at hrev
        split at hrev
        · subst_vars; cases hrev; exact ⟨now, rfl⟩
        · cases hrev
      | _ => cases hrev
    obtain ⟨now, hop⟩ := hop
    obtain ⟨s, hs, hg⟩ := h.mem
    have hg' : R.Good { v with tombstone := none } s :=
      ⟨fun e he => (by cases he), hg.map, hg.pairState, hg.grace⟩
    have hinv := inv_revoke hop hs hg' (fun n _ => h.disk n) fun _ => h.disk
    convert hinv using 1
    split
    · rename_i hdid; simp [View.step, Event.tombstone, hrev, hdid]
    · rename_i hdid; exact View.step_of_tombstone (by simp [Event.tombstone, hrev, hdid])
  | none =>
    by_cases hrep : v.tombstone.isSome ∧ ev.op.repairs R.device = v.tombstone
    · obtain ⟨e, he⟩ := Option.isSome_iff_exists.mp hrep.1
      have hinv := inv_repair h he (hrep.2.trans he) hc
      convert hinv using 1
      split
      · rename_i hdid; simp [View.step, Event.tombstone, hrev, hrep, hdid]
      · rename_i hdid; exact View.step_of_tombstone (by simp [Event.tombstone, hrev, hdid])
    · have hinv := inv_other h hv hc hrev fun ht heq =>
        hrep ⟨Option.isSome_iff_ne_none.mpr ht, heq⟩
      convert hinv using 1
      refine View.step_of_tombstone ?_
      simp only [Event.tombstone, hrev]
      rw [if_neg fun hh => hrep ⟨hh.1, hh.2.1⟩]

/-- The tombstone of a view that was stepped is gone only if the device has paired again. -/
theorem step_repaired {ev : Event} {d : DeviceId} (hv : v.tombstone = none → v.repaired = true)
    (ht : (v.step d ev).tombstone = none) : (v.step d ev).repaired = true := by
  rw [View.step] at ht ⊢
  cases hvt : v.tombstone with
  | none => simp [hv hvt]
  | some e => rw [hvt] at ht; simp [show ev.tombstone d (some e) = none from ht]

theorem inv_run {evs : List Event} (h : R.Inv v p) (hv : v.tombstone = none → v.repaired = true)
    (hc : ∀ ev ∈ evs, R.FreshOp ev.op) :
    R.Inv (evs.foldl (View.step R.device) v) (p.run evs) ∧
      ((evs.foldl (View.step R.device) v).tombstone = none →
        (evs.foldl (View.step R.device) v).repaired = true) := by
  induction evs generalizing v p with
  | nil => exact ⟨h, hv⟩
  | cons ev evs ih =>
    exact ih (inv_step h hv (hc ev List.mem_cons_self)) (step_repaired hv) fun ev' h' =>
      hc ev' (List.mem_cons_of_mem _ h')

theorem foldl_step_tombstone (d : DeviceId) (v : View) (evs : List Event) :
    (evs.foldl (View.step d) v).tombstone = evs.foldl (Event.tombstone d) v.tombstone := by
  induction evs generalizing v with
  | nil => rfl
  | cons ev evs ih => exact ih _

end Revoked

/-! ## The results -/

/-- `d` is in none of the lists of the store. -/
structure PeerStore.Absent (s : PeerStore) (d : DeviceId) : Prop where
  token : s.token d = none
  tokens : s.tokens.lookup d = none
  graceTokens : s.graceTokens.lookup d = none
  knownDevices : d ∉ s.knownDevices
  records : s.records.lookup d = none
  knownHosts : ∀ h ∈ s.knownHosts, h.1 ≠ d
  lastHost : ∀ iter h, s.lastHost iter = some h → h.1 ≠ d

/-- A host that can be dialed is in the list of records. -/
theorem PeerStore.dialable_fst {s : PeerStore} {d : DeviceId}
    {h : DeviceId × String × ResumptionToken} (hd : s.dialable d = some h) :
    h.1 = d ∧ s.records.lookup d ≠ none := by
  obtain ⟨r, hr, ht⟩ := Option.bind_eq_some_iff.mp hd
  obtain ⟨t, -, rfl⟩ := Option.map_eq_some_iff.mp ht
  exact ⟨rfl, by rw [hr]; simp⟩

/-- A device with a tombstone is loaded without its credentials. -/
theorem PeerStore.absent_of_isRevoked {s : PeerStore} {d : DeviceId} (h : s.isRevoked d = true) :
    s.Absent d := by
  have hrec : s.records.lookup d = none := by rw [lookup_records, if_pos h]
  have htok : s.token d = none := by rw [token, if_pos h]
  have hdial : ∀ d' x, s.dialable d' = some x → x.1 ≠ d := by
    intro d' x hx hxd
    obtain ⟨rfl, hne⟩ := dialable_fst hx
    exact hne (hxd ▸ hrec)
  refine ⟨htok, (lookup_tokens s d).trans htok, ?_, ?_, hrec, ?_, ?_⟩
  · rw [Option.eq_none_iff_forall_ne_some]
    intro t ht
    obtain ⟨g, -, hr, -⟩ := lookup_graceTokens.mp ht
    rw [h] at hr
    cases hr
  · rw [knownDevices, Finmap.mem_keys, ← Finmap.lookup_isSome, hrec]
    simp
  · intro x hx
    obtain ⟨d', -, hd'⟩ := List.mem_filterMap.mp hx
    exact hdial d' x hd'
  · intro iter x hx
    rw [lastHost] at hx
    split at hx
    · rename_i y hy
      cases hx
      obtain ⟨d', -, hd'⟩ := Option.bind_eq_some_iff.mp hy
      exact hdial d' x hd'
    · obtain ⟨d', -, hd'⟩ := List.exists_of_findSome?_eq_some hx
      exact hdial d' x hd'

namespace Revoked

variable {R : Revoked} {v : View} {s : PeerStore}

theorem Good.absent (h : R.Good v s) (hv : v.tombstone ≠ none) : s.Absent R.device := by
  obtain ⟨e, he⟩ := Option.ne_none_iff_exists'.mp hv
  apply PeerStore.absent_of_isRevoked
  rw [PeerStore.isRevoked_eq, show s.revocationMarker R.device = some e from h.tombstone e he]
  rfl

/-- After the device has paired again, its current token is new and an old grace token is bound to
another pair id. -/
theorem Good.accepts_new (h : R.Good v s) (hv : v.tombstone = none → v.repaired = true)
    {t : ResumptionToken} (ht : s.Accepts R.device t) : t ∉ R.tokens := by
  by_cases hvt : v.tombstone = none
  · have cur : s.token R.device = some t → t ∉ R.tokens := by
      intro h'
      rw [PeerStore.token] at h'
      split at h'
      · cases h'
      · obtain ⟨r, hr, rfl⟩ := Option.map_eq_some_iff.mp h'
        exact h.map r hr (hv hvt)
    rcases ht with h' | h' | h'
    · exact cur h'
    · exact cur (PeerStore.lookup_tokens s _ ▸ h')
    · obtain ⟨g, hg, -, -, hp, rfl⟩ := PeerStore.lookup_graceTokens.mp h'
      intro hold
      obtain ⟨x, hx, hxp⟩ := Option.map_eq_some_iff.mp hp
      exact h.pairState x hx (hv hvt) (hxp ▸ h.grace g hg hold)
  · have := h.absent hvt
    rcases ht with h' | h' | h'
    · rw [this.token] at h'; cases h'
    · rw [this.tokens] at h'; cases h'
    · rw [this.graceTokens] at h'; cases h'

end Revoked

/-- What a device had before an event of a run: the tokens that some state of the run accepted for
it, and the pair ids of its grace tokens, in memory and in either content of the grace record. -/
def Process.formerly {B : Type} [Postcard B] (p : Process B) (before : List Event) (d : DeviceId) :
    Revoked where
  device := d
  tokens := { t | ∃ evs, evs <+: before ∧ ∃ s, (p.run evs).mem = some s ∧ s.Accepts d t }
  pairs := { x | ∃ g : GraceToken, g.pairId = x ∧
    ((∃ s, (p.run before).mem = some s ∧ s.grace.lookup d = some g) ∨
      (PeerStore.mapOf ((p.run before).disk .grace).current).lookup d = some g ∨
      (PeerStore.mapOf ((p.run before).disk .grace).durable).lookup d = some g) }

/-- The view right after the tombstone. -/
theorem Process.inv_tombstone {B : Type} [Postcard B] {p : Process B} {before : List Event}
    {ev : Event} {e : EventId} {now : Nat} {R : Revoked} (hop : ev.op = .revoke R.device e now)
    (hdid : ev.did 1 = true) (halive : (p.run before).mem.isSome = true)
    (hR : R.tokens = ∅ ∨ (p.formerly before R.device).pairs ⊆ R.pairs) :
    R.Inv ⟨some e, false⟩ ((p.run before).step ev) := by
  obtain ⟨s, hs⟩ := Option.isSome_iff_exists.mp halive
  have old : ∀ g : GraceToken, g.pairId ∈ (p.formerly before R.device).pairs →
      g.token ∈ R.tokens → g.pairId ∈ R.pairs := by
    intro g hg ht
    rcases hR with h | h
    · rw [h] at ht; exact ht.elim
    · exact h hg
  have hg : R.Good ⟨none, false⟩ s :=
    ⟨fun _ he => (by cases he), fun _ _ hr => (by cases hr), fun _ _ hr => (by cases hr),
      fun g hg => old g ⟨g, rfl, .inl ⟨s, hs, hg⟩⟩⟩
  have hd : ∀ n ≠ RecordName.revocations,
      ((p.run before).disk n).Both (R.Content ⟨none, false⟩ n) := by
    intro n hn
    cases n with
    | revocations => exact absurd rfl hn
    | grace =>
      exact ⟨fun g hg => old g ⟨g, rfl, .inr (.inl hg)⟩, fun g hg => old g ⟨g, rfl, .inr (.inr hg)⟩⟩
    | peers | pairState => exact ⟨fun _ _ hr => (by cases hr), fun _ _ hr => (by cases hr)⟩
    | identity | lastHost => exact ⟨trivial, trivial⟩
  have hinv := Revoked.inv_revoke hop hs hg hd fun h => by rw [hdid] at h; cases h
  rwa [if_pos hdid] at hinv

/-- A revocation of `d` that has written its tombstone, at any point of any run with crashes. While
the tombstone, or one that replaced it, is not cleared by a fresh pair that has observed it, `d` is
in no list of the store. If the credentials that later operations bring in for `d` are new, no
token that was accepted for `d` before the revocation is accepted again. -/
theorem revocation_survives_crashes {B : Type} [Postcard B] (p : Process B)
    (before later : List Event) (ev : Event) (d : DeviceId) (e : EventId) (now : Nat)
    (hop : ev.op = .revoke d e now) (hdid : ev.did 1 = true)
    (halive : (p.run before).mem.isSome = true) (s : PeerStore)
    (hs : (p.run (before ++ ev :: later)).mem = some s) :
    (later.foldl (Event.tombstone d) (some e) ≠ none → s.Absent d) ∧
    ((∀ ev' ∈ later, (p.formerly before d).FreshOp ev'.op) →
      ∀ t, s.Accepts d t → t ∉ (p.formerly before d).tokens) := by
  rw [Process.run_append, Process.run_cons] at hs
  constructor
  · intro htomb
    -- no token is old here, so every operation is fresh
    have fresh : ∀ o, (⟨d, ∅, ∅⟩ : Revoked).FreshOp o := by
      intro o
      cases o <;> first | exact ⟨fun _ => id, fun _ => id⟩ | exact fun _ => id | exact trivial
    have h₀ := Process.inv_tombstone (R := ⟨d, ∅, ∅⟩) hop hdid halive (.inl rfl)
    obtain ⟨⟨s', hs', hg⟩, -⟩ := (Revoked.inv_run h₀ nofun fun ev' (_ : ev' ∈ later) => fresh _).1
    rw [hs] at hs'
    cases hs'
    refine hg.absent ?_
    rw [Revoked.foldl_step_tombstone]
    exact htomb
  · intro hfresh t ht
    have h₀ := Process.inv_tombstone (R := p.formerly before d) hop hdid halive (.inr subset_rfl)
    obtain ⟨⟨⟨s', hs', hg⟩, -⟩, hv⟩ := Revoked.inv_run h₀ nofun hfresh
    rw [hs] at hs'
    cases hs'
    exact hg.accepts_new hv ht

/-- The device 1 with the token 1 is revoked and the process dies after the tombstone; then the
device pairs again, with the token 2. -/
theorem revocation_survives_crashes_repair :
    (∀ s, ((Blob.paired ⟨1⟩ 1 1).run [.crash (.revoke ⟨1⟩ 7 0) 1 fun _ => .reverted]).mem = some s →
      s.Absent ⟨1⟩) ∧
    ∀ s, ((Blob.paired ⟨1⟩ 1 1).run [.crash (.revoke ⟨1⟩ 7 0) 1 fun _ => .reverted,
        .call (.commitHostHandshake ⟨1⟩ (Blob.freshPair 2 2 (some 7)) .currentToken)]).mem =
          some s →
      ∀ t, s.Accepts ⟨1⟩ t → t ∉ ((Blob.paired ⟨1⟩ 1 1).formerly [] ⟨1⟩).tokens := by
  constructor
  · intro s hs
    exact (revocation_survives_crashes (Blob.paired ⟨1⟩ 1 1) [] [] _ _ _ _ rfl rfl (by decide) s
      hs).1 (by decide)
  · intro s hs
    refine (revocation_survives_crashes (Blob.paired ⟨1⟩ 1 1) [] [_] _ _ _ _ rfl rfl (by decide) s
      hs).2 ?_
    intro ev hev
    rw [List.mem_singleton] at hev
    subst hev
    constructor
    · rintro - ⟨evs, hevs, s', hs', hacc⟩
      rw [List.prefix_nil] at hevs
      subst hevs
      rw [Option.eq_some_of_isSome (o := ((Blob.paired ⟨1⟩ 1 1).run []).mem) (by decide)] at hs'
      cases hs'
      revert hacc
      decide
    · -- there is no grace token yet
      rintro - ⟨g, -, ⟨s', hs', hg⟩ | hg | hg⟩
      · rw [Option.eq_some_of_isSome (o := ((Blob.paired ⟨1⟩ 1 1).run []).mem) (by decide)] at hs'
        cases hs'
        revert hg
        exact ne_of_eq_of_ne (by decide : _ = none) nofun
      · exact absurd hg (ne_of_eq_of_ne (by decide : _ = none) nofun)
      · exact absurd hg (ne_of_eq_of_ne (by decide : _ = none) nofun)

/-- Without new credentials the last part fails: the device pairs again with the token it had. -/
theorem old_token_accepted_again :
    ¬ ∀ (p : Process Blob) (before later : List Event) (ev : Event) (d : DeviceId) (e : EventId)
      (now : Nat), ev.op = .revoke d e now → ev.did 1 = true →
      (p.run before).mem.isSome = true → ∀ s, (p.run (before ++ ev :: later)).mem = some s →
      ∀ t, s.Accepts d t → t ∉ (p.formerly before d).tokens := by
  intro h
  refine h (Blob.paired ⟨1⟩ 1 1) []
    [.call (.commitHostHandshake ⟨1⟩ (Blob.freshPair 1 2 (some 7)) .currentToken)]
    (.call (.revoke ⟨1⟩ 7 0)) ⟨1⟩ 7 0 rfl rfl (by decide) _ (Option.eq_some_of_isSome (by decide)) ⟨1⟩
    (.inl (by decide))
    ⟨[], List.prefix_rfl, _, Option.eq_some_of_isSome (by decide), .inl (by decide)⟩

end Portty
