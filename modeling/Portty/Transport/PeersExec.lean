import Portty.Transport.PeersRun

/-!
# Running the operations

What the calls of the store's operations do, for any outcomes.

* **`Loaded s d`**: the records `d` decode to the store `s`. `Loaded.write_peers` and its siblings
  say what a write leaves, with any outcome.
* **`rememberToken_exec`, `setGrace_exec`**: the steps of a commit as equations.
-/

namespace Portty

open Records

namespace PeerStore

/-- The store with the new token and generation of a commit, each if the flag says so, and the
peer's tombstone, if the flag does not say that it is gone. -/
def leave (s : PeerStore) (peer : DeviceId) (c : HandshakeCommit)
    (token generation cleared : Bool) :
    PeerStore where
  map := if token then
      s.map.insert peer ⟨c.ticket <|> (s.map.lookup peer).bind (·.ticket), c.token⟩
    else s.map
  pairState := if generation then
      s.pairState.insert peer ⟨c.candidatePairId, c.candidateEventKey⟩
    else s.pairState
  revocations := if cleared then s.revocations.erase peer else s.revocations
  grace := s.grace
  lastConnected := s.lastConnected

section Leave

variable {s : PeerStore} {peer : DeviceId} {c : HandshakeCommit} {token generation cleared : Bool}

theorem lookup_map_leave : (s.leave peer c token generation cleared).map.lookup peer =
    if token then some ⟨c.ticket <|> (s.map.lookup peer).bind (·.ticket), c.token⟩
    else s.map.lookup peer := by
  cases token <;> simp [leave]

theorem lookup_pairState_leave : (s.leave peer c token generation cleared).pairState.lookup peer =
    if generation then some ⟨c.candidatePairId, c.candidateEventKey⟩
    else s.pairState.lookup peer := by
  cases generation <;> simp [leave]

/-- The entries of the other peers are as before. -/
theorem lookup_leave_of_ne (s : PeerStore) (c : HandshakeCommit) (token generation cleared : Bool)
    {x : DeviceId} (hx : x ≠ peer) :
    (s.leave peer c token generation cleared).map.lookup x = s.map.lookup x ∧
    (s.leave peer c token generation cleared).pairState.lookup x = s.pairState.lookup x ∧
    (s.leave peer c token generation cleared).revocations.lookup x = s.revocations.lookup x := by
  cases token <;> cases generation <;> cases cleared <;> simp [leave, hx]

end Leave

variable {B : Type} [Postcard B]

/-- The records decode to the store, up to the last host. -/
structure Loaded (s : PeerStore) (d : Disk RecordName B) : Prop where
  map : mapOf (d .peers).current = s.map
  pairState : mapOf (d .pairState).current = s.pairState
  revocations : revocationsOf (d .revocations).current = .ok s.revocations
  grace : mapOf (d .grace).current = s.grace

theorem loadFrom_exec (d : Disk RecordName B) :
    ((loadFrom (B := B)).exec [] d).1 = (revocationsOf (d .revocations).current).map fun r =>
      { map := mapOf (d .peers).current, pairState := mapOf (d .pairState).current,
        revocations := r, grace := mapOf (d .grace).current,
        lastConnected := (d .lastHost).current.bind Codec.fromBytes } := by
  cases h : revocationsOf (d .revocations).current <;>
    simp [loadFrom, StoreM.andThen, StoreM.read, Prog.exec, Outcome.replyRead, h, Except.map]

theorem loaded_of_loadFrom {s : PeerStore} {d : Disk RecordName B}
    (h : ((loadFrom (B := B)).exec [] d).1 = .ok s) : s.Loaded d := by
  rw [loadFrom_exec] at h
  cases hr : revocationsOf (d .revocations).current with
  | error e => rw [hr] at h; cases h
  | ok r => rw [hr] at h; cases h; exact ⟨rfl, rfl, hr, rfl⟩

theorem loadFrom_of_loaded {s : PeerStore} {d : Disk RecordName B} (h : s.Loaded d) :
    ∃ last, ((loadFrom (B := B)).exec [] d).1 = .ok { s with lastConnected := last } := by
  rw [loadFrom_exec, h.map, h.pairState, h.grace, h.revocations]
  exact ⟨_, rfl⟩

theorem getD_drop (os : List (Outcome IoError)) (i j : Nat) :
    (os.drop i).getD j .ok = os.getD (i + j) .ok := by
  simp [List.getD_eq_getElem?_getD]

/-! ## The calls -/

section Calls

variable (os : List (Outcome IoError)) (d : Disk RecordName B)


omit [Postcard B] in
theorem write_exec (n : RecordName) (b : B) (dur : Durability) :
    (StoreM.write n b dur).exec os d = ((os.getD 0 .ok).reply,
      Function.update d n ((d n).write b dur.sync (os.getD 0 .ok)), os.drop 1) := by
  cases os <;> rfl

omit [Postcard B] in
theorem read_exec (n : RecordName) :
    (StoreM.read n).exec os d = ((os.getD 0 .ok).replyRead (d n).current, d, os.drop 1) := by
  cases os <;> rfl

theorem restoreToken_insert (s : PeerStore) (peer : DeviceId) (r : PeerRecord) :
    restoreToken { s with map := s.map.insert peer r } peer (s.map.lookup peer) = s := by
  have h := FMap.erase_insert_lookup s.map peer r
  cases hl : s.map.lookup peer <;> rw [hl] at h <;> exact congrArg ({ s with map := · }) h

/-- A failed token write leaves the store in memory as it was. -/
theorem rememberToken_exec (s : PeerStore) (peer : DeviceId) (ticket : Option String)
    (token : ResumptionToken) (dur : Durability) :
    let m := s.map.insert peer ⟨ticket <|> (s.map.lookup peer).bind (·.ticket), token⟩
    (rememberToken s peer ticket token dur).exec os d =
      (((os.getD 0 .ok).reply, if (os.getD 0 .ok).failed then s else { s with map := m }),
        Function.update d .peers ((d .peers).write (Codec.toAllocvec m) dur.sync (os.getD 0 .ok)),
        os.drop 1) := by
  intro m
  rw [rememberToken, Prog.exec_bind, persist, write_exec]
  cases os.getD 0 .ok with
  | ok => rfl
  | failedOld e | failedNew e =>
    exact Prod.ext (Prod.ext rfl (restoreToken_insert s peer _)) rfl

theorem restorePairState_insert (s : PeerStore) (peer : DeviceId) (x : PairState) :
    restorePairState { s with pairState := s.pairState.insert peer x } peer
      (s.pairState.lookup peer) = s := by
  have h : (restorePairState { s with pairState := s.pairState.insert peer x } peer
      (s.pairState.lookup peer)).pairState = s.pairState := by
    cases hy : s.pairState.lookup peer with
    | none =>
      exact FMap.ext_at peer (by simp [restorePairState, hy])
        fun y hne => by simp [restorePairState, hne]
    | some old =>
      exact FMap.ext_at peer (by simp [restorePairState, hy])
        fun y hne => by simp [restorePairState, hne]
  exact congrArg (fun m => { s with pairState := m }) h

theorem setGrace_exec (s : PeerStore) (peer : DeviceId) (g : GraceToken) :
    (setGrace s peer g).exec os d = ({ s with grace := s.grace.insert peer g },
      Function.update d .grace ((d .grace).write (Codec.toAllocvec (s.grace.insert peer g)) false
        (os.getD 0 .ok)), os.drop 1) := by
  have hne : s.grace.insert peer g ≠ ∅ := by
    intro he
    have := Finmap.lookup_insert (a := peer) (b := g) s.grace
    rw [he, Finmap.lookup_empty] at this
    cases this
  rw [setGrace, Prog.exec_bind, persistGrace, if_neg hne, write_exec]
  rfl

end Calls

section Loaded

variable {s : PeerStore} {d : Disk RecordName B}

theorem Loaded.write_peers (h : Loaded s d) (m : FMap DeviceId PeerRecord) (sync : Bool)
    (o : Outcome IoError) : Loaded { s with map := if o.failed && !o.leftNew then s.map else m }
      (Function.update d .peers ((d .peers).write (Codec.toAllocvec m) sync o)) := by
  refine ⟨?_, h.pairState, h.revocations, h.grace⟩
  rw [Function.update_self, Slot.current_write]
  split
  · exact h.map
  · exact mapOf_toAllocvec m

theorem Loaded.write_pairState (h : Loaded s d) (m : FMap DeviceId PairState) (sync : Bool)
    (o : Outcome IoError) :
    Loaded { s with pairState := if o.failed && !o.leftNew then s.pairState else m }
      (Function.update d .pairState ((d .pairState).write (Codec.toAllocvec m) sync o)) := by
  refine ⟨h.map, ?_, h.revocations, h.grace⟩
  rw [Function.update_self, Slot.current_write]
  split
  · exact h.pairState
  · exact mapOf_toAllocvec m

theorem Loaded.write_revocations (h : Loaded s d) (m : FMap DeviceId RevocationRecord)
    (sync : Bool) (o : Outcome IoError) :
    Loaded { s with revocations := if o.failed && !o.leftNew then s.revocations else m }
      (Function.update d .revocations ((d .revocations).write (Codec.toAllocvec m) sync o)) := by
  refine ⟨h.map, h.pairState, ?_, h.grace⟩
  rw [Function.update_self, Slot.current_write]
  split
  · exact h.revocations
  · exact revocationsOf_toAllocvec m

theorem Loaded.write_grace (h : Loaded s d) (m : FMap DeviceId GraceToken) (sync : Bool)
    (o : Outcome IoError) : Loaded { s with grace := if o.failed && !o.leftNew then s.grace else m }
      (Function.update d .grace ((d .grace).write (Codec.toAllocvec m) sync o)) := by
  refine ⟨h.map, h.pairState, h.revocations, ?_⟩
  rw [Function.update_self, Slot.current_write]
  split
  · exact h.grace
  · exact mapOf_toAllocvec m

end Loaded

end PeerStore

end Portty
