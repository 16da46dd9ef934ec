import Portty.Transport.Peers

/-!
# Runs of the peer store

One process holds a `PeerStore` over the records of a credential store. It calls the store's
operations (`Op`), each under one lock, so an operation's calls are not interleaved with those of
another. All calls succeed here, but the process can die between any two of them (`Event.crash`);
it then starts again and loads the store from what the crash left.

A `Process` has no store in memory if the load fails (the revocation record does not decode); it
then does nothing until a later load succeeds.
-/

namespace Portty

open Records

/-- The operations of `PeerStore` that call the credential store. -/
inductive Op where
  | commitHandshake (peer : DeviceId) (commit : HandshakeCommit)
  | commitHostHandshake (peer : DeviceId) (commit : HandshakeCommit) (resumedWith : ResumedWith)
  | revoke (peer : DeviceId) (eventId : EventId) (now : Nat)
  | forget (peer : DeviceId)
  | clear
  | remember (peer : DeviceId) (ticket : Option String) (token : ResumptionToken)
  | setLastHost (peer : DeviceId)
  | loadFrom
  deriving DecidableEq

namespace Op

variable {B : Type} [Postcard B]

/-- An operation as a program that returns the store in memory after it. A load that fails leaves
the old store there. -/
def prog (s : PeerStore) : Op → StoreM B (Option PeerStore)
  | commitHandshake peer c => do return some (← s.commitHandshake peer c).2
  | commitHostHandshake peer c r => do return some (← s.commitHostHandshake peer c r).2
  | revoke peer e now => do return some (← s.revoke peer e now).2
  | forget peer => do return some (← s.forget peer).2
  | clear => do return some (← s.clear).2
  | remember peer ticket token => do return some (← s.remember peer ticket token).2
  | setLastHost peer => do return some (← s.setLastHost peer).2
  | loadFrom => do return (← PeerStore.loadFrom).toOption <|> some s

end Op

/-- A process with its records. -/
structure Process (B : Type) where
  mem : Option PeerStore
  disk : Disk RecordName B

/-- An operation runs to its end, or the process dies before the operation's call number `i`
(counted from 0), the records suffer the crash, and a new process loads them. -/
inductive Event where
  | call (o : Op)
  | crash (o : Op) (i : Nat) (fates : RecordName → Fate)

namespace Process

variable {B : Type} [Postcard B]

/-- Load the store from the records. -/
def boot (d : Disk RecordName B) : Process B :=
  { mem := ((PeerStore.loadFrom (B := B)).exec [] d).1.toOption, disk := d }

/-- The operation as a program of this process. Without a store in memory only a load can run. -/
def prog (p : Process B) (o : Op) : StoreM B (Option PeerStore) :=
  match p.mem, o with
  | some s, o => o.prog s
  | none, .loadFrom => do return (← PeerStore.loadFrom).toOption
  | none, _ => return none

theorem prog_some {p : Process B} {s : PeerStore} (h : p.mem = some s) (o : Op) :
    p.prog o = o.prog s := by
  unfold prog
  rw [h]

/-- One event. -/
def step (p : Process B) : Event → Process B
  | .call o => { mem := ((p.prog o).exec [] p.disk).1, disk := ((p.prog o).exec [] p.disk).2.1 }
  | .crash o i fates => boot (crash fates ((p.prog o).after i [] p.disk))

/-- A run of a process. -/
def run (p : Process B) (evs : List Event) : Process B := evs.foldl step p

theorem run_append (p : Process B) (evs evs' : List Event) :
    p.run (evs ++ evs') = (p.run evs).run evs' := List.foldl_append

@[simp] theorem run_nil (p : Process B) : p.run [] = p := rfl

@[simp] theorem run_cons (p : Process B) (e : Event) (evs : List Event) :
    p.run (e :: evs) = (p.step e).run evs := rfl

end Process

/-- The store in memory, or an empty one. -/
def Process.store {B : Type} (p : Process B) : PeerStore := p.mem.getD ⟨∅, ∅, ∅, ∅, none⟩

/-! ## Records as tagged values -/

/-- A record's content as the value it encodes, for runs on given inputs. -/
inductive Blob where
  | peers (m : FMap DeviceId PeerRecord)
  | lastHost (d : DeviceId)
  | pairState (m : FMap DeviceId PairState)
  | revocations (m : FMap DeviceId RevocationRecord)
  | grace (m : FMap DeviceId GraceToken)
  | corrupt
  deriving DecidableEq

instance : Postcard Blob where
  peers := ⟨.peers, fun | .peers m => some m | _ => none, fun _ => rfl⟩
  lastHost := ⟨.lastHost, fun | .lastHost d => some d | _ => none, fun _ => rfl⟩
  pairState := ⟨.pairState, fun | .pairState m => some m | _ => none, fun _ => rfl⟩
  revocations := ⟨.revocations, fun | .revocations m => some m | _ => none, fun _ => rfl⟩
  grace := ⟨.grace, fun | .grace m => some m | _ => none, fun _ => rfl⟩

namespace Blob

/-- No record has been written. -/
def empty : Disk RecordName Blob := fun _ => ⟨none, none⟩

/-- The commit of a fresh pair with small numbers for its secrets. -/
def freshPair (token pairId : Nat) (observed : Option EventId) : HandshakeCommit where
  ticket := none
  token := ⟨token⟩
  resumed := false
  candidatePairId := ⟨pairId⟩
  candidateEventKey := ⟨pairId⟩
  observedRevocation := observed
  observedToken := none

/-- A new process that has paired one device. -/
def paired (d : DeviceId) (token pairId : Nat) : Process Blob :=
  (Process.boot empty).run
    [.call (.commitHostHandshake d (freshPair token pairId none) .currentToken)]

end Blob

end Portty
