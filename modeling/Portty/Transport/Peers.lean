import Mathlib.Data.Finset.Sort
import Portty.Lib.Map
import Portty.Transport.CredentialStore

/-!
# The peer store (`peers.rs`)

`PeerStore` holds a device's reconnect credentials: for each peer its current token (`map`), the
metadata of the pairing generation (`pairState`), the tombstone of a revocation (`revocations`)
and, on the host, the token of one rotation ago (`grace`). Each of these maps is one record of the
credential store, written whole after every change.

The operations are the source's, with the in-memory store passed explicitly: an operation is a
program over the records (`StoreM`) that returns its result and the store after it. The random
event id and the time of `revoke` are arguments.

`HashMap` is `FMap`. A `Vec` in the iteration order of a `HashMap` is given as a map or a set of
keys; where the order decides the result (`lastHost`), it is an argument.
-/

namespace Portty

open Records

/-- Metadata of one active pairing generation. -/
structure PairState where
  pairId : PairId
  eventKey : PairEventKey
  deriving DecidableEq, Repr

/-- The token a peer authenticated its last resume with, bound to its pair generation. -/
structure GraceToken where
  pairId : PairId
  token : ResumptionToken
  deriving DecidableEq, Repr

/-- The tombstone of a revoked peer. -/
structure RevocationRecord where
  eventId : EventId
  pairId : Option PairId
  eventKey : Option PairEventKey
  revokedAtUnix : Nat
  deriving DecidableEq, Repr

/-- One peer's reconnect record. A host stores no ticket. -/
structure PeerRecord where
  ticket : Option String
  token : ResumptionToken
  deriving DecidableEq, Repr

/-- What an authenticated handshake asks the store to commit. -/
structure HandshakeCommit where
  ticket : Option String
  token : ResumptionToken
  resumed : Bool
  candidatePairId : PairId
  candidateEventKey : PairEventKey
  observedRevocation : Option EventId
  observedToken : Option ResumptionToken
  deriving DecidableEq, Repr

/-- Which stored token a host-side resume proved. -/
inductive ResumedWith where
  | currentToken
  | previousToken
  deriving DecidableEq, Repr

/-- `postcard` for the records of the peer store. -/
class Postcard (B : Type) where
  peers : Codec B (FMap DeviceId PeerRecord)
  lastHost : Codec B DeviceId
  pairState : Codec B (FMap DeviceId PairState)
  revocations : Codec B (FMap DeviceId RevocationRecord)
  grace : Codec B (FMap DeviceId GraceToken)

attribute [reducible, instance] Postcard.peers Postcard.lastHost Postcard.pairState
  Postcard.revocations Postcard.grace

/-- The in-memory store. -/
structure PeerStore where
  map : FMap DeviceId PeerRecord
  pairState : FMap DeviceId PairState
  revocations : FMap DeviceId RevocationRecord
  grace : FMap DeviceId GraceToken
  lastConnected : Option DeviceId
  deriving DecidableEq

namespace PeerStore

variable {B : Type} [Postcard B]

open StoreM Codec

/-! ## Lookups -/

/-- The tombstone of a device. -/
def revocation (s : PeerStore) (id : DeviceId) : Option RevocationRecord := s.revocations.lookup id

/-- Which revocation it was. -/
def revocationMarker (s : PeerStore) (id : DeviceId) : Option EventId :=
  (s.revocations.lookup id).map (·.eventId)

/-- There is a tombstone. -/
def isRevoked (s : PeerStore) (id : DeviceId) : Bool := (s.revocations.lookup id).isSome

/-- The entries of `map` of peers that are not revoked. -/
def records (s : PeerStore) : FMap DeviceId PeerRecord :=
  s.map.filterMap fun d r => if s.isRevoked d then none else some r

/-- The devices of `records()`. -/
def knownDevices (s : PeerStore) : Finset DeviceId := s.records.keys

/-- The tokens of all devices that are not revoked. -/
def tokens (s : PeerStore) : FMap DeviceId ResumptionToken :=
  s.map.filterMap fun d r => if s.isRevoked d then none else some r.token

/-- The token with which the device can resume. -/
def token (s : PeerStore) (id : DeviceId) : Option ResumptionToken :=
  if s.isRevoked id then none else (s.map.lookup id).map (·.token)

/-- The previous tokens a host-side handshake may accept: of peers that are not revoked, still have
a current token and are still on the grace token's pair generation. -/
def graceTokens (s : PeerStore) : FMap DeviceId ResumptionToken :=
  s.grace.filterMap fun d g =>
    if s.isRevoked d = false ∧ (s.map.lookup d).isSome ∧
        (s.pairState.lookup d).map (·.pairId) = some g.pairId then some g.token
    else none

/-- The generation of the pairing, of a device that is not revoked. -/
def pairId (s : PeerStore) (id : DeviceId) : Option PairId :=
  if s.isRevoked id then none else (s.pairState.lookup id).map (·.pairId)

/-- The record of a peer that is not revoked and was stored with a ticket. -/
def dialable (s : PeerStore) (d : DeviceId) : Option (DeviceId × String × ResumptionToken) :=
  (s.records.lookup d).bind fun r => r.ticket.map fun t => (d, t, r.token)

/-- The host to redial: the last connected one, else the first one with a ticket in the iteration
order `iter` of the map. -/
def lastHost (s : PeerStore) (iter : List DeviceId) :
    Option (DeviceId × String × ResumptionToken) :=
  match s.lastConnected.bind s.dialable with
  | some h => some h
  | none => iter.findSome? s.dialable

/-- Every saved host with a ticket: the last connected one first, the rest by id. -/
def knownHosts (s : PeerStore) : List (DeviceId × String × ResumptionToken) :=
  let isLast (d : DeviceId) : Bool := some d = s.lastConnected
  ((s.knownDevices.filter (isLast ·)).sort ++ (s.knownDevices.filter (!isLast ·)).sort).filterMap
    s.dialable

/-- Is the token on record still the one a handshake authenticated against? -/
def tokenIsUnchanged (s : PeerStore) (peer : DeviceId) (observed : Option ResumptionToken) : Bool :=
  match s.map.lookup peer, observed with
  | some current, some observed => current.token = observed
  | _, _ => false

/-- A handshake of `d` with the token `t` would be accepted: `t` is its current token, or its
previous one. -/
def Accepts (s : PeerStore) (d : DeviceId) (t : ResumptionToken) : Prop :=
  s.token d = some t ∨ s.tokens.lookup d = some t ∨ s.graceTokens.lookup d = some t

instance (s : PeerStore) (d : DeviceId) (t : ResumptionToken) : Decidable (s.Accepts d t) :=
  inferInstanceAs (Decidable (_ ∨ _ ∨ _))

theorem lookup_tokens (s : PeerStore) (d : DeviceId) : s.tokens.lookup d = s.token d := by
  rw [tokens, FMap.lookup_filterMap, token]
  cases s.isRevoked d <;> cases s.map.lookup d <;> rfl

theorem lookup_records (s : PeerStore) (d : DeviceId) :
    s.records.lookup d = if s.isRevoked d then none else s.map.lookup d := by
  rw [records, FMap.lookup_filterMap]
  cases s.isRevoked d <;> cases s.map.lookup d <;> rfl

theorem lookup_graceTokens {s : PeerStore} {d : DeviceId} {t : ResumptionToken} :
    s.graceTokens.lookup d = some t ↔ ∃ g, s.grace.lookup d = some g ∧ s.isRevoked d = false ∧
      (s.map.lookup d).isSome ∧ (s.pairState.lookup d).map (·.pairId) = some g.pairId ∧
      g.token = t := by
  rw [graceTokens, FMap.lookup_filterMap, Option.bind_eq_some_iff]
  simp only [Option.ite_none_right_eq_some, Option.some.injEq, and_assoc]

theorem accepts_iff {s : PeerStore} {d : DeviceId} {t : ResumptionToken} :
    s.Accepts d t ↔ s.isRevoked d = false ∧ ∃ r, s.map.lookup d = some r ∧
      (r.token = t ∨ ∃ g, s.grace.lookup d = some g ∧
        (s.pairState.lookup d).map (·.pairId) = some g.pairId ∧ g.token = t) := by
  rw [Accepts, lookup_tokens, lookup_graceTokens, ← or_assoc, or_self, token]
  cases s.isRevoked d <;> cases s.map.lookup d <;> simp

/-- Whether a token is accepted depends only on the device's own entries. -/
theorem accepts_congr {s s' : PeerStore} {d : DeviceId} (hm : s.map.lookup d = s'.map.lookup d)
    (hp : s.pairState.lookup d = s'.pairState.lookup d)
    (hr : s.revocations.lookup d = s'.revocations.lookup d)
    (hg : s.grace.lookup d = s'.grace.lookup d) (t : ResumptionToken) :
    s.Accepts d t ↔ s'.Accepts d t := by
  rw [accepts_iff, accepts_iff, isRevoked, isRevoked, hm, hp, hr, hg]

theorem isRevoked_eq (s : PeerStore) (d : DeviceId) :
    s.isRevoked d = (s.revocationMarker d).isSome := by
  simp [isRevoked, revocationMarker]

/-- The token a resume authenticated against is the current one. -/
theorem tokenIsUnchanged_iff {s : PeerStore} {peer : DeviceId}
    {observed : Option ResumptionToken} :
    s.tokenIsUnchanged peer observed = true ↔
      ∃ r, s.map.lookup peer = some r ∧ observed = some r.token := by
  unfold tokenIsUnchanged
  cases s.map.lookup peer <;> cases observed <;> simp [eq_comm]

/-! ## Records -/

/-- The record of the peers is written. -/
def persist (s : PeerStore) (durability : Durability) : StoreM B (Except IoError Unit) :=
  write .peers (toAllocvec s.map) durability

/-- The record of the generations is written, durably. -/
def persistPairState (s : PeerStore) : StoreM B (Except IoError Unit) :=
  write .pairState (toAllocvec s.pairState) .required

/-- The record of the tombstones is written, durably. -/
def persistRevocations (s : PeerStore) : StoreM B (Except IoError Unit) :=
  write .revocations (toAllocvec s.revocations) .required

/-- An empty grace map has no record. -/
def persistGrace (s : PeerStore) : StoreM B (Except IoError Unit) :=
  if s.grace = ∅ then remove .grace else write .grace (toAllocvec s.grace) .bestEffort

/-- A record's map: empty if the record is missing or does not decode (`unwrap_or_default`). -/
def mapOf {V : Type} [Codec B (FMap DeviceId V)] (c : Option B) : FMap DeviceId V :=
  (c.bind fromBytes).getD ∅

omit [Postcard B] in
@[simp] theorem mapOf_toAllocvec {V : Type} [Codec B (FMap DeviceId V)] (m : FMap DeviceId V) :
    mapOf (some (Codec.toAllocvec m : B)) = m := by
  simp [mapOf]

omit [Postcard B] in
@[simp] theorem mapOf_none {V : Type} [Codec B (FMap DeviceId V)] :
    (mapOf (none : Option B) : FMap DeviceId V) = ∅ := rfl

/-- The tombstones: a record that does not decode is an error, not an empty map. -/
def revocationsOf (c : Option B) : Except IoError (FMap DeviceId RevocationRecord) :=
  match c with
  | none => .ok ∅
  | some b => match fromBytes b with
    | some m => .ok m
    | none => .error ⟨.invalidData, "corrupt revocation store"⟩

@[simp] theorem revocationsOf_toAllocvec (m : FMap DeviceId RevocationRecord) :
    revocationsOf (some (toAllocvec m : B)) = .ok m := by
  simp [revocationsOf]

/-- All records are read; one that is missing is empty, and one that cannot be decoded is an
error. -/
def loadFrom : StoreM B (Except IoError PeerStore) :=
  (read .peers).andThen fun peers =>
  (read .lastHost).andThen fun last =>
  (read .pairState).andThen fun pairs =>
  (read .revocations).andThen fun revs =>
  match revocationsOf revs with
  | .error e => return .error e
  | .ok revocations =>
    (read .grace).andThen fun grace =>
    return .ok
      { map := mapOf peers, pairState := mapOf pairs, revocations, grace := mapOf grace,
        lastConnected := last.bind fromBytes }

/-! ## Operations -/

/-- The last host is noted, as far as that succeeds. -/
def setLastHost (s : PeerStore) (peer : DeviceId) : StoreM B (Except IoError Unit × PeerStore) := do
  if s.lastConnected = some peer then return (.ok (), s)
  match ← write .lastHost (toAllocvec peer) .bestEffort with
  | .error e => return (.error e, s)
  | .ok () => return (.ok (), { s with lastConnected := some peer })

/-- The rollback of `remember_token`. -/
def restoreToken (s : PeerStore) (peer : DeviceId) (previous : Option PeerRecord) : PeerStore :=
  let map := s.map.erase peer
  { s with map := match previous with
    | some previous => map.insert peer previous
    | none => map }

/-- A new token replaces the old one, whose ticket stays if there is no new one. -/
def rememberToken (s : PeerStore) (peer : DeviceId) (ticket : Option String)
    (token : ResumptionToken) (durability : Durability) :
    StoreM B (Except IoError Unit × PeerStore) := do
  let previous := s.map.lookup peer
  let ticket := ticket <|> previous.bind (·.ticket)
  let s := { s with map := s.map.insert peer { ticket, token } }
  match ← s.persist durability with
  | .ok () => return (.ok (), s)
  | .error e => return (.error e, s.restoreToken peer previous)

/-- A token of a device, unless the device is revoked. -/
def remember (s : PeerStore) (peer : DeviceId) (ticket : Option String) (token : ResumptionToken) :
    StoreM B (Except IoError Unit × PeerStore) := do
  if s.isRevoked peer then
    return (.error ⟨.permissionDenied, "refusing to restore a revoked peer"⟩, s)
  s.rememberToken peer ticket token .required

/-- The generation is put back as it was. -/
def restorePairState (s : PeerStore) (peer : DeviceId) (previous : Option PairState) : PeerStore :=
  { s with pairState := match previous with
    | some previous => s.pairState.insert peer previous
    | none => s.pairState.erase peer }

/-- Install a pair generation and then its token, with the rollback of both. The source has this
twice in `commit_handshake`: for a resume of a peer without generation metadata, and for a fresh
pair, where the token write is `Required`. -/
def installGeneration (s : PeerStore) (peer : DeviceId) (commit : HandshakeCommit)
    (durability : Durability) : StoreM B (Except IoError Unit × PeerStore) := do
  let previousState := s.pairState.lookup peer
  let s := { s with pairState :=
    s.pairState.insert peer ⟨commit.candidatePairId, commit.candidateEventKey⟩ }
  match ← s.persistPairState with
  | .error e => return (.error e, s.restorePairState peer previousState)
  | .ok () =>
    match ← s.rememberToken peer commit.ticket commit.token durability with
    | (.ok (), s) => return (.ok (), s)
    | (.error tokenError, s) =>
      let s := s.restorePairState peer previousState
      match ← s.persistPairState with
      | .ok () => return (.error tokenError, s)
      | .error rollbackError =>
        return (.error ⟨rollbackError.kind, "token persistence failed (" ++ tokenError.msg ++
          "); pair metadata rollback also failed (" ++ rollbackError.msg ++ ")"⟩, s)

/-- `commit_handshake` of a resume. -/
def commitResume (s : PeerStore) (peer : DeviceId) (commit : HandshakeCommit) :
    StoreM B (Except IoError PairId × PeerStore) := do
  if (s.revocationMarker peer).isSome then
    return (.error ⟨.permissionDenied, "peer was revoked while reconnecting"⟩, s)
  if !s.tokenIsUnchanged peer commit.observedToken then
    return (.error ⟨.permissionDenied, "peer credential changed while reconnecting"⟩, s)
  match s.pairState.lookup peer with
  | some existing =>
    let (r, s) ← s.rememberToken peer commit.ticket commit.token .bestEffort
    return (r.map fun _ => existing.pairId, s)
  | none =>
    let (r, s) ← s.installGeneration peer commit .bestEffort
    return (r.map fun _ => commit.candidatePairId, s)

/-- Clear the tombstone of `peer`, the last step of a fresh pair. If the record cannot be written,
the in-memory tombstones are read back from it; a failed read returns at once (`?`). -/
def clearTombstone (s : PeerStore) (peer : DeviceId) (pairId : PairId) :
    StoreM B (Except IoError PairId × PeerStore) := do
  if s.isRevoked peer = false then return (.ok pairId, s)
  let s := { s with revocations := s.revocations.erase peer }
  match ← s.persistRevocations with
  | .ok () => return (.ok pairId, s)
  | .error e =>
    match ← read .revocations with
    | .error readError => return (.error readError, s)
    | .ok bytes =>
      match bytes.bind (fromBytes (α := FMap DeviceId RevocationRecord)) with
      | some fresh => return (.error e, { s with revocations := fresh })
      | none => return (.error e, s)

/-- `commit_handshake` of a fresh pair. -/
def commitFresh (s : PeerStore) (peer : DeviceId) (commit : HandshakeCommit) :
    StoreM B (Except IoError PairId × PeerStore) := do
  if s.revocationMarker peer ≠ commit.observedRevocation then
    return (.error ⟨.permissionDenied, "peer was revoked while pairing"⟩, s)
  match ← s.installGeneration peer commit .required with
  | (.error e, s) => return (.error e, s)
  | (.ok (), s) => s.clearTombstone peer commit.candidatePairId

/-- A resume swaps the token, a fresh pair also clears the tombstone. -/
def commitHandshake (s : PeerStore) (peer : DeviceId) (commit : HandshakeCommit) :
    StoreM B (Except IoError PairId × PeerStore) :=
  if commit.resumed then s.commitResume peer commit else s.commitFresh peer commit

/-- Install a grace token; a failed write is only logged. -/
def setGrace (s : PeerStore) (peer : DeviceId) (grace : GraceToken) : StoreM B PeerStore := do
  let s := { s with grace := s.grace.insert peer grace }
  let _ ← s.persistGrace
  return s

/-- Drop a grace token, if there is one; a failed write is only logged. -/
def dropGrace (s : PeerStore) (peer : DeviceId) : StoreM B PeerStore := do
  if (s.grace.lookup peer).isNone then return s
  let s := { s with grace := s.grace.erase peer }
  let _ ← s.persistGrace
  return s

/-- The grace token that a resume with the current token stages before the rotation, if the commit
can still succeed. -/
def stagedGrace (s : PeerStore) (peer : DeviceId) (commit : HandshakeCommit) : Option GraceToken :=
  if s.isRevoked peer = false ∧ s.tokenIsUnchanged peer commit.observedToken then
    commit.observedToken.map fun authenticated =>
      ⟨((s.pairState.lookup peer).map (·.pairId)).getD commit.candidatePairId, authenticated⟩
  else none

/-- The old token may still be used for a while. -/
def stageGrace (s : PeerStore) (peer : DeviceId) (commit : HandshakeCommit) :
    StoreM B PeerStore :=
  match s.stagedGrace peer commit with
  | some grace => s.setGrace peer grace
  | none => pure s

/-- The commit of a host, with the grace entry of a resume. -/
def commitHostHandshake (s : PeerStore) (peer : DeviceId) (commit : HandshakeCommit)
    (resumedWith : ResumedWith) : StoreM B (Except IoError PairId × PeerStore) := do
  if !commit.resumed || resumedWith = .previousToken then
    match ← s.commitHandshake peer commit with
    | (.error e, s) => return (.error e, s)
    | (.ok pairId, s) => return (.ok pairId, ← s.dropGrace peer)
  else
    let s ← s.stageGrace peer commit
    s.commitHandshake peer commit

/-- The record that `revoke` writes. -/
def tombstone (s : PeerStore) (peer : DeviceId) (eventId : EventId) (now : Nat) :
    RevocationRecord where
  eventId
  pairId := (s.pairState.lookup peer).map (·.pairId) <|>
    (s.revocations.lookup peer).bind (·.pairId)
  eventKey := (s.pairState.lookup peer).map (·.eventKey) <|>
    (s.revocations.lookup peer).bind (·.eventKey)
  revokedAtUnix := now

/-- `revoke`, with the event id it draws and the time. -/
def revoke (s : PeerStore) (peer : DeviceId) (eventId : EventId) (now : Nat) :
    StoreM B (Except IoError RevocationRecord × PeerStore) := do
  let record := s.tombstone peer eventId now
  let s := { s with revocations := s.revocations.insert peer record }
  match ← s.persistRevocations with
  | .error e => return (.error e, { s with revocations := s.revocations.erase peer })
  | .ok () =>
    let s := { s with map := s.map.erase peer, pairState := s.pairState.erase peer }
    let _ ← s.persist .required
    let _ ← s.persistPairState
    let s ← s.dropGrace peer
    if s.lastConnected = some peer then
      let _ ← remove .lastHost
      return (.ok record, { s with lastConnected := none })
    else return (.ok record, s)

/-- Forget the last connected host, if it is `peer`. The end of `forget`. -/
def dropLastHost (s : PeerStore) (drop : Bool) : StoreM B (Except IoError Unit × PeerStore) := do
  if drop = false then return (.ok (), s)
  match ← remove .lastHost with
  | .error e => return (.error e, s)
  | .ok () => return (.ok (), { s with lastConnected := none })

/-- The device is removed without a tombstone; if the records cannot be written, memory has it
again. -/
def forget (s : PeerStore) (peer : DeviceId) : StoreM B (Except IoError Unit × PeerStore) := do
  match s.map.lookup peer with
  | none => return (.ok (), s)
  | some removed =>
    let removedState := s.pairState.lookup peer
    let s := { s with map := s.map.erase peer, pairState := s.pairState.erase peer }
    match ← s.persist .required with
    | .error e =>
      return (.error e, { s with
        map := s.map.insert peer removed
        pairState := match removedState with
          | some state => s.pairState.insert peer state
          | none => s.pairState })
    | .ok () =>
      match ← s.persistPairState with
      | .error e => return (.error e, s)
      | .ok () =>
        let s ← s.dropGrace peer
        s.dropLastHost (s.lastConnected = some peer)

/-- All devices are removed, tombstones apart. -/
def clear (s : PeerStore) : StoreM B (Except IoError Unit × PeerStore) := do
  if s.map = ∅ then return (.ok (), s)
  let old := s
  let s := { s with map := ∅, pairState := ∅ }
  match ← s.persist .required with
  | .error e => return (.error e, { s with map := old.map, pairState := old.pairState })
  | .ok () =>
    match ← s.persistPairState with
    | .error e => return (.error e, s)
    | .ok () =>
      if s.grace = ∅ then s.dropLastHost s.lastConnected.isSome
      else
        let s := { s with grace := ∅ }
        let _ ← s.persistGrace
        s.dropLastHost s.lastConnected.isSome

end PeerStore

end Portty
