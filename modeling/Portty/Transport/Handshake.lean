import Portty.Transport.Pairing

/-!
# The pairing handshake (`handshake.rs`)

* `HandshakeMessage`, `PairingFailure`, `Handshake.Outcome`: the messages, and what a state machine
  wants to happen next.
* `ClientHandshake`: one credential, a resumption token or a pairing secret.
* `ServerHandshake`: verifies a proof by the stored token, then by the previous one, then by any
  armed secret.

The fields of `ServerHandshake` are its configuration; its state is passed beside it, since nothing
else changes. The two mutexes it shares with other connections are `Locks`, and `Entropy` is what a
step takes from the clock and from the generator of random numbers.
-/

namespace Portty

/-! ## Messages -/

/-- `PROTOCOL_VERSION` (`frame.rs`). -/
def protocolVersion : BitVec 16 := 11

/-- Only the version of this program is spoken. -/
def minSupportedProtocolVersion : BitVec 16 := protocolVersion

/-- The version is one of those that are spoken. -/
def supportsProtocolVersion (version : BitVec 16) : Bool :=
  minSupportedProtocolVersion ≤ version && version ≤ protocolVersion

/-- What the host tells the client when it refuses. -/
inductive PairingFailure where
  | wrongPin
  | rateLimited
  | unsupportedVersion
  | cancelled
  | pairingClosed
  | revoked
  deriving DecidableEq, Repr

/-- The messages of the handshake, in their order. -/
inductive HandshakeMessage where
  | hello (deviceId : DeviceId) (protocolVersion : BitVec 16) (displayName : String)
      (clientEphPub : BitVec 256)
  | pairingChallenge (nonce serverEphPub : BitVec 256)
  | pairingProof (proof : BitVec 256)
  | pairingOk (deviceId : DeviceId) (displayName : String)
  | pairingFailed (reason : PairingFailure)
  deriving DecidableEq, Repr

/-- For the texts of errors. -/
def HandshakeMessage.variantName : HandshakeMessage → String
  | hello .. => "Hello"
  | pairingChallenge .. => "PairingChallenge"
  | pairingProof .. => "PairingProof"
  | pairingOk .. => "PairingOk"
  | pairingFailed .. => "PairingFailed"

namespace Handshake

/-- The label of the transcript. -/
def transcriptDomain : Bytes := label "portty-handshake-transcript-v1"

/-- `u16::to_le_bytes`. -/
def leBytes16 (v : BitVec 16) : Bytes := (toBytes 2 v).reverse

/-- `build_transcript`. -/
def buildTranscript (clientEphPub serverEphPub : BitVec 256) : Bytes :=
  transcriptDomain ++ leBytes16 protocolVersion ++ toBytes 32 clientEphPub ++
    toBytes 32 serverEphPub

/-- The fields of `Outcome::Done`. -/
structure Finished where
  session : SessionSecret
  peerDeviceId : DeviceId
  peerDisplayName : String
  resumed : Bool
  previousToken : Bool
  enrollmentEpoch : Option (BitVec 64)
  deriving DecidableEq, Repr

/-- What a step gives: the next message, the end, or the refusal of the other side. -/
inductive Outcome where
  | send (message : HandshakeMessage)
  | done (result : Finished)
  | failed (reason : PairingFailure)
  deriving DecidableEq, Repr

end Handshake

open Handshake

variable (C : Crypto)

/-! ## The client -/

/-- How far the client is. -/
inductive ClientState where
  | init
  | sentHello
  | sentProof (session : Option SessionSecret)
  | done
  | failed
  deriving DecidableEq, Repr

/-- For the texts of errors. -/
def ClientState.name : ClientState → String
  | init => "Init"
  | sentHello => "SentHello"
  | sentProof _ => "SentProof"
  | done => "Done"
  | failed => "Failed"

/-- What the client proves: a secret of a ticket, or the token of an earlier pairing. -/
inductive ClientCredential where
  | firstPair (secret : PairingSecret)
  | resume (token : ResumptionToken)
  deriving DecidableEq, Repr

/-- The key that the client proves. -/
def ClientCredential.key : ClientCredential → Bytes
  | resume token => token.asBytes
  | firstPair secret => C.firstPairKey secret

/-- The client with what it has sent and learned. -/
structure ClientHandshake where
  state : ClientState
  deviceId : DeviceId
  displayName : String
  credential : ClientCredential
  ephSecret : Option C.Scalar
  clientEphPub : BitVec 256

namespace ClientHandshake

variable {C}

/-- `first_pair` and `resume` differ in the credential only. -/
def withCredential (deviceId : DeviceId) (displayName : String) (credential : ClientCredential) :
    ClientHandshake C :=
  { state := .init, deviceId, displayName, credential, ephSecret := none, clientEphPub := 0 }

/-- The client proves a token. -/
def isResume (c : ClientHandshake C) : Bool :=
  match c.credential with
  | .resume _ => true
  | .firstPair _ => false

/-- The client says hello with a new ephemeral key. -/
def start (c : ClientHandshake C) (eph : C.Scalar) : HandshakeMessage × ClientHandshake C :=
  (.hello c.deviceId protocolVersion c.displayName (C.publicKey eph),
    { c with state := .sentHello, ephSecret := some eph, clientEphPub := C.publicKey eph })

/-- The challenge arm. The ephemeral secret is used up even when the exchange is refused. -/
def stepChallenge (c : ClientHandshake C) (nonce : Nonce) (serverEphPub : BitVec 256) :
    Except SyncError Outcome × ClientHandshake C :=
  match c.ephSecret with
  | none =>
    (.error (.unexpectedMessage "SentHello" "challenge before ephemeral key was generated"), c)
  | some eph =>
    let c := { c with ephSecret := none }
    match C.ecdhShared eph serverEphPub with
    | .error e => (.error e, c)
    | .ok ecdh =>
      let key := c.credential.key C
      let proof := C.proofFromKey key nonce (buildTranscript c.clientEphPub serverEphPub)
      let session := C.deriveSessionFromKey key nonce ecdh
      (.ok (.send (.pairingProof proof.bytes)), { c with state := .sentProof (some session) })

/-- The host has accepted, and the client has a session. -/
def stepOk (c : ClientHandshake C) (session : Option SessionSecret) (deviceId : DeviceId)
    (displayName : String) : Except SyncError Outcome × ClientHandshake C :=
  let c := { c with state := .done }
  match session with
  | none => (.error (.unexpectedMessage "SentProof" "session already taken"), c)
  | some session =>
    (.ok (.done
      { session, peerDeviceId := deviceId, peerDisplayName := displayName, resumed := c.isResume,
        previousToken := false, enrollmentEpoch := none }), c)

/-- The client takes a message; one that is not expected ends the handshake. -/
def step (c : ClientHandshake C) (incoming : HandshakeMessage) :
    Except SyncError Outcome × ClientHandshake C :=
  match c.state, incoming with
  | .sentHello, .pairingFailed reason => (.ok (.failed reason), { c with state := .failed })
  | .sentProof _, .pairingFailed reason => (.ok (.failed reason), { c with state := .failed })
  | .sentHello, .pairingChallenge nonce serverEphPub => c.stepChallenge ⟨nonce⟩ serverEphPub
  | .sentProof session, .pairingOk deviceId displayName => c.stepOk session deviceId displayName
  | state, other => (.error (.unexpectedMessage state.name other.variantName), c)

end ClientHandshake

/-! ## The server -/

/-- A value behind a lock, and whether a holder of the lock panicked. -/
structure Mutex (α : Type) where
  value : α
  poisoned : Bool := false

/-- What the connections of a host share. -/
structure Locks where
  rateLimiter : Mutex KeyedPairingRateLimiter
  pairingState : Mutex PairingState

/-- The readings of a step: the clock at the gate and at the limiter, and two random values. -/
structure Entropy where
  now : Nat
  later : Nat
  nonce : Nonce
  ephemeral : C.Scalar

/-- The payload of `ServerState::SentChallenge`. -/
structure SentChallenge where
  nonce : Nonce
  session : SessionSecret
  peerDeviceId : DeviceId
  peerDisplayName : String
  authToken : Option ResumptionToken
  graceToken : Option ResumptionToken
  enrollmentEpoch : Option (BitVec 64)
  ecdh : BitVec 256
  transcript : Bytes
  deriving DecidableEq, Repr

/-- How far the server is. -/
inductive ServerState where
  | awaitingHello
  | sentChallenge (c : SentChallenge)
  | done
  | failed
  deriving DecidableEq, Repr

/-- For the texts of errors. -/
def ServerState.name : ServerState → String
  | awaitingHello => "AwaitingHello"
  | sentChallenge _ => "SentChallenge"
  | done => "Done"
  | failed => "Failed"

/-- What the server knows when the handshake begins. -/
structure ServerHandshake where
  deviceId : DeviceId
  displayName : String
  rateLimitKey : String := ""
  /-- `pairing_state` is set. -/
  windowed : Bool := false
  snapshotEpoch : Option (BitVec 64) := none
  pairingSecrets : List PairingSecret := []
  enrollmentExemptDevice : Option DeviceId := none
  resumptionTokens : FMap DeviceId ResumptionToken := ∅
  graceTokens : FMap DeviceId ResumptionToken := ∅
  authenticatedDevice : Option DeviceId := none
  authenticatedDeviceRevoked : Bool := false

namespace ServerHandshake

variable (h : ServerHandshake)

/-- `with_first_pair`. -/
def withFirstPair (snapshot : PairingSnapshot) : ServerHandshake :=
  { h with windowed := true, snapshotEpoch := snapshot.epoch, pairingSecrets := snapshot.secrets }

/-- There is no token for the device. -/
def isFirstPair (device : DeviceId) : Bool := (h.resumptionTokens.lookup device).isNone

/-- `gate_first_pair` under the lock; a poisoned lock is a closed window. -/
def lockedGate (locks : Locks) (now : Nat) : FirstPairGate × Locks :=
  if locks.pairingState.poisoned then (.closed, locks)
  else
    let (gate, state) := locks.pairingState.value.gateFirstPair now h.snapshotEpoch
    (gate, { locks with pairingState := { locks.pairingState with value := state } })

/-- The enrollment part of the Hello arm: the epoch that a first pair was allowed under (none for a
reconnect and for an exempt device), or the refusal. -/
def enroll (locks : Locks) (now : Nat) (device : DeviceId) :
    Except PairingFailure (Option (BitVec 64)) × Locks :=
  if h.isFirstPair device && h.pairingSecrets.isEmpty then (.error .pairingClosed, locks)
  else if h.isFirstPair device && h.enrollmentExemptDevice ≠ some device && h.windowed then
    match h.lockedGate locks now with
    | (.allow epoch, locks) => (.ok (some epoch), locks)
    | (.closed, locks) =>
      (.error (if h.authenticatedDeviceRevoked then .revoked else .pairingClosed), locks)
    | (.locked, locks) => (.error .rateLimited, locks)
  else (.ok none, locks)

/-- `check_and_reserve` under the lock: whether the source is limited. A poisoned lock denies. -/
def limited (locks : Locks) (now : Nat) : Bool × Locks :=
  if locks.rateLimiter.poisoned then (true, locks)
  else
    let (r, limiter) := locks.rateLimiter.value.checkAndReserve h.rateLimitKey now
    (match r with | .ok () => false | .error _ => true,
      { locks with rateLimiter := { locks.rateLimiter with value := limiter } })

/-- The key of the session that a challenge is sent with. -/
def challengeKey (device : DeviceId) : Option Bytes :=
  match h.resumptionTokens.lookup device with
  | some token => some token.asBytes
  | none => h.pairingSecrets.head?.map C.firstPairKey

variable {C}

/-- What is kept when a challenge is sent. -/
def challenge (entropy : Entropy C) (device : DeviceId) (displayName : String)
    (clientEphPub : BitVec 256) (epoch : Option (BitVec 64)) (ecdh : BitVec 256) (key : Bytes) :
    SentChallenge :=
  { nonce := entropy.nonce
    session := C.deriveSessionFromKey key entropy.nonce ecdh
    peerDeviceId := device
    peerDisplayName := displayName
    authToken := h.resumptionTokens.lookup device
    graceToken := (h.resumptionTokens.lookup device).bind fun _ => h.graceTokens.lookup device
    enrollmentEpoch := epoch
    ecdh
    transcript := buildTranscript clientEphPub (C.publicKey entropy.ephemeral) }

/-- A refusal that ends the handshake. -/
def refuse (reason : PairingFailure) (locks : Locks) :
    Except SyncError Outcome × ServerState × Locks :=
  (.ok (.send (.pairingFailed reason)), .failed, locks)

/-- The Hello arm. -/
def stepHello (locks : Locks) (entropy : Entropy C) (device : DeviceId) (version : BitVec 16)
    (displayName : String) (clientEphPub : BitVec 256) :
    Except SyncError Outcome × ServerState × Locks :=
  if !supportsProtocolVersion version then refuse .unsupportedVersion locks
  else if h.authenticatedDevice.any (· ≠ device) then refuse .wrongPin locks
  else
    match h.enroll locks entropy.now device with
    | (.error reason, locks) => refuse reason locks
    | (.ok epoch, locks) =>
      match h.limited locks entropy.later with
      | (true, locks) => refuse .rateLimited locks
      | (false, locks) =>
        match C.ecdhShared entropy.ephemeral clientEphPub with
        | .error e => (.error e, .awaitingHello, locks)
        | .ok ecdh =>
          match h.challengeKey C device with
          | none => refuse .pairingClosed locks
          | some key =>
            (.ok (.send (.pairingChallenge entropy.nonce.bytes (C.publicKey entropy.ephemeral))),
              .sentChallenge
                (h.challenge entropy device displayName clientEphPub epoch ecdh key), locks)

variable (C)

/-- `record_success` under the lock, if it is not poisoned. -/
def recordSuccess (locks : Locks) : Locks :=
  if locks.rateLimiter.poisoned then locks
  else
    { locks with
      rateLimiter :=
        { locks.rateLimiter with value := locks.rateLimiter.value.recordSuccess h.rateLimitKey } }

/-- The proof is by the stored token. -/
def tokenVerified (c : SentChallenge) (claimed : Proof) : Bool :=
  c.authToken.any fun token => C.verifyProofWithKey token.asBytes c.nonce c.transcript claimed

/-- The proof is by the previous token, which is tried second. -/
def graceVerified (c : SentChallenge) (claimed : Proof) : Bool :=
  !tokenVerified C c claimed &&
    c.graceToken.any fun token => C.verifyProofWithKey token.asBytes c.nonce c.transcript claimed

/-- The first armed key that verifies, tried last. -/
def matchedFirstPair (c : SentChallenge) (claimed : Proof) : Option Bytes :=
  if !tokenVerified C c claimed && !graceVerified C c claimed then
    (h.pairingSecrets.map C.firstPairKey).find? fun key =>
      C.verifyProofWithKey key c.nonce c.transcript claimed
  else none

/-- The session is derived again from the key that was proved. -/
def provedSession (c : SentChallenge) (claimed : Proof) : SessionSecret :=
  match h.matchedFirstPair C c claimed, c.graceToken with
  | some key, _ => C.deriveSessionFromKey key c.nonce c.ecdh
  | none, some grace =>
    if graceVerified C c claimed then C.deriveSessionFromKey grace.asBytes c.nonce c.ecdh
    else c.session
  | none, none => c.session

/-- One of the credentials verifies. -/
def verified (c : SentChallenge) (claimed : Proof) : Bool :=
  tokenVerified C c claimed || graceVerified C c claimed ||
    (h.matchedFirstPair C c claimed).isSome

/-- What a verified proof is reported with. -/
def finished (c : SentChallenge) (claimed : Proof) : Finished :=
  { session := h.provedSession C c claimed
    peerDeviceId := c.peerDeviceId
    peerDisplayName := c.peerDisplayName
    resumed := tokenVerified C c claimed || graceVerified C c claimed
    previousToken := graceVerified C c claimed
    enrollmentEpoch := if c.authToken.isNone then c.enrollmentEpoch else none }

/-- The proof arm. -/
def stepProof (c : SentChallenge) (locks : Locks) (proof : BitVec 256) :
    Except SyncError Outcome × ServerState × Locks :=
  if h.verified C c ⟨proof⟩ then
    (.ok (.done (h.finished C c ⟨proof⟩)), .done, h.recordSuccess locks)
  else refuse (if h.authenticatedDeviceRevoked then .revoked else .wrongPin) locks

variable {C}

/-- The server takes a message. -/
def step (s : ServerState) (locks : Locks) (entropy : Entropy C) (incoming : HandshakeMessage) :
    Except SyncError Outcome × ServerState × Locks :=
  match s, incoming with
  | .awaitingHello, .hello device version displayName clientEphPub =>
    h.stepHello locks entropy device version displayName clientEphPub
  | .sentChallenge c, .pairingProof proof => h.stepProof C c locks proof
  | s, other => (.error (.unexpectedMessage s.name other.variantName), s, locks)

/-! ## What a step can do -/

variable {h} {s : ServerState} {locks : Locks} {entropy : Entropy C} {device : DeviceId}
  {version : BitVec 16} {displayName : String} {clientEphPub : BitVec 256} {c : SentChallenge}

/-- The Hello is one that the arm lets through to the gates. -/
structure Admits (h : ServerHandshake) (device : DeviceId) (version : BitVec 16) : Prop where
  version : supportsProtocolVersion version = true
  device : ∀ d ∈ h.authenticatedDevice, d = device

/-- A Hello is refused, or fails at the exchange of keys, or is answered by a challenge. -/
theorem stepHello_cases (h : ServerHandshake) (locks : Locks) (entropy : Entropy C)
    (device : DeviceId) (version : BitVec 16) (displayName : String) (clientEphPub : BitVec 256) :
    (∃ reason locks', h.stepHello locks entropy device version displayName clientEphPub =
      refuse reason locks') ∨
    (∃ locks', h.stepHello locks entropy device version displayName clientEphPub =
      (.error .nonContributoryEcdh, .awaitingHello, locks')) ∨
    h.Admits device version ∧ ∃ epoch locks₁ locks₂ ecdh key,
      h.enroll locks entropy.now device = (.ok epoch, locks₁) ∧
      h.limited locks₁ entropy.later = (false, locks₂) ∧
      C.ecdhShared entropy.ephemeral clientEphPub = .ok ecdh ∧
      h.challengeKey C device = some key ∧
      h.stepHello locks entropy device version displayName clientEphPub =
        (.ok (.send (.pairingChallenge entropy.nonce.bytes (C.publicKey entropy.ephemeral))),
          .sentChallenge (h.challenge entropy device displayName clientEphPub epoch ecdh key),
          locks₂) := by
  unfold stepHello
  split
  · exact .inl ⟨_, _, rfl⟩
  rename_i hv
  split
  · exact .inl ⟨_, _, rfl⟩
  rename_i ha
  split
  · exact .inl ⟨_, _, rfl⟩
  rename_i epoch locks₁ he
  split
  · exact .inl ⟨_, _, rfl⟩
  rename_i locks₂ hl
  split
  · rename_i e hx
    have : e = .nonContributoryEcdh := by
      unfold Crypto.ecdhShared at hx
      dsimp only at hx
      split at hx
      · exact (Except.error.inj hx).symm
      · cases hx
    exact .inr (.inl ⟨locks₂, by rw [this]⟩)
  rename_i ecdh hx
  split
  · exact .inl ⟨_, _, rfl⟩
  rename_i key hk
  refine .inr (.inr ⟨⟨by simpa using hv, ?_⟩, epoch, locks₁, locks₂, ecdh, key, he, hl, hx, hk,
    rfl⟩)
  intro d hd
  rw [Option.mem_def.mp hd] at ha
  simpa using ha

/-- The gate changes nothing, or reserves an attempt in the shared window. -/
theorem enroll_cases (h : ServerHandshake) (locks : Locks) (now : Nat) (device : DeviceId) :
    (h.enroll locks now device).2 = locks ∧
      (∀ e, (h.enroll locks now device).1 ≠ .ok (some e)) ∨
    locks.pairingState.poisoned = false ∧
      (h.enroll locks now device).2 = { locks with
        pairingState.value := (locks.pairingState.value.gateFirstPair now h.snapshotEpoch).2 } ∧
      ∀ e, (h.enroll locks now device).1 = .ok (some e) →
        (locks.pairingState.value.gateFirstPair now h.snapshotEpoch).1 = .allow e := by
  unfold enroll
  split
  · exact .inl ⟨rfl, nofun⟩
  split
  · cases hp : locks.pairingState.poisoned with
    | true => simp [lockedGate, hp]
    | false =>
      cases hg : (locks.pairingState.value.gateFirstPair now h.snapshotEpoch).1 <;>
        simp [lockedGate, hp, hg]
  · exact .inl ⟨rfl, nofun⟩

/-- A first pair is let through by the window, unless it is exempt from it. -/
theorem enroll_firstPair {epoch : Option (BitVec 64)} {now : Nat} {locks' : Locks}
    (he : h.enroll locks now device = (.ok epoch, locks')) (hw : h.windowed = true)
    (hf : h.isFirstPair device = true) (hx : h.enrollmentExemptDevice ≠ some device) :
    ∃ e, epoch = some e := by
  unfold enroll at he
  simp only [hf, hw, hx, Bool.true_and, ne_eq, not_false_eq_true, decide_true, ↓reduceIte] at he
  split at he
  · cases he
  split at he <;> cases he
  exact ⟨_, rfl⟩

@[simp] theorem limited_pairingState (h : ServerHandshake) (locks : Locks) (now : Nat) :
    (h.limited locks now).2.pairingState = locks.pairingState := by
  unfold limited
  split <;> rfl

/-- A poisoned lock denies. -/
theorem limited_poisoned {locks' : Locks} {now : Nat} (hl : h.limited locks now = (false, locks')) :
    locks'.rateLimiter.poisoned = false := by
  unfold limited at hl
  split at hl
  · cases hl
  · cases (Prod.mk.inj hl).2
    exact Bool.eq_false_iff.mpr ‹_›

/-- A source that has no entry is not limited. -/
theorem limited_of_absent {now : Nat} (hp : locks.rateLimiter.poisoned = false)
    (hk : locks.rateLimiter.value.perKey.lookup h.rateLimitKey = none) :
    (h.limited locks now).1 = false := by
  simp [limited, hp, KeyedPairingRateLimiter.checkAndReserve, KeyedPairingRateLimiter.gcCold, hk,
    PairingRateLimiter.checkAndReserve, PairingRateLimiter.check]

/-- A success removes the source's entry. -/
theorem recordSuccess_absent (hp : locks.rateLimiter.poisoned = false) :
    (h.recordSuccess locks).rateLimiter.poisoned = false ∧
      (h.recordSuccess locks).rateLimiter.value.perKey.lookup h.rateLimitKey = none := by
  simp [recordSuccess, hp, KeyedPairingRateLimiter.recordSuccess]

@[simp] theorem recordSuccess_pairingState (h : ServerHandshake) (locks : Locks) :
    (h.recordSuccess locks).pairingState = locks.pairingState := by
  unfold recordSuccess
  split <;> rfl

/-- The Hello arm changes the shared window by its gate only. -/
theorem stepHello_pairingState (h : ServerHandshake) (locks : Locks) (entropy : Entropy C)
    (device : DeviceId) (version : BitVec 16) (displayName : String) (clientEphPub : BitVec 256) :
    (h.stepHello locks entropy device version displayName clientEphPub).2.2.pairingState =
      locks.pairingState ∨
    (h.stepHello locks entropy device version displayName clientEphPub).2.2.pairingState =
      (h.enroll locks entropy.now device).2.pairingState := by
  unfold stepHello
  split
  · exact .inl rfl
  split
  · exact .inl rfl
  right
  rcases h.enroll locks entropy.now device with ⟨reason | epoch, locks₁⟩
  · rfl
  have hlim := h.limited_pairingState locks₁ entropy.later
  dsimp only
  rcases hl : h.limited locks₁ entropy.later with ⟨_ | _, locks₂⟩
  · rw [hl] at hlim
    dsimp only
    split
    · exact hlim
    split <;> exact hlim
  · rw [hl] at hlim
    exact hlim

end ServerHandshake

end Portty
