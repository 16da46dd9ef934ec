import Portty.Transport.Envelope
import Portty.Transport.HandshakeServer

/-!
# A client and a server agree

`exchange` passes the messages of a client and a server to each other, as `run_client_handshake` and
`run_server_handshake` (`iroh.rs`) do, up to the proof that the server accepts. The client is then
told with `PairingOk`.

Both sides have the same session, whichever credential the server matched, and so everything that is
derived from it (`key_agreement`). The flag `resumed` is the kind of the credential on the client
and the credential that matched on the server: these differ only if a token equals the first-pair
key of a secret (`resumed_differs_on_equal_keys`).
-/

namespace Portty

open Handshake ServerHandshake

/-- What the two runners return (`HandshakeOutcome`). -/
structure HandshakeOutcome where
  cipher : EnvelopeCipher
  peerDeviceId : DeviceId
  peerDisplayName : String
  reconnectToken : ResumptionToken
  resumed : Bool
  previousToken : Bool
  pairId : PairId
  pairEventKey : PairEventKey
  enrollmentEpoch : Option (BitVec 64)
  verificationCode : String
  deriving DecidableEq, Repr

section Outcomes

variable (C : Crypto) (r : Finished)

/-- What `run_client_handshake` makes of `Outcome::Done`. -/
def clientOutcome : HandshakeOutcome :=
  { cipher := .forClient C r.session
    peerDeviceId := r.peerDeviceId
    peerDisplayName := r.peerDisplayName
    reconnectToken := C.deriveReconnectToken r.session
    resumed := r.resumed
    previousToken := false
    pairId := (C.derivePairMaterial r.session).1
    pairEventKey := (C.derivePairMaterial r.session).2
    enrollmentEpoch := none
    verificationCode := C.pairVerificationCode r.session }

/-- What `run_server_handshake` makes of it. -/
def serverOutcome : HandshakeOutcome :=
  { cipher := .forServer C r.session
    peerDeviceId := r.peerDeviceId
    peerDisplayName := r.peerDisplayName
    reconnectToken := C.deriveReconnectToken r.session
    resumed := r.resumed
    previousToken := r.previousToken
    pairId := (C.derivePairMaterial r.session).1
    pairEventKey := (C.derivePairMaterial r.session).2
    enrollmentEpoch := r.enrollmentEpoch
    verificationCode := C.pairVerificationCode r.session }

end Outcomes

/-- Two outcomes of one session: each side opens what the other seals, and the rest is the same. -/
structure HandshakeOutcome.Agree (client server : HandshakeOutcome) : Prop where
  clientToServer : client.cipher.sealKey = server.cipher.openKey ∧
    client.cipher.sealAad = server.cipher.openAad
  serverToClient : server.cipher.sealKey = client.cipher.openKey ∧
    server.cipher.sealAad = client.cipher.openAad
  reconnectToken : client.reconnectToken = server.reconnectToken
  pairId : client.pairId = server.pairId
  pairEventKey : client.pairEventKey = server.pairEventKey
  verificationCode : client.verificationCode = server.verificationCode

theorem agree_of_session {C : Crypto} {r r' : Finished} (h : r'.session = r.session) :
    (clientOutcome C r').Agree (serverOutcome C r) := by
  constructor <;> simp [clientOutcome, serverOutcome, h, EnvelopeCipher.forClient,
    EnvelopeCipher.forServer, EnvelopeCipher.fromSessionLabels]

/-! ## The exchange -/

variable {C : Crypto}

/-- The messages of a client and a server up to the accepted proof: what the server has finished
with, and the client that waits for `PairingOk`. Each step of the server finds its own locks. -/
def exchange (client : ClientHandshake C) (eph : C.Scalar) (h : ServerHandshake)
    (locks₁ : Locks) (entropy₁ : Entropy C) (locks₂ : Locks) (entropy₂ : Entropy C) :
    Option (Finished × ClientHandshake C) :=
  let (hello, client) := client.start eph
  match h.step .awaitingHello locks₁ entropy₁ hello with
  | (.ok (.send challenge), s, _) =>
    match client.step challenge with
    | (.ok (.send proof), client) =>
      match h.step s locks₂ entropy₂ proof with
      | (.ok (.done r), _, _) => some (r, client)
      | _ => none
    | _ => none
  | _ => none

/-- Every credential is a key of 32 bytes. -/
theorem ClientCredential.key_eq (C : Crypto) (credential : ClientCredential) :
    ∃ k : BitVec 256, credential.key C = toBytes 32 k := by
  cases credential with
  | firstPair secret => exact ⟨_, rfl⟩
  | resume token => exact ⟨token.bytes, rfl⟩

/-- A key of 32 bytes that verifies a proof by another one is that one. -/
theorem key_eq_of_verify (hinj : C.ProofInjective) {k k' : BitVec 256} {nonce : Nonce}
    {transcript : Bytes}
    (hv : C.verifyProofWithKey (toBytes 32 k') nonce transcript
      (C.proofFromKey (toBytes 32 k) nonce transcript) = true) : k' = k :=
  (hinj k k' nonce transcript (verifyProofWithKey_iff.mp hv)).symm

section Exchange

variable {eph : C.Scalar} {h : ServerHandshake} {locks₁ locks₂ : Locks}
  {entropy₁ entropy₂ : Entropy C} {device : DeviceId} {name : String}
  {credential : ClientCredential} {r : Finished} {client : ClientHandshake C}

/-- The transcript of the exchange. -/
def transcriptOf (eph : C.Scalar) (entropy : Entropy C) : Bytes :=
  buildTranscript (C.publicKey eph) (C.publicKey entropy.ephemeral)

/-- The challenge that the server keeps in the exchange. -/
def challengeOf (h : ServerHandshake) (eph : C.Scalar) (entropy : Entropy C) (device : DeviceId)
    (name : String) (epoch : Option (BitVec 64)) (key : Bytes) : SentChallenge :=
  h.challenge entropy device name (C.publicKey eph) epoch
    (C.diffieHellman entropy.ephemeral (C.publicKey eph)) key

/-- The proof that the client sends in the exchange. -/
def proofOf (eph : C.Scalar) (entropy : Entropy C) (credential : ClientCredential) : Proof :=
  C.proofFromKey (credential.key C) entropy.nonce (transcriptOf eph entropy)

/-- The client after it has sent its proof. -/
def provedClient (eph : C.Scalar) (entropy : Entropy C) (device : DeviceId) (name : String)
    (credential : ClientCredential) : ClientHandshake C :=
  { state := .sentProof (some (C.deriveSessionFromKey (credential.key C) entropy.nonce
      (C.diffieHellman entropy.ephemeral (C.publicKey eph))))
    deviceId := device, displayName := name, credential
    ephSecret := none, clientEphPub := C.publicKey eph }

theorem ecdhShared_eq_ok {a : C.Scalar} {b x : BitVec 256} (hx : C.ecdhShared a b = .ok x) :
    x = C.diffieHellman a b ∧ C.diffieHellman a b ≠ 0 := by
  unfold Crypto.ecdhShared at hx
  dsimp only at hx
  split at hx
  · cases hx
  · exact ⟨(Except.ok.inj hx).symm, ‹_›⟩

/-- The client's answer to the challenge. -/
theorem step_challenge (hdh : C.DhCommutes) (entropy : Entropy C)
    (hne : C.diffieHellman entropy.ephemeral (C.publicKey eph) ≠ 0) :
    (((ClientHandshake.withCredential device name credential).start eph).2).step
        (.pairingChallenge entropy.nonce.bytes (C.publicKey entropy.ephemeral)) =
      (.ok (.send (.pairingProof (proofOf eph entropy credential).bytes)),
        provedClient eph entropy device name credential) := by
  have hx : C.ecdhShared eph (C.publicKey entropy.ephemeral) =
      .ok (C.diffieHellman entropy.ephemeral (C.publicKey eph)) := by
    rw [Crypto.ecdhShared, hdh eph entropy.ephemeral]
    exact if_neg hne
  simp only [ClientHandshake.step, ClientHandshake.start, ClientHandshake.withCredential,
    ClientHandshake.stepChallenge, hx]
  rfl

/-- The first half of a successful exchange: the Hello is answered by a challenge. -/
theorem exchange_challenged
    (he : exchange (.withCredential device name credential) eph h locks₁ entropy₁ locks₂ entropy₂ =
      some (r, client)) :
    ∃ epoch locks' locks key, h.limited locks' entropy₁.later = (false, locks) ∧
      C.diffieHellman entropy₁.ephemeral (C.publicKey eph) ≠ 0 ∧
      h.challengeKey C device = some key ∧
      h.step .awaitingHello locks₁ entropy₁
          ((ClientHandshake.withCredential device name credential).start eph).1 =
        (.ok (.send (.pairingChallenge entropy₁.nonce.bytes (C.publicKey entropy₁.ephemeral))),
          .sentChallenge (challengeOf h eph entropy₁ device name epoch key), locks) := by
  have hs : h.step .awaitingHello locks₁ entropy₁
        ((ClientHandshake.withCredential device name credential).start eph).1 =
      h.stepHello locks₁ entropy₁ device protocolVersion name (C.publicKey eph) := rfl
  simp only [exchange, hs] at he
  rcases h.stepHello_cases locks₁ entropy₁ device protocolVersion name (C.publicKey eph) with
    ⟨reason, locks, hh⟩ | ⟨locks, hh⟩ | ⟨-, epoch, locks', locks, ecdh, key, -, hl, hx, hk, hh⟩
  · simp [hh, refuse, ClientHandshake.step, ClientHandshake.start] at he
  · simp [hh] at he
  · obtain ⟨rfl, hne⟩ := ecdhShared_eq_ok hx
    exact ⟨epoch, locks', locks, key, hl, hne, hk, hs.trans hh⟩

/-- What a successful exchange consists of. -/
theorem exchange_inversion (hdh : C.DhCommutes)
    (he : exchange (.withCredential device name credential) eph h locks₁ entropy₁ locks₂ entropy₂ =
      some (r, client)) :
    ∃ epoch key, h.challengeKey C device = some key ∧
      (h.stepProof C (challengeOf h eph entropy₁ device name epoch key) locks₂
        (proofOf eph entropy₁ credential).bytes).1 = .ok (.done r) ∧
      client = provedClient eph entropy₁ device name credential := by
  obtain ⟨epoch, -, locks, key, -, hne, hk, hs⟩ := exchange_challenged he
  simp only [exchange, hs, step_challenge hdh entropy₁ hne] at he
  refine ⟨epoch, key, hk, ?_⟩
  change (match h.stepProof C (challengeOf h eph entropy₁ device name epoch key) locks₂
      (proofOf eph entropy₁ credential).bytes with
    | (.ok (.done r), _, _) => some (r, provedClient eph entropy₁ device name credential)
    | _ => none) = some (r, client) at he
  split at he
  · rename_i r' _ _ hp
    cases he
    exact ⟨by rw [hp], rfl⟩
  · cases he

/-- A device with a stored token that is not rate limited gets to its proof. -/
theorem exchange_eq (hdh : C.DhCommutes) {token : ResumptionToken}
    (hne : C.diffieHellman entropy₁.ephemeral (C.publicKey eph) ≠ 0)
    (ha : ∀ d ∈ h.authenticatedDevice, d = device)
    (ht : h.resumptionTokens.lookup device = some token)
    (hl : (h.limited locks₁ entropy₁.later).1 = false)
    (hv : h.verified C (challengeOf h eph entropy₁ device name none token.asBytes)
      (proofOf eph entropy₁ credential) = true) :
    exchange (.withCredential device name credential) eph h locks₁ entropy₁ locks₂ entropy₂ =
        some (h.finished C (challengeOf h eph entropy₁ device name none token.asBytes)
          (proofOf eph entropy₁ credential), provedClient eph entropy₁ device name credential) ∧
      (h.step .awaitingHello locks₁ entropy₁
        ((ClientHandshake.withCredential device name credential).start eph).1).2.2 =
        (h.limited locks₁ entropy₁.later).2 := by
  have hfirst : h.isFirstPair device = false := by simp [isFirstPair, ht]
  have hen : h.enroll locks₁ entropy₁.now device = (.ok none, locks₁) := by
    simp [enroll, hfirst]
  have hauth : h.authenticatedDevice.any (· ≠ device) = false := by
    cases hd : h.authenticatedDevice with
    | none => rfl
    | some d => simp [ha d hd]
  have hkey : h.challengeKey C device = some token.asBytes := by simp [challengeKey, ht]
  have hx : C.ecdhShared entropy₁.ephemeral (C.publicKey eph) =
      .ok (C.diffieHellman entropy₁.ephemeral (C.publicKey eph)) := if_neg hne
  have hversion : supportsProtocolVersion protocolVersion = true := by decide
  have hstep : h.step .awaitingHello locks₁ entropy₁
        ((ClientHandshake.withCredential device name credential).start eph).1 =
      (.ok (.send (.pairingChallenge entropy₁.nonce.bytes (C.publicKey entropy₁.ephemeral))),
        .sentChallenge (challengeOf h eph entropy₁ device name none token.asBytes),
        (h.limited locks₁ entropy₁.later).2) := by
    show h.stepHello locks₁ entropy₁ device protocolVersion name (C.publicKey eph) = _
    rcases hlim : h.limited locks₁ entropy₁.later with ⟨b, locks'⟩
    rw [hlim] at hl
    obtain rfl : b = false := hl
    simp only [stepHello, hversion, hauth, hen, hlim, hx, hkey, Bool.not_true, Bool.false_eq_true,
      ↓reduceIte]
    rfl
  refine ⟨?_, by rw [hstep]⟩
  simp only [exchange, hstep, step_challenge hdh entropy₁ hne]
  have hproof : h.step (.sentChallenge (challengeOf h eph entropy₁ device name none token.asBytes))
      locks₂ entropy₂ (.pairingProof (proofOf eph entropy₁ credential).bytes) =
      (.ok (.done (h.finished C (challengeOf h eph entropy₁ device name none token.asBytes)
        (proofOf eph entropy₁ credential))), .done, h.recordSuccess locks₂) := by
    show h.stepProof C _ locks₂ _ = _
    rw [stepProof, if_pos hv]
  rw [hproof]

section Keys

variable {epoch : Option (BitVec 64)} {key : Bytes}

/-- A key that verifies the client's proof is the client's key. -/
theorem key_eq_of_verifies (hinj : C.ProofInjective) {k : BitVec 256}
    (hv : C.verifyProofWithKey (toBytes 32 k) entropy₁.nonce (transcriptOf eph entropy₁)
      (proofOf eph entropy₁ credential) = true) : toBytes 32 k = credential.key C := by
  obtain ⟨k', hk'⟩ := credential.key_eq C
  rw [proofOf, hk'] at hv
  rw [hk', key_eq_of_verify hinj hv]

theorem token_eq_of_verified (hinj : C.ProofInjective)
    (hv : tokenVerified C (challengeOf h eph entropy₁ device name epoch key)
      (proofOf eph entropy₁ credential) = true) :
    ∃ token, h.resumptionTokens.lookup device = some token ∧
      token.asBytes = credential.key C := by
  obtain ⟨token, ht, hv⟩ := (Option.any_eq_true _ _).mp hv
  exact ⟨token, ht, key_eq_of_verifies hinj hv⟩

theorem grace_eq_of_verified (hinj : C.ProofInjective)
    (hv : graceVerified C (challengeOf h eph entropy₁ device name epoch key)
      (proofOf eph entropy₁ credential) = true) :
    ∃ token, (challengeOf h eph entropy₁ device name epoch key).graceToken = some token ∧
      h.graceTokens.lookup device = some token ∧ token.asBytes = credential.key C := by
  obtain ⟨token, ht, hv⟩ := (Option.any_eq_true _ _).mp (Bool.and_eq_true_iff.mp hv).2
  obtain ⟨_, -, hg⟩ := Option.bind_eq_some_iff.mp ht
  exact ⟨token, ht, hg, key_eq_of_verifies hinj hv⟩

theorem secret_eq_of_matched (hinj : C.ProofInjective) {key' : Bytes}
    (hm : h.matchedFirstPair C (challengeOf h eph entropy₁ device name epoch key)
      (proofOf eph entropy₁ credential) = some key') :
    ∃ secret ∈ h.pairingSecrets, key' = C.firstPairKey secret ∧ key' = credential.key C := by
  obtain ⟨secret, hs, rfl, hv⟩ := firstPairKey_of_matched hm
  exact ⟨secret, hs, rfl, key_eq_of_verifies hinj hv⟩

/-- The server derives the session from the key that the client proved, whichever credential
matched. -/
theorem provedSession_eq (hinj : C.ProofInjective) (hk : h.challengeKey C device = some key)
    (hv : h.verified C (challengeOf h eph entropy₁ device name epoch key)
      (proofOf eph entropy₁ credential) = true) :
    h.provedSession C (challengeOf h eph entropy₁ device name epoch key)
        (proofOf eph entropy₁ credential) =
      C.deriveSessionFromKey (credential.key C) entropy₁.nonce
        (C.diffieHellman entropy₁.ephemeral (C.publicKey eph)) := by
  cases hm : h.matchedFirstPair C (challengeOf h eph entropy₁ device name epoch key)
      (proofOf eph entropy₁ credential) with
  | some key' =>
    obtain ⟨-, -, -, rfl⟩ := secret_eq_of_matched hinj hm
    simp only [provedSession, hm]
    rfl
  | none =>
    cases hg : graceVerified C (challengeOf h eph entropy₁ device name epoch key)
        (proofOf eph entropy₁ credential) with
    | true =>
      obtain ⟨token, ht, -, hb⟩ := grace_eq_of_verified hinj hg
      simp only [provedSession, hm, ht, hg, ↓reduceIte, hb]
      rfl
    | false =>
      -- by the stored token: the session of the challenge is from it
      have ht : tokenVerified C (challengeOf h eph entropy₁ device name epoch key)
          (proofOf eph entropy₁ credential) = true := by
        simpa [verified, hg, hm] using hv
      obtain ⟨token, hl, hb⟩ := token_eq_of_verified hinj ht
      have hkey : key = credential.key C := by
        rw [challengeKey, hl] at hk
        rw [← hb]
        exact (Option.some.inj hk).symm
      have hsession : h.provedSession C (challengeOf h eph entropy₁ device name epoch key)
          (proofOf eph entropy₁ credential) =
          (challengeOf h eph entropy₁ device name epoch key).session := by
        cases hgt : (challengeOf h eph entropy₁ device name epoch key).graceToken <;>
          simp [provedSession, hm, hg, hgt]
      rw [hsession, ← hkey]
      rfl

end Keys

/-- No token equals the first-pair key of a secret, among the client's credential and what the
server would match it with. -/
def Separated (C : Crypto) (h : ServerHandshake) (device : DeviceId) : ClientCredential → Prop
  | .resume token => ∀ secret ∈ h.pairingSecrets, C.firstPairKey secret ≠ token.asBytes
  | .firstPair secret => ∀ token, h.resumptionTokens.lookup device = some token ∨
      h.graceTokens.lookup device = some token → token.asBytes ≠ C.firstPairKey secret

/-- The server's flag says the kind of the client's credential. -/
theorem resumed_eq {epoch : Option (BitVec 64)} {key : Bytes} (hinj : C.ProofInjective)
    (hsep : Separated C h device credential)
    (hd : (h.stepProof C (challengeOf h eph entropy₁ device name epoch key) locks₂
      (proofOf eph entropy₁ credential).bytes).1 = .ok (.done r)) :
    r.resumed = (provedClient eph entropy₁ device name credential).isResume := by
  obtain ⟨hv, rfl⟩ := stepProof_done hd
  rw [verified_iff] at hv
  cases credential with
  | resume token =>
    show (_ || _) = true
    rw [Bool.or_eq_true]
    rcases hv with hv | hv | hv
    · exact .inl hv
    · exact .inr hv
    · obtain ⟨key', hm⟩ := Option.isSome_iff_exists.mp hv
      obtain ⟨secret, hs, rfl, hk⟩ := secret_eq_of_matched hinj hm
      exact absurd hk (hsep secret hs)
  | firstPair secret =>
    show (_ || _) = false
    rw [Bool.or_eq_false_iff, ← Bool.not_eq_true, ← Bool.not_eq_true]
    refine ⟨fun hv => ?_, fun hv => ?_⟩
    · obtain ⟨token, ht, hb⟩ := token_eq_of_verified hinj hv
      exact hsep token (.inl ht) hb
    · obtain ⟨token, -, ht, hb⟩ := grace_eq_of_verified hinj hv
      exact hsep token (.inr ht) hb

/-- If the server accepts the client's proof, the client's step on `PairingOk` gives the same
session, so what both derive from it agrees; and the same flag `resumed`, if no token equals the
first-pair key of a secret. -/
theorem key_agreement (hdh : C.DhCommutes) (hinj : C.ProofInjective) (device : DeviceId)
    (name : String) (credential : ClientCredential) (eph : C.Scalar) (h : ServerHandshake)
    (locks₁ : Locks) (entropy₁ : Entropy C) (locks₂ : Locks) (entropy₂ : Entropy C) (r : Finished)
    (client : ClientHandshake C)
    (he : exchange (.withCredential device name credential) eph h locks₁ entropy₁ locks₂ entropy₂ =
      some (r, client)) :
    ∃ r', (client.step (.pairingOk h.deviceId h.displayName)).1 = .ok (.done r') ∧
      r'.session = r.session ∧ (clientOutcome C r').Agree (serverOutcome C r) ∧
      (Separated C h device credential → r'.resumed = r.resumed) := by
  obtain ⟨epoch, key, hk, hd, rfl⟩ := exchange_inversion hdh he
  obtain ⟨hv, rfl⟩ := stepProof_done hd
  have hs := provedSession_eq hinj hk hv
  refine ⟨_, rfl, hs.symm, agree_of_session hs.symm, fun hsep => (resumed_eq hinj hsep hd).symm⟩

end Exchange

/-! ## The credential that was proved -/

section Proved

variable {eph : C.Scalar} {h : ServerHandshake} {locks₁ locks₂ : Locks}
  {entropy₁ entropy₂ : Entropy C} {device : DeviceId} {name : String}
  {credential : ClientCredential} {token : ResumptionToken} {r : Finished}
  {client : ClientHandshake C}

/-- The session that the client waits with is the one that the server has finished with. -/
theorem exchange_session (hdh : C.DhCommutes) (hinj : C.ProofInjective)
    (he : exchange (.withCredential device name credential) eph h locks₁ entropy₁ locks₂ entropy₂ =
      some (r, client)) :
    r.peerDeviceId = device ∧ client.state = .sentProof (some r.session) := by
  obtain ⟨epoch, key, hk, hd, rfl⟩ := exchange_inversion hdh he
  obtain ⟨hv, rfl⟩ := stepProof_done hd
  exact ⟨rfl, congrArg (fun x => ClientState.sentProof (some x)) (provedSession_eq hinj hk hv).symm⟩

/-- A device that the server has no token of is not resumed. -/
theorem lookup_of_resumed (hdh : C.DhCommutes)
    (he : exchange (.withCredential device name credential) eph h locks₁ entropy₁ locks₂ entropy₂ =
      some (r, client)) (hr : r.resumed = true) :
    ∃ t, h.resumptionTokens.lookup device = some t := by
  obtain ⟨epoch, key, -, hd, rfl⟩ := exchange_inversion hdh he
  obtain ⟨-, rfl⟩ := stepProof_done hd
  rcases Bool.or_eq_true_iff.mp hr with hv | hv
  · obtain ⟨t, ht, -⟩ := (Option.any_eq_true _ _).mp hv
    exact ⟨t, ht⟩
  · obtain ⟨g, hg, -⟩ := (Option.any_eq_true _ _).mp (Bool.and_eq_true_iff.mp hv).2
    obtain ⟨t, ht, -⟩ := Option.bind_eq_some_iff.mp hg
    exact ⟨t, ht⟩

/-- A device that the server has a token of has no opportunity to claim. -/
theorem enrollmentEpoch_of_lookup (hdh : C.DhCommutes)
    (he : exchange (.withCredential device name credential) eph h locks₁ entropy₁ locks₂ entropy₂ =
      some (r, client)) (ht : h.resumptionTokens.lookup device = some token) :
    r.enrollmentEpoch = none := by
  obtain ⟨epoch, key, -, hd, rfl⟩ := exchange_inversion hdh he
  obtain ⟨-, rfl⟩ := stepProof_done hd
  simp [finished, challengeOf, challenge, ht]

/-- The client's own token verifies. -/
theorem verifies_self (token : ResumptionToken) (eph : C.Scalar) (entropy : Entropy C) :
    C.verifyProofWithKey token.asBytes entropy.nonce (transcriptOf eph entropy)
      (proofOf eph entropy (.resume token)) = true := verifyProofWithKey_iff.mpr rfl

theorem tokenVerified_self {epoch : Option (BitVec 64)} {key : Bytes}
    (ht : h.resumptionTokens.lookup device = some token) :
    tokenVerified C (challengeOf h eph entropy₁ device name epoch key)
      (proofOf eph entropy₁ (.resume token)) = true :=
  (Option.any_eq_true _ _).mpr ⟨token, ht, verifies_self token eph entropy₁⟩

/-- What a client with a token has proved, if the server says that it was resumed: the current token
or the previous one, and the current one if it is both. -/
theorem exchange_resume (hdh : C.DhCommutes) (hinj : C.ProofInjective)
    (he : exchange (.withCredential device name (.resume token)) eph h locks₁ entropy₁ locks₂
      entropy₂ = some (r, client)) :
    (r.previousToken = true → h.graceTokens.lookup device = some token ∧
      h.resumptionTokens.lookup device ≠ some token) ∧
    (r.previousToken = false → r.resumed = true →
      h.resumptionTokens.lookup device = some token) := by
  obtain ⟨epoch, key, -, hd, rfl⟩ := exchange_inversion hdh he
  obtain ⟨-, rfl⟩ := stepProof_done hd
  refine ⟨fun hprev => ⟨?_, fun ht => ?_⟩, fun hprev hres => ?_⟩
  · obtain ⟨t, -, hl, hb⟩ := grace_eq_of_verified hinj hprev
    rwa [ResumptionToken.asBytes_injective hb] at hl
  · have hv := (Bool.and_eq_true_iff.mp hprev).1
    rw [Bool.not_eq_true'] at hv
    exact Bool.false_ne_true (hv.symm.trans (tokenVerified_self ht))
  · have hv : tokenVerified C (challengeOf h eph entropy₁ device name epoch key)
        (proofOf eph entropy₁ (.resume token)) = true := by
      rcases Bool.or_eq_true_iff.mp hres with hv | hv
      · exact hv
      · exact absurd (hprev.symm.trans hv) Bool.false_ne_true
    obtain ⟨t, hl, hb⟩ := token_eq_of_verified hinj hv
    rwa [ResumptionToken.asBytes_injective hb] at hl

/-- A client that has the current token or the previous one is resumed. -/
theorem verified_of_token (eph : C.Scalar) (entropy₁ : Entropy C) (name : String)
    {t : ResumptionToken} (ht : h.resumptionTokens.lookup device = some t)
    (ha : token = t ∨ h.graceTokens.lookup device = some token) :
    h.verified C (challengeOf h eph entropy₁ device name none t.asBytes)
        (proofOf eph entropy₁ (.resume token)) = true ∧
      (h.finished C (challengeOf h eph entropy₁ device name none t.asBytes)
        (proofOf eph entropy₁ (.resume token))).resumed = true := by
  suffices hv : (tokenVerified C (challengeOf h eph entropy₁ device name none t.asBytes)
      (proofOf eph entropy₁ (.resume token)) ||
      graceVerified C (challengeOf h eph entropy₁ device name none t.asBytes)
        (proofOf eph entropy₁ (.resume token))) = true from
    ⟨by rw [verified, hv, Bool.true_or], hv⟩
  rcases ha with rfl | hg
  · rw [tokenVerified_self ht, Bool.true_or]
  · have hgt : (challengeOf h eph entropy₁ device name none t.asBytes).graceToken = some token := by
      simp [challengeOf, challenge, ht, hg]
    have hself : (challengeOf h eph entropy₁ device name none t.asBytes).graceToken.any
        (fun g => C.verifyProofWithKey g.asBytes entropy₁.nonce (transcriptOf eph entropy₁)
          (proofOf eph entropy₁ (.resume token))) = true :=
      (Option.any_eq_true _ _).mpr ⟨token, hgt, verifies_self token eph entropy₁⟩
    cases htv : tokenVerified C (challengeOf h eph entropy₁ device name none t.asBytes)
        (proofOf eph entropy₁ (.resume token)) with
    | true => rfl
    | false =>
      rw [Bool.false_or, graceVerified, htv]
      exact hself

/-- The limiter's lock is sound when the Hello has been answered by a challenge. -/
theorem exchange_poisoned
    (he : exchange (.withCredential device name credential) eph h locks₁ entropy₁ locks₂ entropy₂ =
      some (r, client)) :
    (h.step .awaitingHello locks₁ entropy₁ ((ClientHandshake.withCredential device name
      credential).start eph).1).2.2.rateLimiter.poisoned = false := by
  obtain ⟨_, _, _, _, hl, -, -, hs⟩ := exchange_challenged he
  rw [hs]
  exact limited_poisoned hl

end Proved

section Runs

/-- A host that holds a token for the device and has two secrets armed. -/
def armedHost (token : ResumptionToken) : ServerHandshake :=
  { deviceId := ⟨1⟩, displayName := "host"
    pairingSecrets := [.ticket 8, .manual 9]
    resumptionTokens := (∅ : FMap DeviceId ResumptionToken).insert ⟨2⟩ token }

/-- The device proves the secret `9` to that host. -/
def exchangeWith (token : ResumptionToken) : Option (Finished × ClientHandshake Crypto.affine) :=
  exchange (.withCredential ⟨2⟩ "phone" (.firstPair (.manual 9))) (3 : BitVec 256) (armedHost token)
    ⟨⟨{}, false⟩, ⟨.new [], false⟩⟩ ⟨0, 0, ⟨7⟩, (4 : BitVec 256)⟩
    ⟨⟨{}, false⟩, ⟨.new [], false⟩⟩ ⟨0, 0, ⟨7⟩, (4 : BitVec 256)⟩

/-- The second secret matches although the host holds a token, and both sides agree. -/
theorem key_agreement_second_secret :
    ∃ r client r', exchangeWith ⟨5⟩ = some (r, client) ∧
      (client.step (.pairingOk ⟨1⟩ "host")).1 = .ok (.done r') ∧
      r'.session = r.session ∧ r'.resumed = r.resumed := by
  obtain ⟨⟨r, client⟩, he⟩ :=
    Option.isSome_iff_exists.mp (by decide +kernel : (exchangeWith ⟨5⟩).isSome = true)
  obtain ⟨r', hr', hs, -, hres⟩ := key_agreement Crypto.affine_dhCommutes
    Crypto.affine_proofInjective ⟨2⟩ "phone" (.firstPair (.manual 9)) _ (armedHost ⟨5⟩) _ _ _ _ r
    client he
  refine ⟨r, client, r', he, hr', hs, hres ?_⟩
  rintro token (ht | ht)
  · obtain rfl : token = ⟨5⟩ := Option.some.inj (ht.symm.trans (by decide))
    decide +kernel
  · exact nomatch ht.symm.trans (by decide : _ = none)

/-- A token that equals the first-pair key of the secret: the server reports a resume, the client a
first pair. -/
theorem resumed_differs_on_equal_keys :
    Crypto.affine.DhCommutes ∧ Crypto.affine.ProofInjective ∧ ∃ r client r',
      exchangeWith ⟨Crypto.affine.hmac Crypto.firstPairKeyLabel (toBytes 6 9)⟩ = some (r, client) ∧
      (client.step (.pairingOk ⟨1⟩ "host")).1 = .ok (.done r') ∧
      r.resumed = true ∧ r'.resumed = false := by
  refine ⟨Crypto.affine_dhCommutes, Crypto.affine_proofInjective, ?_⟩
  obtain ⟨⟨r, client⟩, he, hr⟩ := (Option.any_eq_true _ _).mp (by decide +kernel :
    (exchangeWith ⟨Crypto.affine.hmac Crypto.firstPairKeyLabel (toBytes 6 9)⟩).any (·.1.resumed) =
      true)
  obtain ⟨-, -, -, -, hc⟩ := exchange_inversion Crypto.affine_dhCommutes he
  subst hc
  exact ⟨r, _, _, he, rfl, hr, rfl⟩

end Runs

end Portty
