import Mathlib.Data.Nat.Digits.Lemmas
import Portty.Transport.Types

/-!
# Pairing cryptography (`crypto/pairing.rs`)

The primitives are outside the repository: X25519 (`x25519-dalek`), HMAC-SHA256 and HKDF-SHA256.
`Crypto` has them as functions, with no law; a result that needs one (`Crypto.DhCommutes`,
`Crypto.ProofInjective`) has it as a hypothesis. HMAC takes a key of any length, and HKDF gives
32 bytes from any input, so the errors that the source maps from them do not occur and the
functions here are total.

The functions keep the source's names: `firstPairKey`, `proofFromKey`, `deriveSessionFromKey`,
`deriveSubkey` and what is derived from a session with it.
-/

namespace Portty

/-- The bytes of an ASCII label. -/
def label (s : String) : Bytes := s.toList.map fun c => UInt8.ofNat c.toNat

/-- Errors of the handshake and of the envelope (`CryptoError`, `ProtocolError`). -/
inductive SyncError where
  | nonContributoryEcdh
  | rateLimited
  | nonceExhausted
  | rng
  | decrypt
  | replay (expected found : BitVec 64)
  | unexpectedMessage (state actual : String)
  deriving DecidableEq, Repr

/-- The out-of-band first-pair secret: from a ticket or from a phrase. -/
inductive PairingSecret where
  | ticket (bytes : BitVec 128)
  | manual (bytes : BitVec 48)
  deriving DecidableEq, Repr

/-- The bytes that are hashed. -/
def PairingSecret.asBytes : PairingSecret → Bytes
  | ticket b => toBytes 16 b
  | manual b => toBytes 6 b

/-- What a side sends to prove that it has the key. -/
structure Proof where
  bytes : BitVec 256
  deriving DecidableEq, Repr

/-- The number of the challenge. -/
structure Nonce where
  bytes : BitVec 256
  deriving DecidableEq, Repr

/-- What the keys of a session come from. -/
structure SessionSecret where
  bytes : BitVec 256
  deriving DecidableEq, Repr

/-- The primitives. -/
structure Crypto where
  /-- An X25519 secret. -/
  Scalar : Type
  publicKey : Scalar → BitVec 256
  diffieHellman : Scalar → BitVec 256 → BitVec 256
  /-- HMAC-SHA256 of a message under a key. -/
  hmac : (key message : Bytes) → BitVec 256
  /-- 32 bytes of HKDF-SHA256. -/
  hkdf : (salt : Option Bytes) → (ikm info : Bytes) → BitVec 256

namespace Crypto

variable (C : Crypto)

/-- The exchange gives both sides the same secret. -/
def DhCommutes : Prop :=
  ∀ a b, C.diffieHellman a (C.publicKey b) = C.diffieHellman b (C.publicKey a)

/-- `ecdh_shared`: a shared secret of zeros is not contributory (`was_contributory`). -/
def ecdhShared (secret : C.Scalar) (peerPublic : BitVec 256) : Except SyncError (BitVec 256) :=
  let shared := C.diffieHellman secret peerPublic
  if shared = 0 then .error .nonContributoryEcdh else .ok shared

/-- The label of the session. -/
def hkdfInfo : Bytes := label "portty-pairing-v1"

/-- The label of the token for the next time. -/
def resumptionTokenLabel : Bytes := label "portty-resumption-token-v1"

/-- The label of the key behind a secret. -/
def firstPairKeyLabel : Bytes := label "portty-first-pair-key-v1"

/-- The label of the code that the users compare. -/
def pairSasLabel : Bytes := label "portty-pair-sas-v1"

/-- The label of the generation of a pairing. -/
def pairIdLabel : Bytes := label "portty-pair-id-v1"

/-- The label of the key for notices. -/
def pairEventKeyLabel : Bytes := label "portty-pair-event-key-v1"

/-- The first-pair key of a secret: 32 bytes. -/
def firstPairKey (secret : PairingSecret) : Bytes :=
  toBytes 32 (C.hmac firstPairKeyLabel secret.asBytes)

/-- The proof is over the challenge and the transcript. -/
def proofFromKey (key : Bytes) (nonce : Nonce) (transcript : Bytes) : Proof :=
  ⟨C.hmac key (toBytes 32 nonce.bytes ++ transcript)⟩

/-- `verify_proof_with_key`, as a test. -/
def verifyProofWithKey (key : Bytes) (nonce : Nonce) (transcript : Bytes) (claimed : Proof) :
    Bool :=
  C.proofFromKey key nonce transcript = claimed

/-- The session comes from the key, the challenge and the ephemeral keys. -/
def deriveSessionFromKey (key : Bytes) (nonce : Nonce) (ecdh : BitVec 256) : SessionSecret :=
  ⟨C.hkdf (some key) (toBytes 32 nonce.bytes ++ toBytes 32 ecdh) hkdfInfo⟩

/-- What is derived from the session under a label. -/
def deriveSubkey (session : SessionSecret) (info : Bytes) : BitVec 256 :=
  C.hkdf none (toBytes 32 session.bytes) info

/-- `derive_reconnect_token`. -/
def deriveReconnectToken (session : SessionSecret) : ResumptionToken :=
  ⟨C.deriveSubkey session resumptionTokenLabel⟩

/-- `derive_pair_material`: the first 16 bytes of a subkey, and a subkey. -/
def derivePairMaterial (session : SessionSecret) : PairId × PairEventKey :=
  (⟨(C.deriveSubkey session pairIdLabel).extractLsb' 128 128⟩,
    ⟨C.deriveSubkey session pairEventKeyLabel⟩)

/-- `pair_verification_code`: the first 8 bytes of a subkey modulo `10^6`, with leading zeros. -/
def pairVerificationCode (session : SessionSecret) : String :=
  let value := ((C.deriveSubkey session pairSasLabel).extractLsb' 192 64).toNat % 10 ^ 6
  let digits := toString value
  String.ofList (List.replicate (6 - digits.length) '0') ++ digits

/-- For one nonce and transcript, proofs under different 32-byte keys differ. -/
def ProofInjective : Prop :=
  ∀ (k k' : BitVec 256) (nonce : Nonce) (transcript : Bytes),
    C.proofFromKey (toBytes 32 k) nonce transcript =
      C.proofFromKey (toBytes 32 k') nonce transcript → k = k'

/-! ## An instance that can be evaluated

Sums instead of mixing: it keeps the two laws, and runs of the model can be computed with it. -/

/-- The number that the bytes are, most significant first. -/
def ofBytes (b : Bytes) : BitVec 256 :=
  BitVec.ofNat 256 (Nat.ofDigits 256 (b.reverse.map UInt8.toNat))

/-- Sums in place of the functions. -/
def affine : Crypto where
  Scalar := BitVec 256
  publicKey a := a
  diffieHellman a b := a + b
  hmac key message := ofBytes key + ofBytes message
  hkdf salt ikm info := ofBytes (salt.getD []) + ofBytes ikm + ofBytes info

theorem affine_dhCommutes : affine.DhCommutes := fun a b => BitVec.add_comm a b

theorem digits_lt (b : Bytes) : ∀ x ∈ b.reverse.map UInt8.toNat, x < 256 := by
  intro x hx
  obtain ⟨u, -, rfl⟩ := List.mem_map.mp hx
  exact u.toNat_lt

/-- The bytes tell the word. -/
theorem ofBytes_toBytes_injective :
    Function.Injective fun w : BitVec 256 => ofBytes (toBytes 32 w) := by
  intro a b h
  have hlt : ∀ w : BitVec 256,
      Nat.ofDigits 256 ((toBytes 32 w).reverse.map UInt8.toNat) < 2 ^ 256 := by
    intro w
    have hw := Nat.ofDigits_lt_base_pow_length (by decide) (digits_lt (toBytes 32 w))
    rwa [List.length_map, List.length_reverse, toBytes_length] at hw
  have hn := congrArg BitVec.toNat h
  simp only [ofBytes, BitVec.toNat_ofNat, Nat.mod_eq_of_lt (hlt _)] at hn
  have hd := Nat.ofDigits_inj_of_len_eq (by decide) (by simp [toBytes_length])
    (digits_lt _) (digits_lt _) hn
  have hr := List.map_injective_iff.mpr (fun _ _ => UInt8.toNat_inj.mp) hd
  exact toBytes_injective 32 (List.reverse_injective hr)

theorem affine_proofInjective : affine.ProofInjective := by
  intro k k' nonce transcript h
  have h' : ofBytes (toBytes 32 k) + ofBytes (toBytes 32 nonce.bytes ++ transcript) =
      ofBytes (toBytes 32 k') + ofBytes (toBytes 32 nonce.bytes ++ transcript) :=
    congrArg Proof.bytes h
  exact ofBytes_toBytes_injective ((BitVec.add_left_inj _).mp h')

end Crypto

end Portty
