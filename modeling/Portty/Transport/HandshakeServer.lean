import Portty.Lib.Run
import Portty.Transport.Handshake

/-!
# What a server handshake accepts

For every configuration and every sequence of messages, whatever the shared locks hold when each
one arrives: at most one challenge, one evaluated proof and one `Done`, and `Done` only for a proof
by a credential of the device that the Hello named (`server_authentication`).

The three kinds of credential are tried in order, so the previous token decides only when the
current one does not verify. Where both are the same token, the resume is by the current one
(`equal_tokens_resume_by_current`).
-/

namespace Portty

open Handshake Run

namespace ServerHandshake

variable {C : Crypto}

/-- A message, with what the step finds behind the locks and reads from the environment. -/
structure Incoming (C : Crypto) where
  message : HandshakeMessage
  locks : Locks
  entropy : Entropy C

variable (h : ServerHandshake)

/-- What the step returns. -/
def answer (s : ServerState) (i : Incoming C) : Except SyncError Outcome :=
  (h.step s i.locks i.entropy i.message).1

/-- The state after the step. -/
def next (s : ServerState) (i : Incoming C) : ServerState :=
  (h.step s i.locks i.entropy i.message).2.1

/-- The step sends a challenge. -/
def challenges (s : ServerState) (i : Incoming C) : Bool :=
  match h.answer s i with
  | .ok (.send (.pairingChallenge _ _)) => true
  | _ => false

/-- The step evaluates a proof. -/
def evaluates (s : ServerState) (i : Incoming C) : Bool :=
  match s, i.message with
  | .sentChallenge _, .pairingProof _ => true
  | _, _ => false

/-- The step ends the handshake with success. -/
def finishes (s : ServerState) (i : Incoming C) : Bool :=
  match h.answer s i with
  | .ok (.done _) => true
  | _ => false

section Credentials

variable (C)

/-- The proof is by the stored token of the device. -/
def ByToken (device : DeviceId) (nonce : Nonce) (transcript : Bytes) (proof : Proof) : Prop :=
  ∃ token, h.resumptionTokens.lookup device = some token ∧
    proof = C.proofFromKey token.asBytes nonce transcript

/-- The proof is by the previous token of the device, and a current one is held too. -/
def ByGrace (device : DeviceId) (nonce : Nonce) (transcript : Bytes) (proof : Proof) : Prop :=
  (h.resumptionTokens.lookup device).isSome = true ∧
    ∃ token, h.graceTokens.lookup device = some token ∧
      proof = C.proofFromKey token.asBytes nonce transcript

/-- The proof is by an armed secret. -/
def BySecret (nonce : Nonce) (transcript : Bytes) (proof : Proof) : Prop :=
  ∃ secret ∈ h.pairingSecrets, proof = C.proofFromKey (C.firstPairKey secret) nonce transcript

end Credentials

/-! ## One step -/

variable {h} {s : ServerState} {i : Incoming C} {c : SentChallenge} {proof : BitVec 256}

/-- A step is one of the two arms, or an error that changes nothing. -/
theorem step_cases (h : ServerHandshake) (s : ServerState) (locks : Locks) (entropy : Entropy C)
    (m : HandshakeMessage) :
    (∃ device version displayName clientEphPub, s = .awaitingHello ∧
      m = .hello device version displayName clientEphPub ∧
      h.step s locks entropy m =
        h.stepHello locks entropy device version displayName clientEphPub) ∨
    (∃ c proof, s = .sentChallenge c ∧ m = .pairingProof proof ∧
      h.step s locks entropy m = h.stepProof C c locks proof) ∨
    h.step s locks entropy m = (.error (.unexpectedMessage s.name m.variantName), s, locks) := by
  unfold step
  split
  · exact .inl ⟨_, _, _, _, rfl, rfl, rfl⟩
  · exact .inr (.inl ⟨_, _, rfl, rfl, rfl⟩)
  · exact .inr (.inr rfl)

/-- The proof arm ends the handshake, with success or with a refusal. -/
theorem stepProof_cases (h : ServerHandshake) (C : Crypto) (c : SentChallenge) (locks : Locks)
    (proof : BitVec 256) :
    (∃ r, h.stepProof C c locks proof = (.ok (.done r), .done, h.recordSuccess locks)) ∨
    ∃ reason, h.stepProof C c locks proof = refuse reason locks := by
  unfold stepProof
  split
  · exact .inl ⟨_, rfl⟩
  · exact .inr ⟨_, rfl⟩

/-- A step keeps the opportunity of the shared window: it can reserve an attempt, no more. -/
theorem step_sameOpportunity (h : ServerHandshake) (s : ServerState) (locks : Locks)
    (entropy : Entropy C) (m : HandshakeMessage) :
    PairingState.SameOpportunity locks.pairingState.value
      (h.step s locks entropy m).2.2.pairingState.value := by
  rcases h.step_cases s locks entropy m with
    ⟨device, version, name, eph, -, -, hr⟩ | ⟨c, proof, -, -, hr⟩ | hr
  · rw [hr]
    rcases h.stepHello_pairingState locks entropy device version name eph with hp | hp
    · rw [hp]; exact .refl _
    rw [hp]
    rcases h.enroll_cases locks entropy.now device with ⟨hl, -⟩ | ⟨-, hl, -⟩
    · rw [hl]; exact .refl _
    · rw [hl]; exact PairingState.sameOpportunity_gate _ _ _
  · rw [hr]
    rcases h.stepProof_cases C c locks proof with ⟨r, hp⟩ | ⟨reason, hp⟩
    · rw [hp]; simpa using .refl _
    · rw [hp]; exact .refl _
  · rw [hr]; exact .refl _

theorem stepProof_done {r : Finished} {locks : Locks}
    (hd : (h.stepProof C c locks proof).1 = .ok (.done r)) :
    h.verified C c ⟨proof⟩ = true ∧ r = h.finished C c ⟨proof⟩ := by
  unfold stepProof at hd
  split at hd
  · cases hd; exact ⟨‹_›, rfl⟩
  · cases hd

theorem verified_iff {claimed : Proof} : h.verified C c claimed = true ↔
    tokenVerified C c claimed = true ∨ graceVerified C c claimed = true ∨
      (h.matchedFirstPair C c claimed).isSome = true := by
  rw [verified, Bool.or_eq_true, Bool.or_eq_true, or_assoc]

/-- What a step does to the phase of the handshake. -/
inductive Moves (h : ServerHandshake) (s : ServerState) (i : Incoming C) : Prop where
  | challenge (c : SentChallenge) (hs : s = .awaitingHello) (hn : h.next s i = .sentChallenge c)
      (hf : h.finishes s i = false) (he : evaluates s i = false)
  | evaluate (c : SentChallenge) (hs : s = .sentChallenge c)
      (hn : h.next s i = .done ∨ h.next s i = .failed) (hc : h.challenges s i = false)
  | fail (hs : s = .awaitingHello) (hn : h.next s i = .failed) (hc : h.challenges s i = false)
      (hf : h.finishes s i = false) (he : evaluates s i = false)
  | stay (hn : h.next s i = s) (hc : h.challenges s i = false) (hf : h.finishes s i = false)
      (he : evaluates s i = false)

/-- The ways in which a message can go. -/
theorem moves (h : ServerHandshake) (s : ServerState) (i : Incoming C) : h.Moves s i := by
  rcases h.step_cases s i.locks i.entropy i.message with
    ⟨device, version, name, eph, rfl, hm, hr⟩ | ⟨c, proof, rfl, hm, hr⟩ | hr
  · have he : evaluates .awaitingHello i = false := rfl
    rcases h.stepHello_cases i.locks i.entropy device version name eph with
      ⟨reason, locks, hh⟩ | ⟨locks, hh⟩ | ⟨-, epoch, _, locks, ecdh, key, -, -, -, -, hh⟩
    · rw [hh] at hr
      exact .fail rfl (by rw [next, hr]; rfl) (by rw [challenges, answer, hr]; rfl)
        (by rw [finishes, answer, hr]; rfl) he
    · rw [hh] at hr
      exact .stay (by rw [next, hr]) (by rw [challenges, answer, hr]) (by rw [finishes, answer, hr])
        he
    · rw [hh] at hr
      exact .challenge _ rfl (by rw [next, hr]) (by rw [finishes, answer, hr]) he
  · rcases h.stepProof_cases C c i.locks proof with ⟨r, hp⟩ | ⟨reason, hp⟩
    · rw [hp] at hr
      exact .evaluate c rfl (.inl (by rw [next, hr])) (by rw [challenges, answer, hr])
    · rw [hp] at hr
      exact .evaluate c rfl (.inr (by rw [next, hr]; rfl)) (by rw [challenges, answer, hr]; rfl)
  · have he : evaluates s i = false := by
      cases hs : s with
      | sentChallenge c =>
        cases hm : i.message with
        | pairingProof proof =>
          rw [hs, hm] at hr
          rcases h.stepProof_cases C c i.locks proof with ⟨r, hp⟩ | ⟨reason, hp⟩
          · exact absurd (hp.symm.trans hr) (by simp)
          · exact absurd (hp.symm.trans hr) (by simp [refuse])
        | _ => simp [evaluates, hm]
      | _ => rfl
    exact .stay (by rw [next, hr]) (by rw [challenges, answer, hr]) (by rw [finishes, answer, hr]) he

/-- A state from which no challenge was sent yet. -/
def awaits : ServerState → Nat
  | .awaitingHello => 1
  | _ => 0

/-- A state from which a proof can still be evaluated. -/
def pending : ServerState → Nat
  | .awaitingHello | .sentChallenge _ => 1
  | _ => 0

theorem pending_le (s : ServerState) : pending s ≤ 1 := by
  cases s <;> simp [pending]

theorem challenges_le (h : ServerHandshake) (s : ServerState) (ins : List (Incoming C)) :
    count h.next h.challenges s ins ≤ awaits s := by
  refine count_le awaits (fun s i => ?_) s ins
  cases h.moves s i with
  | challenge c hs hn hf he => rw [hn, hs]; exact Bool.toNat_le _
  | evaluate c hs hn hc => rw [hc]; rcases hn with hn | hn <;> rw [hn] <;> exact Nat.zero_le _
  | fail hs hn hc hf he => rw [hc, hn]; exact Nat.zero_le _
  | stay hn hc hf he => rw [hc, hn, Bool.toNat_false, Nat.zero_add]

/-- A step pays for the proof it evaluates. -/
theorem pending_step (h : ServerHandshake) (s : ServerState) (i : Incoming C) :
    (evaluates s i).toNat + pending (h.next s i) ≤ pending s := by
  cases h.moves s i with
  | challenge c hs hn hf he => rw [he, hn, hs]; exact Nat.le_refl _
  | evaluate c hs hn hc =>
    rcases hn with hn | hn <;> rw [hn, hs] <;> exact Bool.toNat_le _
  | fail hs hn hc hf he => rw [he, hn]; exact Nat.zero_le _
  | stay hn hc hf he => rw [he, hn, Bool.toNat_false, Nat.zero_add]

theorem evaluates_le (h : ServerHandshake) (s : ServerState) (ins : List (Incoming C)) :
    count h.next evaluates s ins ≤ pending s :=
  count_le pending h.pending_step s ins

theorem finishes_le (h : ServerHandshake) (s : ServerState) (ins : List (Incoming C)) :
    count h.next h.finishes s ins ≤ pending s := by
  refine count_le pending (fun s i => ?_) s ins
  cases h.moves s i with
  | challenge c hs hn hf he => rw [hf, hn, hs]; exact Nat.le_refl _
  | evaluate c hs hn hc =>
    rcases hn with hn | hn <;> rw [hn, hs] <;> exact Bool.toNat_le _
  | fail hs hn hc hf he => rw [hf, hn]; exact Nat.zero_le _
  | stay hn hc hf he => rw [hf, hn, Bool.toNat_false, Nat.zero_add]

/-- After the end every message is an error that changes nothing. -/
theorem step_ended (hs : s = .done ∨ s = .failed) (locks : Locks) (entropy : Entropy C)
    (m : HandshakeMessage) :
    h.step s locks entropy m = (.error (.unexpectedMessage s.name m.variantName), s, locks) := by
  rcases hs with rfl | rfl <;> rfl

/-- A Hello that is not let through is refused. -/
theorem stepHello_of_not_admits {device : DeviceId} {version : BitVec 16}
    (ha : ¬ h.Admits device version) (locks : Locks) (entropy : Entropy C) (name : String)
    (eph : BitVec 256) :
    ∃ reason, h.stepHello locks entropy device version name eph = refuse reason locks := by
  unfold stepHello
  split
  · exact ⟨_, rfl⟩
  rename_i hv
  split
  · exact ⟨_, rfl⟩
  rename_i hd
  refine absurd ⟨by simpa using hv, fun d hmem => ?_⟩ ha
  rw [Option.mem_def.mp hmem] at hd
  simpa using hd

/-- So it is followed by no challenge. -/
theorem challenges_after_not_admits {device : DeviceId} {version : BitVec 16} {name : String}
    {eph : BitVec 256} (hm : i.message = .hello device version name eph)
    (ha : ¬ h.Admits device version) (ins : List (Incoming C)) :
    count h.next h.challenges s (i :: ins) = 0 := by
  have hi : h.challenges s i = false ∧ awaits (h.next s i) = 0 := by
    cases s with
    | awaitingHello =>
      obtain ⟨reason, hr⟩ := stepHello_of_not_admits ha i.locks i.entropy name eph
      have hstep : h.step .awaitingHello i.locks i.entropy i.message = refuse reason i.locks := by
        rw [hm]; exact hr
      exact ⟨by rw [challenges, answer, hstep]; rfl, by rw [next, hstep]; rfl⟩
    | sentChallenge c => simp [challenges, answer, next, step, hm, awaits]
    | done => exact ⟨rfl, rfl⟩
    | failed => exact ⟨rfl, rfl⟩
  rw [count_cons, hi.1, Bool.toNat_false, Nat.zero_add]
  exact Nat.le_zero.mp (hi.2 ▸ h.challenges_le (h.next s i) ins)

/-! ## The proof -/

/-- What was kept with a challenge that was sent for this Hello. -/
structure ChallengeFor (h : ServerHandshake) (i : Incoming C) (device : DeviceId)
    (version : BitVec 16) (clientEphPub : BitVec 256) (c : SentChallenge) : Prop where
  answer : h.answer .awaitingHello i = .ok (.send
    (.pairingChallenge i.entropy.nonce.bytes (C.publicKey i.entropy.ephemeral)))
  admits : h.Admits device version
  peerDeviceId : c.peerDeviceId = device
  nonce : c.nonce = i.entropy.nonce
  transcript : c.transcript = buildTranscript clientEphPub (C.publicKey i.entropy.ephemeral)
  authToken : c.authToken = h.resumptionTokens.lookup device
  graceToken : c.graceToken =
    (h.resumptionTokens.lookup device).bind fun _ => h.graceTokens.lookup device

/-- The step that sends a challenge. -/
theorem challengeFor_of_next (hs : s ≠ .sentChallenge c) (hn : h.next s i = .sentChallenge c) :
    s = .awaitingHello ∧ ∃ device version name eph,
      i.message = .hello device version name eph ∧ h.ChallengeFor i device version eph c := by
  rcases h.step_cases s i.locks i.entropy i.message with
    ⟨device, version, name, eph, rfl, hm, hr⟩ | ⟨c', proof, rfl, hm, hr⟩ | hr
  · refine ⟨rfl, device, version, name, eph, hm, ?_⟩
    rcases h.stepHello_cases i.locks i.entropy device version name eph with
      ⟨reason, locks, hh⟩ | ⟨locks, hh⟩ | ⟨ha, epoch, _, locks, ecdh, key, -, -, -, -, hh⟩
    · rw [next, hr, hh] at hn; cases hn
    · rw [next, hr, hh] at hn; cases hn
    · rw [next, hr, hh] at hn
      cases hn
      exact ⟨by rw [ServerHandshake.answer, hr, hh], ha, rfl, rfl, rfl, rfl, rfl⟩
  · rcases h.stepProof_cases C c' i.locks proof with ⟨r, hp⟩ | ⟨reason, hp⟩ <;>
      rw [next, hr, hp] at hn <;> cases hn
  · rw [next, hr] at hn; exact absurd hn hs

theorem verifyProofWithKey_iff {key : Bytes} {nonce : Nonce} {transcript : Bytes}
    {claimed : Proof} :
    C.verifyProofWithKey key nonce transcript claimed = true ↔
      claimed = C.proofFromKey key nonce transcript := by
  rw [Crypto.verifyProofWithKey, decide_eq_true_iff, eq_comm]

section Verified

variable {device : DeviceId} {version : BitVec 16} {eph : BitVec 256} {claimed : Proof}

theorem tokenVerified_iff (hc : h.ChallengeFor i device version eph c) :
    tokenVerified C c claimed = true ↔ h.ByToken C device c.nonce c.transcript claimed := by
  rw [tokenVerified, hc.authToken, ByToken]
  cases h.resumptionTokens.lookup device <;> simp [verifyProofWithKey_iff]

theorem graceVerified_iff (hc : h.ChallengeFor i device version eph c) :
    graceVerified C c claimed = true ↔ ¬ h.ByToken C device c.nonce c.transcript claimed ∧
      h.ByGrace C device c.nonce c.transcript claimed := by
  rw [graceVerified, Bool.and_eq_true, Bool.not_eq_true', ← Bool.not_eq_true, tokenVerified_iff hc,
    hc.graceToken, ByGrace]
  cases h.resumptionTokens.lookup device <;> cases h.graceTokens.lookup device <;>
    simp [verifyProofWithKey_iff]

/-- The key that matched is that of an armed secret, and it verifies the proof. -/
theorem firstPairKey_of_matched {key : Bytes} (hk : h.matchedFirstPair C c claimed = some key) :
    ∃ secret ∈ h.pairingSecrets, key = C.firstPairKey secret ∧
      C.verifyProofWithKey key c.nonce c.transcript claimed = true := by
  unfold matchedFirstPair at hk
  split at hk
  · obtain ⟨secret, hs, rfl⟩ := List.mem_map.mp (List.mem_of_find?_eq_some hk)
    have hv := List.find?_some hk
    exact ⟨secret, hs, rfl, hv⟩
  · cases hk

/-- The credential that a successful proof is by, and the flags it is reported with. -/
structure Proved (h : ServerHandshake) (C : Crypto) (device : DeviceId) (nonce : Nonce)
    (transcript : Bytes) (claimed : Proof) (r : Finished) : Prop where
  credential : h.ByToken C device nonce transcript claimed ∨
    h.ByGrace C device nonce transcript claimed ∨ h.BySecret C nonce transcript claimed
  resumed : r.resumed = true ↔ h.ByToken C device nonce transcript claimed ∨
    h.ByGrace C device nonce transcript claimed
  previousToken : r.previousToken = true ↔ h.ByGrace C device nonce transcript claimed ∧
    ¬ h.ByToken C device nonce transcript claimed
  peerDeviceId : r.peerDeviceId = device

/-- A handshake that is done had its proof checked. -/
theorem proved_of_done {r : Finished} (hc : h.ChallengeFor i device version eph c) {locks : Locks}
    (hd : (h.stepProof C c locks proof).1 = .ok (.done r)) :
    h.Proved C device c.nonce c.transcript ⟨proof⟩ r := by
  have ht : tokenVerified C c ⟨proof⟩ = true ↔ _ := tokenVerified_iff hc
  have hg : graceVerified C c ⟨proof⟩ = true ↔ _ := graceVerified_iff hc
  obtain ⟨hv, rfl⟩ := stepProof_done hd
  refine ⟨?_, ?_, by rw [finished, hg, and_comm], hc.peerDeviceId⟩
  · rcases verified_iff.mp hv with hv | hv | hv
    · exact .inl (ht.mp hv)
    · exact .inr (.inl (hg.mp hv).2)
    · obtain ⟨key, hk⟩ := Option.isSome_iff_exists.mp hv
      obtain ⟨secret, hs, rfl, hv⟩ := firstPairKey_of_matched hk
      exact .inr (.inr ⟨secret, hs, verifyProofWithKey_iff.mp hv⟩)
  · rw [finished, Bool.or_eq_true, ht, hg]
    tauto

end Verified

/-! ## The run -/

/-- A step that ends with success evaluates a proof. -/
theorem finishes_inversion {r : Finished} (hd : h.answer s i = .ok (.done r)) :
    ∃ c proof, s = .sentChallenge c ∧ i.message = .pairingProof proof ∧
      (h.stepProof C c i.locks proof).1 = .ok (.done r) := by
  rcases h.step_cases s i.locks i.entropy i.message with
    ⟨device, version, name, eph, rfl, hm, hr⟩ | ⟨c, proof, rfl, hm, hr⟩ | hr
  · rw [answer, hr] at hd
    rcases h.stepHello_cases i.locks i.entropy device version name eph with
      ⟨reason, locks, hh⟩ | ⟨locks, hh⟩ | ⟨-, epoch, _, locks, ecdh, key, -, -, -, -, hh⟩ <;>
      rw [hh] at hd <;> cases hd
  · exact ⟨c, proof, rfl, hm, by rw [answer, hr] at hd; exact hd⟩
  · rw [answer, hr] at hd; cases hd

/-- For every configuration, every sequence of messages and whatever other connections do to the
shared locks: at most one challenge, one evaluated proof and one success. A success is for a proof
over the nonce and the keys of the challenge, by the stored token of the device of the Hello, by its
previous token, or by an armed secret; the flags say by which, and the current token goes before the
previous one. A Hello of an unsupported version or of another device leads to no challenge, and
after the end every message is an error that changes nothing. -/
theorem server_authentication (h : ServerHandshake) (ins : List (Incoming C)) :
    count h.next h.challenges .awaitingHello ins ≤ 1 ∧
    count h.next evaluates .awaitingHello ins ≤ 1 ∧
    count h.next h.finishes .awaitingHello ins ≤ 1 ∧
    ∀ pre i post, ins = pre ++ i :: post →
      (∀ r, h.answer (run h.next .awaitingHello pre) i = .ok (.done r) →
        ∃ pre' j post' device version name eph proof, pre = pre' ++ j :: post' ∧
          run h.next .awaitingHello pre' = .awaitingHello ∧
          j.message = .hello device version name eph ∧ h.Admits device version ∧
          h.answer .awaitingHello j = .ok (.send
            (.pairingChallenge j.entropy.nonce.bytes (C.publicKey j.entropy.ephemeral))) ∧
          i.message = .pairingProof proof ∧
          h.Proved C device j.entropy.nonce
            (buildTranscript eph (C.publicKey j.entropy.ephemeral)) ⟨proof⟩ r) ∧
      (∀ device version name eph, i.message = .hello device version name eph →
        ¬ h.Admits device version →
        count h.next h.challenges (run h.next .awaitingHello pre) (i :: post) = 0) ∧
      (∀ s, s = run h.next .awaitingHello pre → s = .done ∨ s = .failed →
        h.step s i.locks i.entropy i.message =
          (.error (.unexpectedMessage s.name i.message.variantName), s, i.locks)) := by
  refine ⟨h.challenges_le _ ins, h.evaluates_le _ ins, h.finishes_le _ ins, ?_⟩
  rintro pre i post rfl
  refine ⟨fun r hd => ?_, fun device version name eph hm ha => ?_, fun s _ hs => ?_⟩
  · obtain ⟨c, proof, hs, hm, hp⟩ := finishes_inversion hd
    obtain ⟨pre', j, post', rfl, hne, hj⟩ :=
      exists_step (s := .awaitingHello) (Q := (· = ServerState.sentChallenge c)) nofun hs
    obtain ⟨hw, device, version, name, eph, hmj, hc⟩ := challengeFor_of_next hne hj
    refine ⟨pre', j, post', device, version, name, eph, proof, rfl, hw, hmj, hc.admits, hc.answer,
      hm, ?_⟩
    rw [← hc.nonce, ← hc.transcript]
    exact proved_of_done hc hp
  · exact challenges_after_not_admits hm ha post
  · exact step_ended hs i.locks i.entropy i.message

/-- A host that holds one token for the device, as the current and as the previous one. -/
def equalTokens : ServerHandshake :=
  { deviceId := ⟨1⟩, displayName := "host"
    resumptionTokens := (∅ : FMap DeviceId ResumptionToken).insert ⟨2⟩ ⟨5⟩
    graceTokens := (∅ : FMap DeviceId ResumptionToken).insert ⟨2⟩ ⟨5⟩ }

/-- The device's Hello. -/
def equalTokensHello : Incoming Crypto.affine :=
  { message := .hello ⟨2⟩ protocolVersion "phone" 3
    locks := ⟨⟨{}, false⟩, ⟨.new [], false⟩⟩
    entropy := ⟨0, 0, ⟨7⟩, (4 : BitVec 256)⟩ }

/-- Its proof by that token. -/
def equalTokensProof : Incoming Crypto.affine :=
  { equalTokensHello with
    message := .pairingProof
      (Crypto.affine.proofFromKey (toBytes 32 5) ⟨7⟩ (buildTranscript 3 4)).bytes }

/-- The proof is by the previous token, and it is reported as one by the current token. -/
theorem equal_tokens_resume_by_current :
    ∃ r, equalTokens.answer (run equalTokens.next .awaitingHello [equalTokensHello])
        equalTokensProof = .ok (.done r) ∧
      r.previousToken = false ∧
      equalTokens.ByGrace Crypto.affine ⟨2⟩ ⟨7⟩ (buildTranscript 3 4)
        (Crypto.affine.proofFromKey (toBytes 32 5) ⟨7⟩ (buildTranscript 3 4)) := by
  refine ⟨⟨Crypto.affine.deriveSessionFromKey (toBytes 32 5) ⟨7⟩ 7, ⟨2⟩, "phone", true, false, none⟩,
    by decide +kernel, rfl, by decide, ⟨5⟩, by decide, rfl⟩

end ServerHandshake

end Portty
