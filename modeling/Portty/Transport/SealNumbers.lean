import Mathlib.Data.List.Pairwise
import Portty.Transport.Envelope

/-!
# The numbers of sealed frames

Any number of calls of `seal` on one cipher. The calls can come from several threads: a list of
calls has them in the order in which they draw their numbers (`fetch_add`), and after that a call
shares nothing with the others.

* `sealAll_getElem?`: call `j` draws the number `j` places after the first one, modulo `2^64`.
* `Unrepeated`: what the results have to be like so that no nonce prefix is used twice.
* `seals_unrepeated`: they are like that exactly as long as the counter has not wrapped.
-/

namespace Portty.EnvelopeCipher

open Endpoint (nonceSequence_append)

variable (A : Aead)

/-- One call of `seal`: its arguments, and what the generator of random numbers gives it. -/
structure SealCall where
  plaintext : Bytes
  aad : Bytes
  random : Option (BitVec 128)
  deriving DecidableEq, Repr

/-- The results of the calls. -/
def sealAll (c : EnvelopeCipher) : List SealCall → List (Except SyncError SealedFrame)
  | [] => []
  | x :: calls =>
    let (r, c) := c.seal A x.plaintext x.aad x.random
    r :: sealAll c calls

/-- The sequence number of a frame, if the call returned one. -/
def frameSequence : Except SyncError SealedFrame → Option (BitVec 64)
  | .ok frame => some (nonceSequence frame.nonce)
  | .error _ => none

/-- The numbers of the returned frames grow, so that no nonce prefix is used twice under the key,
and a cipher that is exhausted stays exhausted. -/
structure Unrepeated (results : List (Except SyncError SealedFrame)) : Prop where
  increasing : (results.filterMap frameSequence).Pairwise (· < ·)
  fresh : (results.filterMap frameSequence).Nodup
  exhausted : results.Pairwise fun r later => r = .error .nonceExhausted → later = .error .nonceExhausted

/-! ## One call -/

variable {A} {c : EnvelopeCipher} {calls : List SealCall} {x : SealCall} {j : Nat}

/-- A call uses up one number, whatever it returns. -/
theorem seal_next (c : EnvelopeCipher) (plaintext aad : Bytes) (random : Option (BitVec 128)) :
    (c.seal A plaintext aad random).2 = { c with nextSealSequence := c.nextSealSequence + 1 } := by
  unfold EnvelopeCipher.seal
  dsimp only
  split_ifs
  · rfl
  · split
    · rfl
    · split <;> rfl

/-- The last number of all is the one that is refused. -/
theorem seal_exhausted_iff {plaintext aad : Bytes} {random : Option (BitVec 128)} :
    (c.seal A plaintext aad random).1 = .error .nonceExhausted ↔
      c.nextSealSequence = BitVec.allOnes 64 := by
  unfold EnvelopeCipher.seal
  dsimp only
  split_ifs with hn
  · exact iff_of_true rfl hn
  · refine iff_of_false (fun h => ?_) hn
    split at h
    · cases h
    · split at h <;> cases h

/-- A frame has the number that its call drew. -/
theorem seal_sequence {plaintext aad : Bytes} {random : Option (BitVec 128)} {n : BitVec 64}
    (h : frameSequence (c.seal A plaintext aad random).1 = some n) : n = c.nextSealSequence := by
  unfold EnvelopeCipher.seal at h
  dsimp only at h
  split_ifs at h
  · cases h
  · split at h
    · cases h
    · split at h
      · cases h
      · exact (Option.some.inj h).symm.trans (nonceSequence_append ..)

/-! ## All calls -/

/-- The cipher at call `j`. -/
def atCall (c : EnvelopeCipher) (j : Nat) : EnvelopeCipher :=
  { c with nextSealSequence := c.nextSealSequence + BitVec.ofNat 64 j }

theorem atCall_succ (c : EnvelopeCipher) (j : Nat) :
    atCall { c with nextSealSequence := c.nextSealSequence + 1 } j = atCall c (j + 1) := by
  simp only [atCall, EnvelopeCipher.mk.injEq, true_and, and_true]
  rw [BitVec.ofNat_add, BitVec.add_assoc]
  exact congrArg _ (BitVec.add_comm _ _)

theorem sealAll_getElem? (c : EnvelopeCipher) (calls : List SealCall) (j : Nat) :
    (sealAll A c calls)[j]? = calls[j]?.map fun x => ((c.atCall j).seal A x.plaintext x.aad x.random).1 := by
  induction calls generalizing c j with
  | nil => rfl
  | cons x calls ih =>
    simp only [sealAll, seal_next]
    cases j with
    | zero => simp [atCall]
    | succ j => rw [List.getElem?_cons_succ, ih, atCall_succ, List.getElem?_cons_succ]

/-- What was returned at `j` is the result of a call with that number. -/
theorem exists_call {r : Except SyncError SealedFrame} (h : (sealAll A c calls)[j]? = some r) :
    j < calls.length ∧ ∃ x : SealCall, ((c.atCall j).seal A x.plaintext x.aad x.random).1 = r := by
  rw [sealAll_getElem?] at h
  obtain ⟨x, hx, hr⟩ := Option.map_eq_some_iff.mp h
  exact ⟨(List.getElem?_eq_some_iff.mp hx).1, x, hr⟩

/-- The number of call `j` of a new cipher, before the counter wraps. -/
theorem toNat_atCall (hc : c.nextSealSequence = 1) (hj : j < 2 ^ 64 - 1) :
    (c.atCall j).nextSealSequence.toNat = j + 1 := by
  have hone : (1 : BitVec 64).toNat = 1 := rfl
  simp only [atCall, hc, BitVec.toNat_add, BitVec.toNat_ofNat, hone]
  omega

theorem atCall_exhausted_iff (hc : c.nextSealSequence = 1) (hj : j < 2 ^ 64 - 1) :
    (c.atCall j).nextSealSequence = BitVec.allOnes 64 ↔ j = 2 ^ 64 - 2 := by
  rw [← BitVec.toNat_inj, toNat_atCall hc hj, BitVec.toNat_allOnes]
  omega

/-- No number is used twice before they come round. -/
theorem unrepeated_of_lt (hc : c.nextSealSequence = 1) (hlen : calls.length < 2 ^ 64) :
    Unrepeated (sealAll A c calls) := by
  have hincreasing : ((sealAll A c calls).filterMap frameSequence).Pairwise (· < ·) := by
    rw [List.pairwise_filterMap, List.pairwise_iff_getElem]
    intro i j hi hj hij n hn m hm
    obtain ⟨hi', x, hx⟩ := exists_call (List.getElem?_eq_getElem hi)
    obtain ⟨hj', y, hy⟩ := exists_call (List.getElem?_eq_getElem hj)
    rw [← hx] at hn
    rw [← hy] at hm
    rw [seal_sequence hn, seal_sequence hm, BitVec.lt_def, toNat_atCall hc (by omega),
      toNat_atCall hc (by omega)]
    omega
  refine ⟨hincreasing, hincreasing.imp BitVec.ne_of_lt, ?_⟩
  rw [List.pairwise_iff_getElem]
  intro i j hi hj hij hexhausted
  obtain ⟨hi', x, hx⟩ := exists_call (List.getElem?_eq_getElem hi)
  obtain ⟨hj', -⟩ := exists_call (List.getElem?_eq_getElem hj)
  -- The exhausted call is the last one that there is room for.
  rw [← hx, seal_exhausted_iff, atCall_exhausted_iff hc (by omega)] at hexhausted
  omega

/-- The call after the refused one draws number 0, and is not refused. -/
theorem not_exhausted_of_wrap (hc : c.nextSealSequence = 1) (hlen : 2 ^ 64 ≤ calls.length) :
    (sealAll A c calls)[2 ^ 64 - 2]? = some (.error .nonceExhausted) ∧
      ∃ r, (sealAll A c calls)[2 ^ 64 - 1]? = some r ∧ r ≠ .error .nonceExhausted := by
  have hcall : ∀ j < 2 ^ 64, ∃ x, calls[j]? = some x := fun j hj =>
    ⟨_, List.getElem?_eq_getElem (Nat.lt_of_lt_of_le hj hlen)⟩
  constructor
  · obtain ⟨x, hx⟩ := hcall (2 ^ 64 - 2) (by decide)
    rw [sealAll_getElem?, hx, Option.map_some, Option.some.injEq, seal_exhausted_iff,
      atCall_exhausted_iff hc (by decide)]
  · obtain ⟨x, hx⟩ := hcall (2 ^ 64 - 1) (by decide)
    refine ⟨_, by rw [sealAll_getElem?, hx, Option.map_some], fun h => ?_⟩
    have hzero : (c.atCall (2 ^ 64 - 1)).nextSealSequence = 0 := by
      have hwrap : (1 : BitVec 64) + BitVec.ofNat 64 (2 ^ 64 - 1) = 0 := by decide
      rw [atCall, hc]
      exact hwrap
    rw [seal_exhausted_iff, hzero] at h
    exact absurd h (by decide)

/-- A cipher of a session never uses a nonce prefix twice, and stays exhausted, exactly as long as
fewer than `2^64` calls were made on it. -/
theorem seals_unrepeated (A : Aead) (C : Crypto) (session : SessionSecret) (role : Role)
    (calls : List SealCall) :
    Unrepeated (sealAll A (Channel.start C session role).cipher calls) ↔ calls.length < 2 ^ 64 := by
  have hc : (Channel.start C session role).cipher.nextSealSequence = 1 := by cases role <;> rfl
  refine ⟨fun h => ?_, unrepeated_of_lt hc⟩
  by_contra hlen
  obtain ⟨hlast, r, hr, hne⟩ := not_exhausted_of_wrap (A := A) hc (Nat.not_lt.mp hlen)
  obtain ⟨hi, hlast⟩ := List.getElem?_eq_some_iff.mp hlast
  obtain ⟨hj, hr⟩ := List.getElem?_eq_some_iff.mp hr
  have hexhausted := List.pairwise_iff_getElem.mp h.exhausted _ _ hi hj (by decide) hlast
  exact hne (hr.symm.trans hexhausted)

/-- A message that is sealed again and again. -/
def hello : SealCall := ⟨[104], [1], some 9⟩

/-- Call `2^64` gets the number of the first call, and with the same random bits the same nonce and
frame. -/
theorem seals_wrapped :
    ∃ results, results = sealAll Channel.headerAead (Channel.start Crypto.affine ⟨3⟩ .client).cipher
        (List.replicate (2 ^ 64 + 1) hello) ∧
      results[2 ^ 64 - 2]? = some (.error .nonceExhausted) ∧
      (∃ frame, results[0]? = some (.ok frame) ∧ results[2 ^ 64]? = some (.ok frame)) ∧
        ¬ Unrepeated results := by
  have hc : (Channel.start Crypto.affine ⟨3⟩ .client).cipher.nextSealSequence = 1 := rfl
  have hlen : 2 ^ 64 ≤ (List.replicate (2 ^ 64 + 1) hello).length := by
    rw [List.length_replicate]; decide
  have hcall : ∀ j ≤ 2 ^ 64, (List.replicate (2 ^ 64 + 1) hello)[j]? = some hello := fun j hj =>
    List.getElem?_replicate_of_lt (Nat.lt_succ_of_le hj)
  refine ⟨_, rfl, (not_exhausted_of_wrap hc hlen).1, ⟨Channel.firstFrame, ?_, ?_⟩, ?_⟩
  · rw [sealAll_getElem?, hcall 0 (by decide)]
    decide +kernel
  · rw [sealAll_getElem?, hcall _ (Nat.le_refl _)]
    decide +kernel
  · rw [seals_unrepeated]
    exact Nat.not_lt.mpr hlen

end Portty.EnvelopeCipher
