import Mathlib.Order.Basic
import Mathlib.Order.Lattice

/-!
# Identifiers and secrets of the transport crate

`[u8; n]` is `BitVec (8 * n)`, most significant byte first, so that the order of the numbers is the
order of the arrays.

* `DeviceId` (`identity.rs`), `PairId`, `PairEventKey`, `ResumptionToken` (`handshake.rs`): one
  structure each, as in the source, so that they cannot be mixed up.
* `toBytes`: the bytes of an array, as a slice.
-/

namespace Portty

/-- A slice of bytes (`&[u8]`, `Vec<u8>`). -/
abbrev Bytes := List UInt8

/-- The `n` bytes of an array, most significant first (`to_be_bytes` of an integer). -/
def toBytes (n : Nat) (w : BitVec (8 * n)) : Bytes :=
  (List.range n).map fun i => UInt8.ofNat (w.toNat >>> (8 * (n - 1 - i)))

/-- A device's identity. -/
structure DeviceId where
  bytes : BitVec 128
  deriving DecidableEq, Repr

/-- One explicit pairing generation between two devices. -/
structure PairId where
  bytes : BitVec 128
  deriving DecidableEq, Repr

/-- The key of a pair's asynchronous control events. -/
structure PairEventKey where
  bytes : BitVec 256
  deriving DecidableEq, Repr

/-- A reconnect credential. -/
structure ResumptionToken where
  bytes : BitVec 256
  deriving DecidableEq, Repr

/-- The identifier of one revocation (`RevocationRecord::event_id`). -/
abbrev EventId := BitVec 128

/-- `ResumptionToken::as_bytes`. -/
def ResumptionToken.asBytes (t : ResumptionToken) : Bytes := toBytes 32 t.bytes

theorem DeviceId.toNat_injective : Function.Injective fun d : DeviceId => d.bytes.toNat := by
  rintro ⟨a⟩ ⟨b⟩ h
  exact congrArg _ (BitVec.eq_of_toNat_eq h)

/-- The order of the arrays. -/
instance : LinearOrder DeviceId := LinearOrder.lift' _ DeviceId.toNat_injective

/-! ## The bytes determine the array -/

theorem toBytes_length (n : Nat) (w : BitVec (8 * n)) : (toBytes n w).length = n := by
  simp [toBytes]

/-- Byte `i`, counted from the least significant one. -/
theorem toBytes_getElem (n : Nat) (w : BitVec (8 * n)) {i : Nat} (hi : i < n) :
    (toBytes n w)[n - 1 - i]? = some (UInt8.ofNat (w.toNat >>> (8 * i))) := by
  simp only [toBytes, List.getElem?_map]
  rw [List.getElem?_range (by omega)]
  simp only [Option.map_some]
  congr 4
  omega

theorem toBytes_injective (n : Nat) : Function.Injective (toBytes n) := by
  intro a b h
  apply BitVec.eq_of_getLsbD_eq
  intro j hj
  have hi : j / 8 < n := by omega
  have h8 := toBytes_getElem n a hi
  rw [h, toBytes_getElem n b hi] at h8
  have hn : (b.toNat >>> (8 * (j / 8))) % 256 = (a.toNat >>> (8 * (j / 8))) % 256 := by
    have := congrArg UInt8.toNat (Option.some.inj h8)
    simpa using this
  -- Bit `j` is bit `j % 8` of its byte.
  have hbit : ∀ x : Nat, x.testBit j = ((x >>> (8 * (j / 8))) % 256).testBit (j % 8) := by
    intro x
    rw [show (256 : Nat) = 2 ^ 8 from rfl, Nat.testBit_mod_two_pow, Nat.testBit_shiftRight]
    have : j % 8 < 8 := Nat.mod_lt _ (by omega)
    simp only [this, decide_true, Bool.true_and]
    congr 1
    omega
  simp only [BitVec.getLsbD]
  rw [hbit, hbit, hn]

theorem ResumptionToken.asBytes_injective : Function.Injective ResumptionToken.asBytes := by
  rintro ⟨a⟩ ⟨b⟩ h
  exact congrArg _ (toBytes_injective 32 h)

end Portty
