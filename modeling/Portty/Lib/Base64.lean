import Mathlib.Data.Nat.Notation

/-!
# Base64 with the URL-safe alphabet and without padding

* `decode_encode`: what is encoded is decoded again.
* `length_encode`, `mem_encode`: the length and the characters of an encoding.
-/

namespace Base64

/-- The alphabet of URLs. -/
def digits : List Char := "ABCDEFGHIJKLMNOPQRSTUVWXYZabcdefghijklmnopqrstuvwxyz0123456789-_".toList

/-- The character of six bits. -/
def digit (n : Nat) : Char := digits.getD n 'A'

/-- What a digit stands for. -/
def value (c : Char) : Option Nat := digits.idxOf? c

/-- Four digits for three bytes. -/
def encode : List UInt8 → List Char
  | a :: b :: c :: rest =>
    digit (a.toNat / 4) :: digit (a.toNat % 4 * 16 + b.toNat / 16) :: digit (b.toNat % 16 * 4 + c.toNat / 64) ::
      digit (c.toNat % 64) :: encode rest
  | [a, b] => [digit (a.toNat / 4), digit (a.toNat % 4 * 16 + b.toNat / 16), digit (b.toNat % 16 * 4)]
  | [a] => [digit (a.toNat / 4), digit (a.toNat % 4 * 16)]
  | [] => []

/-- One character cannot be left over, and the bits that are left over are zero. -/
def decode : List Char → Option (List UInt8)
  | w :: x :: y :: z :: rest => do
    let w ← value w
    let x ← value x
    let y ← value y
    let z ← value z
    let bytes ← decode rest
    some (UInt8.ofNat (w * 4 + x / 16) :: UInt8.ofNat (x % 16 * 16 + y / 4) :: UInt8.ofNat (y % 4 * 64 + z) :: bytes)
  | [w, x, y] => do
    let w ← value w
    let x ← value x
    let y ← (value y).filter (· % 4 = 0)
    some [UInt8.ofNat (w * 4 + x / 16), UInt8.ofNat (x % 16 * 16 + y / 4)]
  | [w, x] => do
    let w ← value w
    let x ← (value x).filter (· % 16 = 0)
    some [UInt8.ofNat (w * 4 + x / 16)]
  | [_] => none
  | [] => some []

theorem value_digit : ∀ n < 64, value (digit n) = some n := by
  decide +kernel

theorem digit_mem : ∀ n, digit n ∈ digits := by
  intro n
  rw [digit, List.getD_eq_getElem?_getD]
  cases h : digits[n]? with
  | none => decide
  | some c => exact List.mem_of_getElem? h

theorem ofNat_eq {n : Nat} {b : UInt8} (h : n = b.toNat) : UInt8.ofNat n = b := by
  rw [h, UInt8.ofNat_toNat]

theorem first_byte (a b : UInt8) :
    UInt8.ofNat (a.toNat / 4 * 4 + (a.toNat % 4 * 16 + b.toNat / 16) / 16) = a := by
  have := b.toNat_lt
  exact ofNat_eq (by omega)

theorem second_byte (a b c : UInt8) :
    UInt8.ofNat ((a.toNat % 4 * 16 + b.toNat / 16) % 16 * 16 + (b.toNat % 16 * 4 + c.toNat / 64) / 4) = b := by
  have hb := b.toNat_lt
  have hc := c.toNat_lt
  exact ofNat_eq (by omega)

theorem third_byte (b c : UInt8) :
    UInt8.ofNat ((b.toNat % 16 * 4 + c.toNat / 64) % 4 * 64 + c.toNat % 64) = c := by
  have := c.toNat_lt
  exact ofNat_eq (by omega)

/-- What is encoded is decoded. -/
theorem decode_encode (bytes : List UInt8) : decode (encode bytes) = some bytes := by
  induction bytes using encode.induct with
  | case1 a b c rest ih =>
    have ha := a.toNat_lt
    have hb := b.toNat_lt
    have hc := c.toNat_lt
    rw [encode, decode, value_digit _ (by omega), value_digit _ (by omega),
      value_digit _ (by omega), value_digit _ (by omega), ih]
    simp only [Option.bind_eq_bind, Option.bind_some, first_byte, second_byte, third_byte]
  | case2 a b =>
    have ha := a.toNat_lt
    have hb := b.toNat_lt
    have hzero : (b.toNat % 16 * 4) % 4 = 0 := by omega
    have hsecond := second_byte a b 0
    rw [UInt8.toNat_zero, Nat.zero_div, Nat.add_zero] at hsecond
    rw [encode, decode, value_digit _ (by omega), value_digit _ (by omega),
      value_digit _ (by omega)]
    simp only [Option.bind_eq_bind, Option.bind_some, Option.filter_some, hzero, decide_true,
      if_true, first_byte, hsecond]
  | case3 a =>
    have ha := a.toNat_lt
    have hzero : (a.toNat % 4 * 16) % 16 = 0 := by omega
    have hfirst := first_byte a 0
    rw [UInt8.toNat_zero, Nat.zero_div, Nat.add_zero] at hfirst
    rw [encode, decode, value_digit _ (by omega), value_digit _ (by omega)]
    simp only [Option.bind_eq_bind, Option.bind_some, Option.filter_some, hzero, decide_true,
      if_true, hfirst]
  | case4 => rfl

theorem length_encode (bytes : List UInt8) :
    (encode bytes).length = (4 * bytes.length + 2) / 3 := by
  induction bytes using encode.induct with
  | case1 a b c rest ih =>
    simp only [encode, List.length_cons, ih]
    omega
  | case2 a b => simp [encode]
  | case3 a => simp [encode]
  | case4 => rfl

/-- Only digits are used. -/
theorem mem_encode {bytes : List UInt8} {c : Char} (h : c ∈ encode bytes) : c ∈ digits := by
  induction bytes using encode.induct with
  | case1 a b d rest ih =>
    simp only [encode, List.mem_cons] at h
    obtain rfl | rfl | rfl | rfl | h := h
    · exact digit_mem _
    · exact digit_mem _
    · exact digit_mem _
    · exact digit_mem _
    · exact ih h
  | case2 a b =>
    simp only [encode, List.mem_cons, List.not_mem_nil, or_false] at h
    obtain rfl | rfl | rfl := h <;> exact digit_mem _
  | case3 a =>
    simp only [encode, List.mem_cons, List.not_mem_nil, or_false] at h
    obtain rfl | rfl := h <;> exact digit_mem _
  | case4 => exact absurd h List.not_mem_nil

end Base64
