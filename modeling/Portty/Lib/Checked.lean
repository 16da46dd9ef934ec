import Mathlib.Data.List.Basic

/-!
# Functions that leave early or panic

`Exec` is the result of a function that returns an `Option` and can panic. `+`, `-`, `*` and `/` on
it are those of `i64`, which panic on overflow.
-/

namespace Checked

/-- How a computation ends. -/
inductive Exec (α : Type) where
  | panics
  | leaves
  | returns (a : α)
  deriving DecidableEq

variable {α β : Type}

namespace Exec

/-- What comes after a value. -/
def bind : Exec α → (α → Exec β) → Exec β
  | panics, _ => panics
  | leaves, _ => leaves
  | returns a, f => f a

instance : Monad Exec where
  pure := returns
  bind := bind

/-- `?` -/
def lift : Option α → Exec α
  | .none => leaves
  | .some a => returns a

/-- `if … { return None; }` -/
def leaveIf (c : Prop) [Decidable c] : Exec Unit := if c then leaves else returns ()

@[simp] theorem pure_eq (a : α) : (pure a : Exec α) = returns a := rfl

@[simp] theorem returns_bind (a : α) (f : α → Exec β) : (returns a >>= f) = f a := rfl

@[simp] theorem leaves_bind (f : α → Exec β) : (leaves >>= f) = leaves := rfl

@[simp] theorem lift_some (a : α) : lift (.some a) = returns a := rfl

theorem leaveIf_neg {c : Prop} [Decidable c] (h : ¬ c) : leaveIf c = returns () := if_neg h

theorem of_bind {x : Exec α} {f : α → Exec β} (h : (x >>= f) ≠ leaves) : x ≠ leaves := by
  rintro rfl
  exact h rfl

theorem of_lift_bind {o : Option α} {f : α → Exec β} (h : (lift o >>= f) ≠ leaves) :
    ∃ a, o = .some a ∧ f a ≠ leaves := by
  cases o with
  | none => exact absurd rfl h
  | some a => exact ⟨a, rfl, h⟩

theorem of_leaveIf_bind {c : Prop} [Decidable c] {f : Unit → Exec β}
    (h : (leaveIf c >>= f) ≠ leaves) :
    ¬ c ∧ f () ≠ leaves := by
  by_cases hc : c
  · rw [leaveIf, if_pos hc] at h
    exact absurd rfl h
  · rw [leaveIf, if_neg hc] at h
    exact ⟨hc, h⟩

end Exec

/-! ## `i64` -/

/-- The least `i64`. -/
def i64Min : Int := -9223372036854775808

/-- The greatest `i64`. -/
def i64Max : Int := 9223372036854775807

open Exec

/-- A result of `i64`. -/
def i64 (a : Int) : Exec Int := if i64Min ≤ a ∧ a ≤ i64Max then returns a else panics

/-- The number, if it is an `i64`. -/
def checked (a : Int) : Option Int := if i64Min ≤ a ∧ a ≤ i64Max then .some a else .none

instance (n : Nat) : OfNat (Exec Int) n := ⟨returns n⟩

instance : Add (Exec Int) := ⟨fun x y => do i64 ((← x) + (← y))⟩

instance : Sub (Exec Int) := ⟨fun x y => do i64 ((← x) - (← y))⟩

instance : Mul (Exec Int) := ⟨fun x y => do i64 ((← x) * (← y))⟩

instance : Neg (Exec Int) := ⟨fun x => do i64 (-(← x))⟩

/-- Towards zero. -/
instance : Div (Exec Int) := ⟨fun x y => do
  let b ← y
  if b = 0 then panics else i64 ((← x).tdiv b)⟩

variable {a b : Int}

theorem i64_eq (hmin : -9223372036854775808 ≤ a) (hmax : a ≤ 9223372036854775807) :
    i64 a = returns a := if_pos ⟨hmin, hmax⟩

theorem checked_eq (hmin : -9223372036854775808 ≤ a) (hmax : a ≤ 9223372036854775807) :
    checked a = .some a :=
  if_pos ⟨hmin, hmax⟩

theorem ofNat_eq (n : Nat) : (OfNat.ofNat n : Exec Int) = returns (OfNat.ofNat n : Int) := rfl

theorem add_eq (hmin : -9223372036854775808 ≤ a + b) (hmax : a + b ≤ 9223372036854775807) :
    (returns a + returns b : Exec Int) = returns (a + b) := i64_eq hmin hmax

theorem sub_eq (hmin : -9223372036854775808 ≤ a - b) (hmax : a - b ≤ 9223372036854775807) :
    (returns a - returns b : Exec Int) = returns (a - b) := i64_eq hmin hmax

theorem mul_eq (hmin : -9223372036854775808 ≤ a * b) (hmax : a * b ≤ 9223372036854775807) :
    (returns a * returns b : Exec Int) = returns (a * b) := i64_eq hmin hmax

theorem neg_eq (hmin : -9223372036854775808 ≤ -a) (hmax : -a ≤ 9223372036854775807) :
    (-returns a : Exec Int) = returns (-a) :=
  i64_eq hmin hmax

theorem div_eq (hpos : 0 < b) (ha : 0 ≤ a) (hmax : a ≤ 9223372036854775807) :
    (returns a / returns b : Exec Int) = returns (a / b) := by
  show (if b = 0 then panics else i64 (a.tdiv b)) = _
  have hnonneg : 0 ≤ a / b := Int.ediv_nonneg ha (Int.le_of_lt hpos)
  have hle : a / b ≤ a := Int.ediv_le_self _ ha
  rw [if_neg (Int.ne_of_gt hpos), Int.tdiv_eq_ediv_of_nonneg ha, i64_eq (by omega) (by omega)]

end Checked
