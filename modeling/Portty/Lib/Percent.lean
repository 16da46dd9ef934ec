import Mathlib.Data.List.Basic

/-!
# Percent escapes

`decode` replaces `%` and two hexadecimal digits by the byte they stand for. `Escapes bare enc
bytes`: `enc` is `bytes` with some of them escaped, in digits of either case, where only `bare` ones
stand for themselves.

* `decode_iff`: what `decode` reads are the escaped forms, whichever bytes are escaped.
* `escapes_and`: escaped forms in which some bytes do not stand at all.
-/

namespace Percent

/-- `%` -/
def percent : UInt8 := 0x25

/-- The value of a hexadecimal digit. -/
def hexDigit (b : UInt8) : Option Nat :=
  if 0x30 ≤ b ∧ b ≤ 0x39 then some (b.toNat - 0x30)
  else if 0x41 ≤ b ∧ b ≤ 0x46 then some (b.toNat - 0x41 + 10)
  else if 0x61 ≤ b ∧ b ≤ 0x66 then some (b.toNat - 0x61 + 10)
  else none

/-- The bytes of a text, if its escapes are whole. -/
def decode : List UInt8 → Option (List UInt8)
  | [] => some []
  | b :: tail =>
    if b = percent then
      match tail with
      | high :: low :: rest =>
        (hexDigit high).bind fun h => (hexDigit low).bind fun l =>
          (decode rest).map (UInt8.ofNat (h * 16 + l) :: ·)
      | _ => none
    else (decode tail).map (b :: ·)

/-- The escaped forms of some bytes. -/
inductive Escapes (bare : UInt8 → Prop) : List UInt8 → List UInt8 → Prop
  | nil : Escapes bare [] []
  | bare {b : UInt8} {enc bytes : List UInt8} (hb : bare b) (h : Escapes bare enc bytes) :
      Escapes bare (b :: enc) (b :: bytes)
  | escaped {high low : UInt8} {h l : Nat} {enc bytes : List UInt8} (hh : hexDigit high = some h)
      (hl : hexDigit low = some l) (hr : Escapes bare enc bytes) :
      Escapes bare (percent :: high :: low :: enc) (UInt8.ofNat (h * 16 + l) :: bytes)

variable {bare p : UInt8 → Prop} {b high low : UInt8} {enc bytes tail rest : List UInt8}

theorem decode_bare (hb : b ≠ percent) : decode (b :: tail) = (decode tail).map (b :: ·) := by
  match tail with
  | [] => exact if_neg hb
  | [_] => exact if_neg hb
  | _ :: _ :: _ => rw [decode, if_neg hb]

theorem decode_escaped : decode (percent :: high :: low :: rest) =
    (hexDigit high).bind fun h => (hexDigit low).bind fun l => (decode rest).map (UInt8.ofNat (h * 16 + l) :: ·) := by
  rw [decode, if_pos rfl]

theorem decode_of_escapes (h : Escapes (· ≠ percent) enc bytes) : decode enc = some bytes := by
  induction h with
  | nil => rfl
  | bare hb _ ih => rw [decode_bare hb, ih, Option.map_some]
  | escaped hh hl _ ih =>
    rw [decode_escaped, hh, hl, ih, Option.bind_some, Option.bind_some, Option.map_some]

/-- What decodes to the bytes is what spells them. -/
theorem decode_iff : decode enc = some bytes ↔ Escapes (· ≠ percent) enc bytes := by
  refine ⟨fun h => ?_, decode_of_escapes⟩
  induction hn : enc.length using Nat.strongRecOn generalizing enc bytes with
  | ind n ih =>
    match enc with
    | [] =>
      cases h
      exact .nil
    | b :: tail =>
      by_cases hb : b = percent
      · rw [hb] at h ⊢
        match tail with
        | [] => cases h
        | [_] => cases h
        | high :: low :: rest =>
          rw [decode_escaped] at h
          obtain ⟨v, hv, h⟩ := Option.bind_eq_some_iff.mp h
          obtain ⟨l, hl, h⟩ := Option.bind_eq_some_iff.mp h
          obtain ⟨more, hmore, rfl⟩ := Option.map_eq_some_iff.mp h
          refine .escaped hv hl (ih rest.length ?_ hmore rfl)
          rw [← hn, List.length_cons, List.length_cons, List.length_cons]
          omega
      · rw [decode_bare hb] at h
        obtain ⟨more, hmore, rfl⟩ := Option.map_eq_some_iff.mp h
        exact .bare hb (ih tail.length (by rw [← hn]; exact Nat.lt_succ_self _) hmore rfl)

/-- Where `%` and the digits may stand, to forbid bytes is to leave them out of the escaped form. -/
theorem escapes_and (hp : p percent) (hdigit : ∀ b, hexDigit b ≠ none → p b) :
    Escapes (fun b => bare b ∧ p b) enc bytes ↔ Escapes bare enc bytes ∧ ∀ b ∈ enc, p b := by
  have hdig {b : UInt8} {v : Nat} (h : hexDigit b = some v) : p b :=
    hdigit b (by rw [h]; exact Option.some_ne_none v)
  constructor
  · intro h
    induction h with
    | nil => exact ⟨.nil, fun b hb => absurd hb List.not_mem_nil⟩
    | bare hb _ ih => exact ⟨.bare hb.1 ih.1, List.forall_mem_cons.mpr ⟨hb.2, ih.2⟩⟩
    | escaped hh hl _ ih =>
      exact ⟨.escaped hh hl ih.1, List.forall_mem_cons.mpr ⟨hp, List.forall_mem_cons.mpr ⟨hdig hh,
        List.forall_mem_cons.mpr ⟨hdig hl, ih.2⟩⟩⟩⟩
  · rintro ⟨h, hall⟩
    induction h with
    | nil => exact .nil
    | bare hb _ ih =>
      obtain ⟨hb', hall⟩ := List.forall_mem_cons.mp hall
      exact .bare ⟨hb, hb'⟩ (ih hall)
    | escaped hh hl _ ih =>
      exact .escaped hh hl (ih (List.forall_mem_cons.mp (List.forall_mem_cons.mp (List.forall_mem_cons.mp hall).2).2).2)

/-- A first byte that is not escaped is the first byte. -/
theorem Escapes.head (h : Escapes bare (b :: enc) bytes) (hb : b ≠ percent) :
    ∃ more, bytes = b :: more := by
  cases h with
  | bare => exact ⟨_, rfl⟩
  | escaped => exact absurd rfl hb

/-- Bytes that need no escape. -/
theorem escapes_self (h : ∀ b ∈ bytes, bare b) : Escapes bare bytes bytes := by
  induction bytes with
  | nil => exact .nil
  | cons b bytes ih =>
    obtain ⟨hb, h⟩ := List.forall_mem_cons.mp h
    exact .bare hb (ih h)

end Percent
