import Mathlib.Data.List.Basic

/-!
# UTF-16

`points` reads a text of code units as its code points, a surrogate outside a pair by itself. A text
is well formed if no surrogate is left.

* `points_append`: the code points of two texts, unless a pair is cut.
* `WellFormed.cut_iff`: a cut of a well-formed text is inside a pair on both sides of it, or on
  none.
* `points_of_plain`, `lossy_of_plain`: a text without surrogates.
-/

namespace Utf16

/-- The first unit of a pair. -/
def isHigh (u : UInt16) : Bool := 0xD800 ≤ u.toNat && u.toNat ≤ 0xDBFF

/-- The second unit of a pair. -/
def isLow (u : UInt16) : Bool := 0xDC00 ≤ u.toNat && u.toNat ≤ 0xDFFF

/-- The code points of a text. -/
def points : List UInt16 → List Nat
  | [] => []
  | [u] => [u.toNat]
  | u :: v :: rest =>
    if isHigh u && isLow v then (0x10000 + (u.toNat - 0xD800) * 0x400 + (v.toNat - 0xDC00)) :: points rest
    else u.toNat :: points (v :: rest)

/-- A character, `U+FFFD` for a surrogate. -/
def scalar (n : Nat) : Char := if n.isValidChar then Char.ofNat n else '\uFFFD'

/-- `String::from_utf16_lossy` -/
def lossy (text : List UInt16) : List Char := (points text).map scalar

/-- No surrogate stands alone. -/
def WellFormed (text : List UInt16) : Prop := ∀ n ∈ points text, n < 0xD800 ∨ 0xDFFF < n

instance : DecidablePred WellFormed :=
  fun text => inferInstanceAs (Decidable (∀ n ∈ points text, _))

/-- The last unit is the first half of a pair. -/
def endsHigh (text : List UInt16) : Bool := text.getLast?.any isHigh

/-- The first unit is the second half of a pair. -/
def startsLow (text : List UInt16) : Bool := text.head?.any isLow

/-- No pair is cut between two texts. -/
def Apart (xs ys : List UInt16) : Prop := ¬ (endsHigh xs = true ∧ startsLow ys = true)

instance (xs ys : List UInt16) : Decidable (Apart xs ys) := inferInstanceAs (Decidable (¬ _))

variable {u v : UInt16} {n : Nat} {text rest xs ys zs : List UInt16}

theorem not_isLow_of_isHigh (h : isHigh u = true) : isLow u = false := by
  simp only [isHigh, isLow, Bool.and_eq_true, Bool.and_eq_false_iff, decide_eq_true_eq,
    decide_eq_false_iff_not] at *
  omega

@[simp] theorem endsHigh_nil : endsHigh [] = false := rfl

@[simp] theorem startsLow_nil : startsLow [] = false := rfl

@[simp] theorem endsHigh_singleton (u : UInt16) : endsHigh [u] = isHigh u := by simp [endsHigh]

@[simp] theorem endsHigh_cons_cons (u v : UInt16) (rest : List UInt16) :
    endsHigh (u :: v :: rest) = endsHigh (v :: rest) := by
  simp [endsHigh, List.getLast?_cons_cons]

@[simp] theorem startsLow_cons (u : UInt16) (rest : List UInt16) :
    startsLow (u :: rest) = isLow u := rfl

/-! ## Code points -/

/-- Where no pair is parted, the points are those of the parts. -/
theorem points_append (h : Apart xs ys) : points (xs ++ ys) = points xs ++ points ys := by
  induction xs using points.induct with
  | case1 => rfl
  | case2 u =>
    cases ys with
    | nil => rfl
    | cons v rest =>
      have hpair : ¬ (isHigh u && isLow v) = true := by
        rw [Bool.and_eq_true]
        exact fun hp => h ⟨(endsHigh_singleton u).trans hp.1, hp.2⟩
      exact if_neg hpair
  | case3 u v rest hpair ih =>
    have hrest : Apart rest ys := by
      rintro ⟨hhigh, hlow⟩
      cases rest with
      | nil => cases hhigh
      | cons w rest => exact h ⟨by simpa using hhigh, hlow⟩
    rw [List.cons_append, List.cons_append, points, points, if_pos hpair, if_pos hpair, ih hrest,
      List.cons_append]
  | case4 u v rest hpair ih =>
    have hrest : Apart (v :: rest) ys := fun hcut => h ⟨by simpa using hcut.1, hcut.2⟩
    rw [List.cons_append, List.cons_append, points, points, if_neg hpair, if_neg hpair,
      ← List.cons_append, ih hrest, List.cons_append]

/-- A unit that cannot be the first half of a pair is a code point by itself. -/
theorem points_cons (h : isHigh u = false) (rest : List UInt16) :
    points (u :: rest) = u.toNat :: points rest :=
  points_append fun hcut : endsHigh [u] = true ∧ startsLow rest = true => by simp [h] at hcut

/-- A unit that is no surrogate is one of the code points. -/
theorem mem_points (hhigh : isHigh u = false) (hlow : isLow u = false) (h : u ∈ text) :
    u.toNat ∈ points text := by
  obtain ⟨xs, ys, rfl⟩ := List.append_of_mem h
  have hapart : Apart xs (u :: ys) := fun hcut => by simp [hlow] at hcut
  rw [points_append hapart, points_cons hhigh]
  exact List.mem_append_right _ List.mem_cons_self

theorem points_replicate_append (h : isHigh u = false) (n : Nat) (text : List UInt16) :
    points (List.replicate n u ++ text) = List.replicate n u.toNat ++ points text := by
  induction n with
  | zero => rfl
  | succ n ih => rw [List.replicate_succ, List.cons_append, points_cons h, ih, List.replicate_succ, List.cons_append]

/-- A text that ends within a pair is not well-formed. -/
theorem mem_points_of_endsHigh (h : endsHigh xs = true) :
    ∃ n ∈ points xs, 0xD800 ≤ n ∧ n ≤ 0xDFFF := by
  induction xs using points.induct with
  | case1 => cases h
  | case2 u =>
    simp only [endsHigh_singleton, isHigh, Bool.and_eq_true, decide_eq_true_eq] at h
    exact ⟨u.toNat, List.mem_singleton.mpr rfl, h.1, by omega⟩
  | case3 u v rest hpair ih =>
    rw [Bool.and_eq_true] at hpair
    rw [endsHigh_cons_cons] at h
    cases rest with
    | nil =>
      rw [endsHigh_singleton] at h
      rw [not_isLow_of_isHigh h] at hpair
      cases hpair.2
    | cons w rest =>
      rw [endsHigh_cons_cons] at h
      obtain ⟨n, hn, hrange⟩ := ih h
      rw [points, if_pos (Bool.and_eq_true _ _ ▸ hpair)]
      exact ⟨n, List.mem_cons_of_mem _ hn, hrange⟩
  | case4 u v rest hpair ih =>
    obtain ⟨n, hn, hrange⟩ := ih (by simpa using h)
    rw [points, if_neg hpair]
    exact ⟨n, List.mem_cons_of_mem _ hn, hrange⟩

theorem mem_points_of_startsLow (h : startsLow ys = true) :
    ∃ n ∈ points ys, 0xD800 ≤ n ∧ n ≤ 0xDFFF := by
  cases ys with
  | nil => cases h
  | cons u rest =>
    rw [startsLow_cons] at h
    have hhigh : isHigh u = false := by
      by_contra hhigh
      rw [not_isLow_of_isHigh (eq_true_of_ne_false hhigh)] at h
      cases h
    simp only [isLow, Bool.and_eq_true, decide_eq_true_eq] at h
    exact ⟨u.toNat, by rw [points_cons hhigh]; exact List.mem_cons_self, by omega, h.2⟩

/-- In a well-formed text, what comes before a cut ends inside a pair exactly if what follows starts
inside it. -/
theorem WellFormed.cut_iff (h : WellFormed (xs ++ ys)) :
    endsHigh xs = true ↔ startsLow ys = true := by
  by_cases hcut : endsHigh xs = true ∧ startsLow ys = true
  · exact iff_of_true hcut.1 hcut.2
  · have hpoints := points_append hcut
    refine iff_of_false (fun hhigh => ?_) (fun hlow => ?_)
    · obtain ⟨n, hn, hrange⟩ := mem_points_of_endsHigh hhigh
      have := h n (hpoints ▸ List.mem_append_left _ hn)
      omega
    · obtain ⟨n, hn, hrange⟩ := mem_points_of_startsLow hlow
      have := h n (hpoints ▸ List.mem_append_right _ hn)
      omega

/-! ## Texts without surrogates -/

theorem points_of_plain (h : ∀ u ∈ text, u.toNat < 0xD800) :
    points text = text.map UInt16.toNat := by
  induction text with
  | nil => rfl
  | cons u rest ih =>
    obtain ⟨hu, hrest⟩ := List.forall_mem_cons.mp h
    have hhigh : isHigh u = false := by
      simp only [isHigh, Bool.and_eq_false_iff, decide_eq_false_iff_not]
      omega
    rw [points_cons hhigh, ih hrest, List.map_cons]

theorem lossy_of_plain (h : ∀ u ∈ text, u.toNat < 0xD800) :
    lossy text = text.map fun u => Char.ofNat u.toNat := by
  rw [lossy, points_of_plain h, List.map_map]
  refine List.map_congr_left fun u hu => ?_
  exact if_pos (Or.inl (h u hu))

end Utf16
