import Mathlib.Data.List.Basic

/-!
# Keeping the good entries, once each

`keepAll ok key l` are the entries of `l` that are `ok`, without those whose key an earlier one has.

* `keepAll_keepAll`: keeping twice is keeping once.
* `mem_keepAll`: where a key says all, every good entry is kept.
-/

namespace Keep

variable {α κ : Type} [DecidableEq κ] (ok : α → Bool) (key : α → κ)

/-- The next entry. -/
def keep (kept : List α) (x : α) : List α :=
  if ok x then if kept.any fun y => key y = key x then kept else kept ++ [x] else kept

/-- The first entry of each key. -/
def keepAll (l : List α) : List α := l.foldl (keep ok key) []

variable {ok key} {kept l : List α} {x : α}

/-- An entry is kept, or there is one of its key, or it is not fit. -/
theorem keep_cases (ok : α → Bool) (key : α → κ) (kept : List α) (x : α) :
    (keep ok key kept x = kept ∧ (ok x = true → ∃ y ∈ kept, key y = key x)) ∨
    (keep ok key kept x = kept ++ [x] ∧ ok x = true ∧ ∀ y ∈ kept, key y ≠ key x) := by
  unfold keep
  by_cases hok : ok x = true
  · rw [if_pos hok]
    by_cases hany : (kept.any fun y => key y = key x) = true
    · rw [if_pos hany]
      simp only [List.any_eq_true, decide_eq_true_eq] at hany
      exact .inl ⟨rfl, fun _ => hany⟩
    · rw [if_neg hany]
      simp only [List.any_eq_true, decide_eq_true_eq, not_exists, not_and] at hany
      exact .inr ⟨rfl, hok, hany⟩
  · rw [if_neg hok]
    exact .inl ⟨rfl, fun h => absurd h hok⟩

/-- All entries are good, and no two have one key. -/
def Kept (ok : α → Bool) (key : α → κ) (l : List α) : Prop :=
  (∀ x ∈ l, ok x = true) ∧ l.Pairwise fun x y => key x ≠ key y

theorem Kept.keep (h : Kept ok key kept) (x : α) : Kept ok key (keep ok key kept x) := by
  obtain ⟨heq, -⟩ | ⟨heq, hok, hnew⟩ := keep_cases ok key kept x
  · rwa [heq]
  · rw [heq]
    refine ⟨fun y hy => ?_, List.pairwise_append.mpr ⟨h.2, List.pairwise_singleton _ _, ?_⟩⟩
    · obtain hy | hy := List.mem_append.mp hy
      · exact h.1 y hy
      · rwa [List.mem_singleton.mp hy]
    · intro y hy z hz
      rw [List.mem_singleton.mp hz]
      exact hnew y hy

theorem Kept.foldl (h : Kept ok key kept) (l : List α) :
    Kept ok key (l.foldl (Keep.keep ok key) kept) := by
  induction l generalizing kept with
  | nil => exact h
  | cons x l ih => exact ih (h.keep x)

theorem kept_keepAll (l : List α) : Kept ok key (keepAll ok key l) :=
  Kept.foldl ⟨by simp, List.Pairwise.nil⟩ l

/-- All of them are kept. -/
theorem Kept.foldl_eq (h : Kept ok key (kept ++ l)) :
    l.foldl (Keep.keep ok key) kept = kept ++ l := by
  induction l generalizing kept with
  | nil => simp
  | cons x l ih =>
    have hkeep : Keep.keep ok key kept x = kept ++ [x] := by
      obtain ⟨-, hold⟩ | ⟨heq, -⟩ := keep_cases ok key kept x
      · obtain ⟨y, hy, hkey⟩ := hold (h.1 x (by simp))
        exact absurd hkey ((List.pairwise_append.mp h.2).2.2 y hy x List.mem_cons_self)
      · exact heq
    rw [List.foldl_cons, hkeep, ih (by simpa using h), List.append_assoc, List.singleton_append]

theorem keepAll_keepAll (l : List α) : keepAll ok key (keepAll ok key l) = keepAll ok key l :=
  Kept.foldl_eq (kept_keepAll l)

/-- Every entry that is fit is kept, if the keys tell them apart. -/
theorem mem_foldl_keep (hkey : ∀ x y, key x = key y → x = y) :
    x ∈ l.foldl (keep ok key) kept ↔ x ∈ kept ∨ (x ∈ l ∧ ok x = true) := by
  induction l generalizing kept with
  | nil => simp
  | cons y l ih =>
    rw [List.foldl_cons, ih]
    obtain ⟨heq, hold⟩ | ⟨heq, hok, -⟩ := keep_cases ok key kept y
    · rw [heq]
      constructor
      · rintro (hx | ⟨hx, hokx⟩)
        · exact .inl hx
        · exact .inr ⟨List.mem_cons_of_mem _ hx, hokx⟩
      · rintro (hx | ⟨hx, hokx⟩)
        · exact .inl hx
        · obtain rfl | hx := List.mem_cons.mp hx
          · obtain ⟨z, hz, hzx⟩ := hold hokx
            exact .inl (hkey z x hzx ▸ hz)
          · exact .inr ⟨hx, hokx⟩
    · rw [heq, List.mem_append, List.mem_singleton, List.mem_cons]
      constructor
      · rintro ((hx | rfl) | ⟨hx, hokx⟩)
        · exact .inl hx
        · exact .inr ⟨.inl rfl, hok⟩
        · exact .inr ⟨.inr hx, hokx⟩
      · rintro (hx | ⟨rfl | hx, hokx⟩)
        · exact .inl (.inl hx)
        · exact .inl (.inr rfl)
        · exact .inr ⟨hx, hokx⟩

theorem mem_keepAll (hkey : ∀ x y, key x = key y → x = y) :
    x ∈ keepAll ok key l ↔ x ∈ l ∧ ok x = true := by
  rw [keepAll, mem_foldl_keep hkey]
  simp

end Keep
