import Mathlib.Data.List.Basic

/-!
# Tables

A table is a list whose rows are named by their index. Rows are changed in place (`List.modify`) and
new rows are added at the end, so an index names the same row for ever.

* `modify_some`, `modify_cases`: what a lookup finds after a row was changed.
* `concat_some`, `concat_cases`: what it finds after a row was added.
* `mem_replace`, `mem_replace_of_ne`, `countP_replace`: the rows after one was replaced.
-/

namespace Table

variable {α : Type} {l : List α} {i j : Nat} {x y : α} {f : α → α}

theorem modify_some (h : l[j]? = some x) (i : Nat) (f : α → α) :
    (l.modify i f)[j]? = some (if j = i then f x else x) := by
  rw [List.getElem?_modify, h]
  by_cases hj : i = j
  · simp [hj]
  · simp [hj, Ne.symm hj]

theorem modify_self (h : l[i]? = some x) (f : α → α) : (l.modify i f)[i]? = some (f x) := by
  rw [modify_some h, if_pos rfl]

theorem modify_of_ne (hj : j ≠ i) (f : α → α) : (l.modify i f)[j]? = l[j]? := by
  exact List.getElem?_modify_ne f l (Ne.symm hj)

/-- A row after the change is the changed one, or it was there before. -/
theorem modify_cases (h : (l.modify i f)[j]? = some y) :
    (j = i ∧ ∃ x, l[i]? = some x ∧ y = f x) ∨ j ≠ i ∧ l[j]? = some y := by
  by_cases hj : j = i
  · subst hj
    rw [List.getElem?_modify_eq] at h
    obtain ⟨x, hx, rfl⟩ := Option.map_eq_some_iff.mp h
    exact .inl ⟨rfl, x, hx, rfl⟩
  · rw [modify_of_ne hj] at h
    exact .inr ⟨hj, h⟩

theorem concat_some (h : l[i]? = some x) (y : α) : (l ++ [y])[i]? = some x := by
  have hi := (List.getElem?_eq_some_iff.mp h).1
  rw [List.getElem?_append_left hi, h]

/-- A row after the addition was there before, or it is the new one. -/
theorem concat_cases (h : (l ++ [y])[i]? = some x) : l[i]? = some x ∨ i = l.length ∧ x = y := by
  rw [List.getElem?_append] at h
  split at h
  · exact .inl h
  · have hx := List.mem_singleton.mp (List.mem_of_getElem? h)
    have hi := (List.getElem?_eq_some_iff.mp h).1
    simp only [List.length_singleton] at hi
    exact .inr ⟨by omega, hx⟩

theorem mem_replace (h : x ∈ l.modify i fun _ => y) : x ∈ l ∨ x = y := by
  obtain ⟨j, hj⟩ := List.mem_iff_getElem?.mp h
  rcases modify_cases hj with ⟨-, x, -, rfl⟩ | ⟨-, hj⟩
  · exact .inr rfl
  · exact .inl (List.mem_of_getElem? hj)

theorem mem_replace_eraseIdx (h : x ∈ l.modify i fun _ => y) : x = y ∨ x ∈ l.eraseIdx i := by
  obtain ⟨j, hj⟩ := List.mem_iff_getElem?.mp h
  rcases modify_cases hj with ⟨-, x, -, rfl⟩ | ⟨hne, hj⟩
  · exact .inl rfl
  · exact .inr (List.mem_eraseIdx_iff_getElem?.mpr ⟨j, hne, hj⟩)

/-- The other rows stay. -/
theorem mem_replace_of_ne {old : α} (hi : l[i]? = some old) (h : x ∈ l) (hne : x ≠ old) :
    x ∈ l.modify i fun _ => y := by
  obtain ⟨j, hj⟩ := List.mem_iff_getElem?.mp h
  have hji : j ≠ i := by
    rintro rfl
    exact hne (Option.some.inj (hj.symm.trans hi))
  exact List.mem_of_getElem? ((modify_of_ne hji _).trans hj)

theorem mem_replace_self {old : α} (hi : l[i]? = some old) : y ∈ l.modify i fun _ => y :=
  List.mem_of_getElem? (modify_self hi _)

/-- What the count gains and loses when an entry is replaced. -/
theorem countP_replace {old : α} (hi : l[i]? = some old) (p : α → Bool) :
    (l.modify i fun _ => y).countP p + (p old).toNat = l.countP p + (p y).toNat := by
  induction l generalizing i with
  | nil => cases hi
  | cons x l ih =>
    cases i with
    | zero =>
      cases hi
      simp only [List.modify_zero_cons, List.countP_cons]
      cases p old <;> cases p y <;> simp
    | succ i =>
      have := ih (i := i) hi
      simp only [List.modify_succ_cons, List.countP_cons]
      omega

end Table
