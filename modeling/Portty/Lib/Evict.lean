import Mathlib.Algebra.GroupWithZero.Nat
import Mathlib.Data.List.Basic

/-!
# Evicting the oldest entries

`evict` drops entries from the front of a list, the oldest ones, until the total of the others fits
a limit. Entries that are kept are passed over.

* `evict_eq`: what is left is the kept entries up to a place, and all from there on.
* `evict_fits`: the total fits, or only kept entries are left.
* `filter_evict_kept`: the kept entries stay.
* `filter_evict_suffix`: of entries among which only the last one is kept, the newest stay.
-/

namespace Evict

variable {α : Type} (size : α → Nat) (kept : α → Bool)

/-- `total` is of the entries from here on and of those passed over. -/
def evict (limit : Nat) : Nat → List α → List α
  | _, [] => []
  | total, x :: xs =>
    if total ≤ limit then x :: xs
    else if kept x then x :: evict limit total xs
    else evict limit (total - size x) xs

theorem evict_eq (limit total : Nat) (l : List α) :
    ∃ old new, l = old ++ new ∧ evict size kept limit total l = old.filter kept ++ new := by
  induction l generalizing total with
  | nil => exact ⟨[], [], rfl, rfl⟩
  | cons x xs ih =>
    rw [evict]
    split_ifs with hfit hk
    · exact ⟨[], x :: xs, rfl, rfl⟩
    · obtain ⟨old, new, rfl, he⟩ := ih total
      exact ⟨x :: old, new, rfl, by rw [he, List.filter_cons_of_pos hk, List.cons_append]⟩
    · obtain ⟨old, new, rfl, he⟩ := ih (total - size x)
      exact ⟨x :: old, new, rfl, by rw [he, List.filter_cons_of_neg hk]⟩

theorem evict_sublist (limit total : Nat) (l : List α) :
    (evict size kept limit total l).Sublist l := by
  obtain ⟨old, new, rfl, he⟩ := evict_eq size kept limit total l
  rw [he]
  exact List.filter_sublist.append_right _

theorem filter_evict_kept (limit total : Nat) (l : List α) :
    (evict size kept limit total l).filter kept = l.filter kept := by
  obtain ⟨old, new, rfl, he⟩ := evict_eq size kept limit total l
  rw [he, List.filter_append, List.filter_append, List.filter_filter]
  simp only [Bool.and_self]

variable {l : List α}

/-- The total of what is left, with what was passed over. -/
theorem evict_fits (limit passed total : Nat) (h : total = passed + (l.map size).sum) :
    passed + ((evict size kept limit total l).map size).sum ≤ limit ∨
      ∀ x ∈ evict size kept limit total l, kept x := by
  induction l generalizing total passed with
  | nil => exact .inr (List.forall_mem_nil _)
  | cons x xs ih =>
    rw [List.map_cons, List.sum_cons] at h
    rw [evict]
    split_ifs with hfit hk
    · rw [List.map_cons, List.sum_cons]
      exact .inl (by omega)
    · refine (ih (passed + size x) total (by omega)).imp (fun hle => ?_) fun hall => ?_
      · rw [List.map_cons, List.sum_cons]
        omega
      · exact List.forall_mem_cons.mpr ⟨hk, hall⟩
    · exact ih passed (total - size x) (by omega)

variable {size kept}

/-- Of the entries that are told apart by `p`, the last ones are left. -/
theorem filter_evict_suffix {p : α → Bool} {limit total : Nat}
    (h : ∀ pre x post, l.filter p = pre ++ x :: post → kept x → post = []) :
    (evict size kept limit total l).filter p <:+ l.filter p := by
  obtain ⟨old, new, rfl, he⟩ := evict_eq size kept limit total l
  rw [List.filter_append] at h
  rw [he, List.filter_append, List.filter_append, List.filter_filter,
    List.filter_congr fun x _ => Bool.and_comm _ _, ← List.filter_filter]
  by_cases hnone : ∀ x ∈ old.filter p, ¬ kept x
  · rw [List.filter_eq_nil_iff.mpr hnone]
    exact List.suffix_append _ _
  · push Not at hnone
    obtain ⟨x, hx, hk⟩ := hnone
    obtain ⟨pre, post, hsplit⟩ := List.append_of_mem hx
    rw [hsplit, List.append_assoc, List.cons_append] at h
    obtain ⟨rfl, hnew⟩ := List.append_eq_nil_iff.mp (h pre x _ rfl hk)
    have hpre : ∀ y ∈ pre, ¬ kept y := by
      intro y hy hky
      obtain ⟨before, after, rfl⟩ := List.append_of_mem hy
      have hafter := h before y (after ++ x :: ([] ++ new.filter p)) (by simp) hky
      exact absurd hafter (by simp)
    rw [hsplit, hnew, List.filter_append, List.filter_eq_nil_iff.mpr hpre,
      List.filter_cons_of_pos hk]
    exact ⟨pre, by simp⟩

end Evict
