import Mathlib.Data.List.Basic

/-!
# The last different entries

`put` brings an entry to the front of a list that has each entry once, so that the front has the
last ones.

* `nodup_put`, `eraseDups_cons`: each entry once.
* `mem_take_filter`: an entry moves back by one place when another one is put.
* `mem_take_of_sublist`: fewer entries, an earlier place.
* `findSome?_of_sublist`, `findSome?_filterMap`: a search in some of the entries finds what it finds
  in all.
-/

namespace Mru

variable {α β : Type} {l m before after : List α} {x y : α} {n : Nat} {f : α → Option β} {v : β}

/-- Among fewer entries an entry is not further back. -/
theorem mem_take_of_sublist (h : l.Sublist m) (hm : m.Nodup) (hy : y ∈ l) (hmem : y ∈ m.take n) :
    y ∈ l.take n := by
  induction h generalizing n with
  | slnil => cases hy
  | @cons l m a h ih =>
    obtain ⟨ha, hm⟩ := List.nodup_cons.mp hm
    cases n with
    | zero => cases hmem
    | succ n =>
      rcases List.mem_cons.mp hmem with rfl | hmem
      · exact absurd (h.subset hy) ha
      · exact List.take_subset_take_left l (Nat.le_succ n) (ih hm hy hmem)
  | @cons_cons l m a h ih =>
    obtain ⟨ha, hm⟩ := List.nodup_cons.mp hm
    cases n with
    | zero => cases hmem
    | succ n =>
      rcases List.mem_cons.mp hmem with rfl | hmem
      · exact List.mem_cons_self
      · have hne : y ≠ a := fun he => ha (he ▸ List.mem_of_mem_take hmem)
        exact List.mem_cons_of_mem _ (ih hm ((List.mem_cons.mp hy).resolve_left hne) hmem)

/-- All entries before the one that is found give nothing. -/
theorem findSome?_of_sublist (h : l.Sublist (before ++ x :: after))
    (hnodup : (before ++ x :: after).Nodup) (hx : x ∈ l)
    (hnone : ∀ y ∈ before, f y = none) (hf : f x = some v) : l.findSome? f = some v := by
  obtain ⟨l₁, l₂, rfl, h₁, h₂⟩ := List.sublist_append_iff.mp h
  obtain ⟨-, hrest, hdisjoint⟩ := List.nodup_append.mp hnodup
  have hx₁ : x ∉ l₁ := fun hx₁ => hdisjoint x (h₁.subset hx₁) x List.mem_cons_self rfl
  have hx₂ : x ∈ l₂ := (List.mem_append.mp hx).resolve_left hx₁
  have hfirst : l₁.findSome? f = none :=
    List.findSome?_eq_none_iff.mpr fun y hy => hnone y (h₁.subset hy)
  rw [List.findSome?_append, hfirst, Option.none_or]
  cases h₂ with
  | cons _ h₂ => exact absurd (h₂.subset hx₂) (List.nodup_cons.mp hrest).1
  | cons_cons _ h₂ => rw [List.findSome?_cons, hf]

theorem findSome?_filterMap {γ : Type} (g : α → Option γ) (f : γ → Option β) (l : List α) :
    (l.filterMap g).findSome? f = l.findSome? fun x => (g x).bind f := by
  induction l with
  | nil => rfl
  | cons a l ih =>
    cases hg : g a with
    | none => rw [List.filterMap_cons_none hg, List.findSome?_cons, hg, ih]; rfl
    | some c => rw [List.filterMap_cons_some hg, List.findSome?_cons, List.findSome?_cons, hg, ih]; rfl

variable [BEq α]

/-- The entry comes first. -/
def put (x : α) (l : List α) : List α := x :: l.filter fun y => !y == x

theorem put_sublist (h : l.Sublist m) (x : α) : (put x l).Sublist (put x m) :=
  (h.filter _).cons_cons x

variable [LawfulBEq α]

theorem ne_of_mem_filter (h : y ∈ l.filter fun y => !y == x) : y ≠ x := by
  simpa using (List.mem_filter.mp h).2

theorem nodup_put (h : l.Nodup) (x : α) : (put x l).Nodup :=
  List.nodup_cons.mpr ⟨fun hx => ne_of_mem_filter hx rfl, h.filter _⟩

theorem filter_of_notMem (h : x ∉ l) : (l.filter fun y => !y == x) = l :=
  List.filter_eq_self.mpr fun _ hy => by simpa using ne_of_mem_of_not_mem hy h

theorem eraseDups_of_nodup (h : l.Nodup) : l.eraseDups = l := by
  induction l with
  | nil => rfl
  | cons a l ih =>
    obtain ⟨ha, h⟩ := List.nodup_cons.mp h
    rw [List.eraseDups_cons, filter_of_notMem ha, ih h]

theorem eraseDups_cons (h : l.Nodup) (x : α) : (x :: l).eraseDups = put x l := by
  rw [List.eraseDups_cons, eraseDups_of_nodup (h.filter _), put]

/-- One entry less is one place at most. -/
theorem mem_take_filter (h : l.Nodup) (hy : y ∈ (l.filter fun y => !y == x).take n) :
    y ∈ l.take (n + 1) := by
  induction l generalizing n with
  | nil => simp at hy
  | cons a l ih =>
    obtain ⟨ha, h⟩ := List.nodup_cons.mp h
    by_cases hax : a = x
    · subst hax
      rw [List.filter_cons_of_neg (by simp), filter_of_notMem ha] at hy
      exact List.mem_cons_of_mem _ hy
    · rw [List.filter_cons_of_pos (by simpa using hax)] at hy
      cases n with
      | zero => cases hy
      | succ n =>
        rcases List.mem_cons.mp hy with rfl | hy
        · exact List.mem_cons_self
        · exact List.mem_cons_of_mem _ (ih h hy)

end Mru
