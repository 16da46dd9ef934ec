import Mathlib.Data.List.Nodup

/-!
# Rows with a key

A map as the list of its rows, each of which knows its own key. No two rows have the same key
(`Unique`).

* `find_eq_some`: a lookup finds the row of the key.
* `mem_remove`, `mem_put`: the rows after an update, which keeps the keys unique.
* `perm_remove`: the rows are one of them and the others.
* `filter_remove`, `filter_put`: what an update of one row leaves of the others.
-/

namespace Rows

variable {α κ : Type} (key : α → κ)

/-- No two rows have the same key. -/
def Unique (l : List α) : Prop := (l.map key).Nodup

variable {key} {k : κ} {l l' : List α} {a b : α}

theorem Unique.eq (h : Unique key l) (ha : a ∈ l) (hb : b ∈ l) (hk : key a = key b) : a = b :=
  List.inj_on_of_nodup_map h ha hb hk

theorem Unique.sublist (h : Unique key l) (hs : l'.Sublist l) : Unique key l' :=
  List.Nodup.sublist (hs.map key) h

variable [DecidableEq κ] (key)

/-- The first row with the key. -/
def find (k : κ) (l : List α) : Option α := l.find? (key · = k)

/-- All rows but those with the key. -/
def remove (k : κ) (l : List α) : List α := l.filter (key · ≠ k)

/-- The row replaces the one with its key. -/
def put (a : α) (l : List α) : List α := remove key (key a) l ++ [a]

variable {key}

theorem mem_of_find (h : find key k l = some a) : a ∈ l := List.mem_of_find?_eq_some h

theorem key_of_find (h : find key k l = some a) : key a = k := by simpa using List.find?_some h

theorem find_eq_some (h : Unique key l) : find key k l = some a ↔ a ∈ l ∧ key a = k := by
  constructor
  · intro hf
    exact ⟨mem_of_find hf, key_of_find hf⟩
  · rintro ⟨ha, rfl⟩
    cases hf : find key (key a) l with
    | none =>
      have := List.find?_eq_none.mp hf a ha
      simp at this
    | some b => rw [h.eq (mem_of_find hf) ha (key_of_find hf)]

theorem find_eq_none : find key k l = none ↔ ∀ a ∈ l, key a ≠ k := by
  simp [find, List.find?_eq_none]

theorem mem_remove : a ∈ remove key k l ↔ a ∈ l ∧ key a ≠ k := by
  simp [remove]

theorem mem_put : b ∈ put key a l ↔ b = a ∨ b ∈ l ∧ key b ≠ key a := by
  rw [put, List.mem_append, mem_remove, List.mem_singleton, or_comm]

theorem find_remove {k' : κ} :
    find key k (remove key k' l) = if k = k' then none else find key k l := by
  split
  · subst k'
    exact find_eq_none.mpr fun a ha => (mem_remove.mp ha).2
  · rename_i hk
    unfold find remove
    rw [List.find?_filter]
    congr 1
    funext a
    by_cases ha : key a = k <;> simp [ha, hk]

theorem find_put : find key k (put key a l) = if k = key a then some a else find key k l := by
  unfold put
  rw [show ∀ l', find key k (l' ++ [a]) = (find key k l').or (find key k [a]) from
    fun l' => List.find?_append]
  rw [find_remove]
  by_cases hk : k = key a
  · simp [hk, find]
  · simp [hk, find, Ne.symm hk]

theorem remove_sublist : (remove key k l).Sublist l := List.filter_sublist

theorem Unique.remove (h : Unique key l) (k : κ) : Unique key (remove key k l) :=
  h.sublist remove_sublist

theorem Unique.put (h : Unique key l) (a : α) : Unique key (put key a l) := by
  rw [Unique, Rows.put, List.map_append, List.nodup_append]
  refine ⟨h.remove _, List.nodup_singleton _, ?_⟩
  rintro k hk k' hk' rfl
  obtain ⟨b, hb, rfl⟩ := List.mem_map.mp hk
  exact (mem_remove.mp hb).2 (List.mem_singleton.mp hk')

theorem remove_of_forall (h : ∀ a ∈ l, key a ≠ k) : remove key k l = l := by
  rw [remove, List.filter_eq_self]
  intro a ha
  simpa using h a ha

/-- The rows are one of them and the others. -/
theorem perm_remove (h : Unique key l) (ha : a ∈ l) : l.Perm (a :: remove key (key a) l) := by
  induction l with
  | nil => cases ha
  | cons b l ih =>
    obtain ⟨hb, hl⟩ := List.nodup_cons.mp h
    obtain rfl | ha := List.mem_cons.mp ha
    · have hrest : remove key (key a) (a :: l) = l := by
        rw [remove, List.filter_cons_of_neg (by simp)]
        refine remove_of_forall fun c hc hk => hb ?_
        rw [← hk]
        exact List.mem_map_of_mem hc
      rw [hrest]
    · have hne : key b ≠ key a := by
        intro hk
        rw [hk] at hb
        exact hb (List.mem_map_of_mem ha)
      have hrest : remove key (key a) (b :: l) = b :: remove key (key a) l := by
        rw [remove, List.filter_cons_of_pos (by simpa using hne), remove]
      rw [hrest]
      exact ((ih hl ha).cons b).trans (.swap a b _)

theorem put_remove (h : key a = k) : put key a (remove key k l) = put key a l := by
  rw [put, put, h, remove_of_forall fun b hb => (mem_remove.mp hb).2]

/-- A row with a new key is added. -/
theorem put_of_forall (h : ∀ b ∈ l, key b ≠ key a) : put key a l = l ++ [a] := by
  rw [put, remove_of_forall h]

/-- Of the rows that `p` selects, none was removed. -/
theorem filter_remove {p : α → Bool} (h : ∀ b ∈ l, key b = k → p b = false) :
    (remove key k l).filter p = l.filter p := by
  rw [remove, List.filter_filter]
  refine List.filter_congr fun b hb => ?_
  by_cases hk : key b = k
  · rw [h b hb hk, Bool.false_and]
  · simp [hk]

theorem filter_put {p : α → Bool} (h : ∀ b ∈ l, key b = key a → p b = false) (ha : p a = false) :
    (put key a l).filter p = l.filter p := by
  rw [put, List.filter_append, filter_remove h, List.filter_cons_of_neg (by simp [ha]),
    List.filter_nil, List.append_nil]

omit [DecidableEq κ] in
/-- Of the rows that `p` selects, none was changed. -/
theorem filter_map_of {p : α → Bool} {f : α → α}
    (h : ∀ b ∈ l, f b = b ∨ p b = false ∧ p (f b) = false) : (l.map f).filter p = l.filter p := by
  induction l with
  | nil => rfl
  | cons b l ih =>
    have hrest := ih fun c hc => h c (List.mem_cons_of_mem b hc)
    obtain hb | ⟨hb, hb'⟩ := h b List.mem_cons_self
    · rw [List.map_cons, hb, List.filter_cons, List.filter_cons, hrest]
    · simp [hb, hb', hrest]

end Rows
