import Mathlib.Data.Multiset.AddSub
import Portty.Lib.Map

/-!
# Tallies

A finite map that counts the elements of a multiset: an element that occurs has its count, and the
others have no entry.

* `Of.insert_succ`, `Of.erase_last`, `Of.insert_pred`: the tally after one element more or one less.
* `Of.getD_lookup`, `Of.mem_iff`: the count from the map, and what has an entry.
-/

namespace Tally

variable {K : Type} [DecidableEq K] {m : FMap K Nat} {s : Multiset K} {a b : K}

/-- The map counts the elements of the multiset. -/
def Of (m : FMap K Nat) (s : Multiset K) : Prop :=
  ∀ a, m.lookup a = if s.count a = 0 then none else some (s.count a)

theorem Of.zero : Of (∅ : FMap K Nat) 0 := fun _ => rfl

theorem Of.getD_lookup (h : Of m s) (a : K) : (m.lookup a).getD 0 = s.count a := by
  rw [h a]
  split_ifs with hzero
  · exact hzero.symm
  · rfl

theorem Of.lookup_of_mem (h : Of m s) (ha : a ∈ s) : m.lookup a = some (s.count a) := by
  rw [h a, if_neg (Multiset.count_ne_zero.mpr ha)]

theorem Of.mem_iff (h : Of m s) : a ∈ m ↔ 0 < s.count a := by
  rw [FMap.mem_iff_lookup, h a]
  split_ifs with hzero
  · exact iff_of_false nofun (by omega)
  · exact iff_of_true ⟨_, rfl⟩ (by omega)

/-- One element more. -/
theorem Of.insert_succ (h : Of m s) (a : K) : Of (m.insert a (s.count a + 1)) (a ::ₘ s) := by
  intro b
  rw [FMap.lookup_insert_ite, Multiset.count_cons]
  by_cases hb : b = a
  · subst hb
    simp
  · rw [if_neg hb, if_neg hb, h b, Nat.add_zero]

/-- The last one of its kind is taken out. -/
theorem Of.erase_last (h : Of m s) (ha : s.count a = 1) : Of (m.erase a) (s.erase a) := by
  intro b
  rw [FMap.lookup_erase_ite]
  by_cases hb : b = a
  · subst hb
    rw [if_pos rfl, Multiset.count_erase_self, ha, if_pos rfl]
  · rw [if_neg hb, Multiset.count_erase_of_ne hb, h b]

/-- One of several is taken out. -/
theorem Of.insert_pred (h : Of m s) (ha : s.count a ≠ 1) (hmem : a ∈ s) :
    Of (m.insert a (s.count a - 1)) (s.erase a) := by
  have hpos := Multiset.count_pos.mpr hmem
  intro b
  rw [FMap.lookup_insert_ite]
  by_cases hb : b = a
  · subst hb
    rw [if_pos rfl, Multiset.count_erase_self, if_neg (by omega)]
  · rw [if_neg hb, Multiset.count_erase_of_ne hb, h b]

end Tally
