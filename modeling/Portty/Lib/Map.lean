import Mathlib.Data.Finmap

/-!
# Finite maps

A finite map from `K` to `V` is Mathlib's `Finmap` with one value type: two maps are equal if they
look up the same (`Finmap.ext_lookup`), so the order of insertions does not matter, and equality,
membership and emptiness are decidable.

* `lookup_insert_ite`, `lookup_erase_ite`: what a lookup sees after an update, for every key.
* `filterMap f m`: the entries of `m` that `f` keeps, with the values it gives them.
* `erase_insert_lookup`: undoing an insertion.
* `keys_insert`, `keys_erase`, `keys_filterMap_subset`: the keys after an update.
-/

/-- A finite map from `K` to `V`. -/
abbrev FMap (K V : Type) := Finmap fun _ : K => V

namespace FMap

variable {K V W : Type}

/-- The entries of a list that `f` keeps, under their own keys. -/
def keep (f : K → V → Option W) (e : Σ _ : K, V) : Option (Σ _ : K, W) :=
  (f e.1 e.2).map (Sigma.mk e.1)

theorem keys_keep_sublist (f : K → V → Option W) (l : List (Σ _ : K, V)) :
    (l.filterMap (keep f)).keys.Sublist l.keys := by
  induction l with
  | nil => exact List.Sublist.refl _
  | cons e l ih =>
    cases hf : f e.1 e.2 with
    | none => simpa [List.filterMap_cons, keep, hf] using ih.cons e.1
    | some w => simpa [List.filterMap_cons, keep, hf] using ih

theorem nodupKeys_keep (f : K → V → Option W) (m : FMap K V) :
    (m.entries.filterMap (keep f)).NodupKeys := by
  obtain ⟨⟨l⟩, hl⟩ := m
  exact List.Nodup.sublist (keys_keep_sublist f l) hl

/-- The entries of `m` that `f` keeps, with the values it gives them. -/
def filterMap (f : K → V → Option W) (m : FMap K V) : FMap K W :=
  ⟨m.entries.filterMap (keep f), nodupKeys_keep f m⟩

variable [DecidableEq K]

theorem lookup_insert_ite (m : FMap K V) (a b : K) (v : V) :
    (m.insert a v).lookup b = if b = a then some v else m.lookup b := by
  split
  · subst_vars; exact Finmap.lookup_insert _
  · exact Finmap.lookup_insert_of_ne _ ‹_›

theorem lookup_erase_ite (m : FMap K V) (a b : K) :
    (m.erase a).lookup b = if b = a then none else m.lookup b := by
  split
  · subst_vars; exact Finmap.lookup_erase _ _
  · exact Finmap.lookup_erase_ne ‹_›

@[simp] theorem lookup_filterMap (f : K → V → Option W) (m : FMap K V) (k : K) :
    (m.filterMap f).lookup k = (m.lookup k).bind (f k) := by
  ext w
  rw [Finmap.lookup_eq_some_iff, Option.bind_eq_some_iff]
  simp only [filterMap, Multiset.mem_filterMap, keep, Option.map_eq_some_iff]
  constructor
  · rintro ⟨⟨k', v⟩, he, w', hw, hk⟩
    cases hk
    exact ⟨v, Finmap.lookup_eq_some_iff.mpr he, hw⟩
  · rintro ⟨v, hv, hw⟩
    exact ⟨⟨k, v⟩, Finmap.lookup_eq_some_iff.mp hv, w, hw, rfl⟩

/-- Maps that agree at a key and off it. -/
theorem ext_at {m m' : FMap K V} (k : K) (hk : m.lookup k = m'.lookup k)
    (h : ∀ x, x ≠ k → m.lookup x = m'.lookup x) : m = m' := by
  apply Finmap.ext_lookup
  intro x
  by_cases hx : x = k
  · rw [hx, hk]
  · exact h x hx

/-- Inserting at a key and then putting back what was there. -/
theorem erase_insert_lookup (m : FMap K V) (k : K) (v : V) :
    (match m.lookup k with
      | some old => ((m.insert k v).erase k).insert k old
      | none => (m.insert k v).erase k) = m := by
  cases h : m.lookup k with
  | none => exact ext_at k (by simp [h]) fun x hx => by simp [hx]
  | some old => exact ext_at k (by simp [h]) fun x hx => by simp [hx]

/-- Removing a key that the map does not hold. -/
theorem erase_of_lookup_none {m : FMap K V} {k : K} (h : m.lookup k = none) : m.erase k = m :=
  ext_at k (by simp [h]) fun x hx => by simp [hx]

theorem keys_insert (m : FMap K V) (k : K) (v : V) : (m.insert k v).keys = insert k m.keys := by
  ext x
  simp [Finmap.mem_keys]

theorem keys_erase (m : FMap K V) (k : K) : (m.erase k).keys = m.keys.erase k := by
  ext x
  simp [Finmap.mem_keys]

theorem mem_iff_lookup {m : FMap K V} {k : K} : k ∈ m ↔ ∃ v, m.lookup k = some v := by
  rw [← Finmap.lookup_isSome, Option.isSome_iff_exists]

theorem keys_filterMap_subset (f : K → V → Option W) (m : FMap K V) :
    (m.filterMap f).keys ⊆ m.keys := by
  intro x hx
  rw [Finmap.mem_keys, mem_iff_lookup] at hx ⊢
  obtain ⟨w, hw⟩ := hx
  rw [lookup_filterMap, Option.bind_eq_some_iff] at hw
  obtain ⟨v, hv, -⟩ := hw
  exact ⟨v, hv⟩

end FMap
