import Mathlib.Data.List.Sort

/-!
# Numbered entries

Entries carry a number (`key`). `byKey` keeps the last entry of each number, as a JavaScript `Map`
that is filled in a loop does; `ordered` sorts what is left by number; `latest n` are the `n`
entries at the end.

* `mem_ordered`, `ascending_ordered`: a sorted union, if entries of one number are equal.
* `countP_latest_of_notMem`, `countP_lt_of_mem_latest`, `le_countP_latest`: who is among the latest,
  by the number of entries above.
* `Ascending.ext`: two ascending lists with the same entries are equal.
* `Ascending.eq_filter_append`: a condition that later entries inherit splits an ascending list.
-/

namespace Recent

variable {α : Type} {key : α → Nat} {l l' : List α} {x y : α} {n : Nat}

/-- The numbers go up. -/
def Ascending (key : α → Nat) (l : List α) : Prop := l.Pairwise fun x y => key x < key y

/-- `Map.set`: the entry replaces the one of its number, or comes last. -/
def upsert (key : α → Nat) (l : List α) (x : α) : List α :=
  if l.any (key · = key x) then l.map fun y => if key y = key x then x else y else l ++ [x]

/-- The `Map` of the entries: the last of each number. -/
def byKey (key : α → Nat) (l : List α) : List α := l.foldl (upsert key) []

/-- The entries by number. -/
def ordered (key : α → Nat) (l : List α) : List α :=
  (byKey key l).insertionSort fun x y => key x ≤ key y

/-- The `n` last entries. -/
def latest (n : Nat) (l : List α) : List α := l.drop (l.length - n)

/-- Entries of one number are equal. -/
def Consistent (key : α → Nat) (l : List α) : Prop :=
  ∀ x ∈ l, ∀ y ∈ l, key x = key y → x = y

/-! ## The union -/

theorem map_key_upsert (h : l.any (key · = key x)) : (upsert key l x).map key = l.map key := by
  rw [upsert, if_pos h, List.map_map]
  refine List.map_congr_left fun y _ => ?_
  by_cases hy : key y = key x
  · simp [hy]
  · simp [hy]

theorem nodup_upsert (h : (l.map key).Nodup) (x : α) : ((upsert key l x).map key).Nodup := by
  by_cases hx : l.any (key · = key x)
  · rwa [map_key_upsert hx]
  · rw [upsert, if_neg hx, List.map_append, List.nodup_append]
    refine ⟨h, by simp, ?_⟩
    intro a ha b hb hab
    simp only [List.any_eq_true, decide_eq_true_eq, not_exists, not_and] at hx
    obtain ⟨y, hy, rfl⟩ := List.mem_map.mp ha
    obtain rfl := List.mem_singleton.mp hb
    exact hx y hy hab

theorem nodup_byKey (key : α → Nat) (l : List α) : ((byKey key l).map key).Nodup := by
  suffices h : ∀ acc : List α, (acc.map key).Nodup → ((l.foldl (upsert key) acc).map key).Nodup from
    h [] List.nodup_nil
  induction l with
  | nil => exact fun acc h => h
  | cons x l ih => exact fun acc h => ih (upsert key acc x) (nodup_upsert h x)

/-- An entry takes only the place of one that is equal. -/
theorem mem_upsert (h : ∀ y ∈ l, key y = key x → y = x) (z : α) :
    z ∈ upsert key l x ↔ z ∈ l ∨ z = x := by
  unfold upsert
  split
  · next hx =>
    simp only [List.any_eq_true, decide_eq_true_eq] at hx
    obtain ⟨w, hw, hwx⟩ := hx
    obtain rfl := h w hw hwx
    have hmap : l.map (fun y => if key y = key w then w else y) = l := by
      refine (List.map_congr_left fun y hy => ?_).trans (List.map_id l)
      by_cases hk : key y = key w
      · simp [h y hy hk]
      · simp [hk]
    rw [hmap]
    refine ⟨.inl, fun hz => hz.elim id ?_⟩
    rintro rfl
    exact hw
  · simp

/-- Equal entries apart, none is lost. -/
theorem mem_byKey (h : Consistent key l) : x ∈ byKey key l ↔ x ∈ l := by
  suffices hs : ∀ acc : List α, (∀ y ∈ acc, ∀ z ∈ l, key y = key z → y = z) →
      (x ∈ l.foldl (upsert key) acc ↔ x ∈ acc ∨ x ∈ l) by
    rw [byKey, hs [] (by simp)]
    simp
  induction l with
  | nil => simp
  | cons w l ih =>
    intro acc hacc
    have hl : Consistent key l := fun a ha b hb =>
      h a (List.mem_cons_of_mem _ ha) b (List.mem_cons_of_mem _ hb)
    have hw : ∀ y ∈ acc, key y = key w → y = w := fun y hy => hacc y hy w List.mem_cons_self
    rw [List.foldl_cons, ih hl, mem_upsert hw, List.mem_cons, or_assoc]
    intro y hy z hz hyz
    rw [mem_upsert hw] at hy
    obtain hy | rfl := hy
    · exact hacc y hy z (List.mem_cons_of_mem _ hz) hyz
    · exact h y List.mem_cons_self z (List.mem_cons_of_mem _ hz) hyz

theorem mem_ordered (h : Consistent key l) : x ∈ ordered key l ↔ x ∈ l := by
  rw [ordered, List.mem_insertionSort, mem_byKey h]

theorem ascending_ordered (key : α → Nat) (l : List α) : Ascending key (ordered key l) := by
  have hs : (ordered key l).Pairwise fun x y => key x ≤ key y :=
    List.pairwise_insertionSort _ _
  have hn : ((ordered key l).map key).Nodup :=
    (((List.perm_insertionSort _ _).map key).nodup_iff).mpr (nodup_byKey key l)
  rw [List.Nodup, List.pairwise_map] at hn
  exact (hs.and hn).imp fun h => by omega

/-! ## Ascending lists -/

/-- If the numbers go up, each is there once. -/
theorem Ascending.consistent (h : Ascending key l) : Consistent key l := by
  induction l with
  | nil => simp [Consistent]
  | cons a l ih =>
    obtain ⟨ha, hl⟩ := List.pairwise_cons.mp h
    intro x hx y hy hxy
    obtain hx | hx := List.mem_cons.mp hx <;> obtain hy | hy := List.mem_cons.mp hy
    · rw [hx, hy]
    · have := ha y hy
      grind
    · have := ha x hx
      grind
    · exact ih hl x hx y hy hxy

theorem Ascending.nodup (h : Ascending key l) : l.Nodup :=
  h.imp fun hlt heq => by
    subst heq
    omega

theorem Ascending.filter (h : Ascending key l) (p : α → Bool) : Ascending key (l.filter p) :=
  List.Pairwise.filter p h

/-- Two ascending lists with the same entries are equal. -/
theorem Ascending.ext (h : Ascending key l) (h' : Ascending key l') (hm : ∀ x, x ∈ l ↔ x ∈ l') :
    l = l' := by
  have hp : l.Perm l' := (List.perm_ext_iff_of_nodup h.nodup h'.nodup).mpr hm
  have hanti : ∀ x y, x ∈ l → y ∈ l' → key x < key y → key y < key x → x = y := by
    intro x y _ _ hxy hyx
    omega
  exact hp.eq_of_pairwise hanti h h'

/-- An ascending list of entries of another one has no more entries that satisfy `p`. -/
theorem Ascending.countP_le (h : Ascending key l) (hs : l ⊆ l') (p : α → Bool) :
    l.countP p ≤ l'.countP p :=
  (List.subperm_of_subset h.nodup hs).countP_le p

/-- A condition that later entries inherit holds from some entry on. -/
theorem Ascending.eq_filter_append (h : Ascending key l) {p : α → Bool}
    (hp : ∀ x ∈ l, ∀ y ∈ l, p x = true → key x < key y → p y = true) :
    l = l.filter (fun x => !p x) ++ l.filter p := by
  induction l with
  | nil => rfl
  | cons a l ih =>
    obtain ⟨ha, hl⟩ := List.pairwise_cons.mp h
    by_cases hpa : p a = true
    · have hall : ∀ y ∈ l, p y = true := fun y hy =>
        hp a List.mem_cons_self y (List.mem_cons_of_mem _ hy) hpa (ha y hy)
      have hnone : l.filter (fun x => !p x) = [] := by
        rw [List.filter_eq_nil_iff]
        intro y hy
        simp [hall y hy]
      rw [List.filter_cons_of_neg (by simp [hpa]), hnone, List.nil_append,
        List.filter_cons_of_pos hpa, List.filter_eq_self.mpr hall]
    · have ih' := ih hl fun x hx y hy =>
        hp x (List.mem_cons_of_mem _ hx) y (List.mem_cons_of_mem _ hy)
      rw [List.filter_cons_of_pos (by simpa using hpa), List.filter_cons_of_neg hpa,
        List.cons_append, ← ih']

/-! ## The latest -/

theorem latest_subset (n : Nat) (l : List α) : latest n l ⊆ l := List.drop_subset _ _

theorem Ascending.latest (h : Ascending key l) (n : Nat) : Ascending key (latest n l) :=
  List.Pairwise.drop h

/-- What comes before the latest is below all of them. -/
theorem Ascending.lt_latest (h : Ascending key l) (hx : x ∈ l.take (l.length - n))
    (hy : y ∈ Recent.latest n l) : key x < key y := by
  have hsplit : Ascending key (l.take (l.length - n) ++ l.drop (l.length - n)) := by
    rwa [List.take_append_drop]
  exact (List.pairwise_append.mp hsplit).2.2 x hx y hy

theorem mem_take_of_notMem_latest (hx : x ∈ l) (hn : x ∉ latest n l) :
    x ∈ l.take (l.length - n) := by
  rw [← List.take_append_drop (l.length - n) l, List.mem_append] at hx
  exact hx.resolve_right hn

/-- An entry that is not among the `n` latest is below `n` of them. -/
theorem Ascending.countP_latest_of_notMem (h : Ascending key l) (hx : x ∈ l)
    (hn : x ∉ Recent.latest n l) : n ≤ (Recent.latest n l).countP (key x < key ·) := by
  have hx' := mem_take_of_notMem_latest hx hn
  have hall : (Recent.latest n l).countP (key x < key ·) = (Recent.latest n l).length := by
    rw [List.countP_eq_length]
    intro y hy
    simpa using h.lt_latest hx' hy
  have hpos : 0 < l.length - n := by
    by_contra h0
    rw [Nat.eq_zero_of_not_pos h0] at hx'
    simp at hx'
  rw [hall, Recent.latest, List.length_drop]
  omega

/-- One of the `n` latest has fewer than `n` entries above it. -/
theorem Ascending.countP_lt_of_mem_latest (h : Ascending key l) (hx : x ∈ Recent.latest n l) :
    l.countP (key x < key ·) < n := by
  have hbelow : (l.take (l.length - n)).countP (key x < key ·) = 0 := by
    rw [List.countP_eq_zero]
    intro y hy
    have := h.lt_latest hy hx
    simp only [decide_eq_true_eq]
    omega
  have habove : (Recent.latest n l).countP (key x < key ·) < (Recent.latest n l).length := by
    refine lt_of_le_of_ne List.countP_le_length fun hall => ?_
    have := List.countP_eq_length.mp hall x hx
    simp at this
  have hsum : l.countP (key x < key ·) = (l.take (l.length - n)).countP (key x < key ·) +
      (Recent.latest n l).countP (key x < key ·) := by
    rw [Recent.latest, ← List.countP_append, List.take_append_drop]
  have hlen : (Recent.latest n l).length ≤ n := by
    rw [Recent.latest, List.length_drop]
    omega
  omega

/-- If `n` entries are above `m`, the `n` latest are. -/
theorem Ascending.le_countP_latest (h : Ascending key l) {m : Nat}
    (hm : n ≤ l.countP (m < key ·)) : n ≤ (Recent.latest n l).countP (m < key ·) := by
  have hsum : l.countP (m < key ·) = (l.take (l.length - n)).countP (m < key ·) +
      (Recent.latest n l).countP (m < key ·) := by
    rw [Recent.latest, ← List.countP_append, List.take_append_drop]
  by_cases h0 : (l.take (l.length - n)).countP (m < key ·) = 0
  · omega
  · obtain ⟨x, hx, hmx⟩ := List.countP_pos_iff.mp (Nat.pos_of_ne_zero h0)
    have hall : (Recent.latest n l).countP (m < key ·) = (Recent.latest n l).length := by
      rw [List.countP_eq_length]
      intro y hy
      have := h.lt_latest hx hy
      simp only [decide_eq_true_eq] at hmx ⊢
      omega
    have hlen := List.countP_le_length (p := (m < key ·)) (l := l)
    rw [hall, Recent.latest, List.length_drop]
    omega

end Recent
