import Mathlib.Data.List.Basic

/-!
# Reads that return less than was asked for

A reader returns at least one element at each call while there is one, and at most as many as were
asked for; the system decides how many (`sizes`, by the number of the call).

* `fill`: calls it until there are enough, or the end has come.
* `fill_eq`: the outcome does not depend on the sizes.
-/

namespace Reads

variable {α : Type}

/-- What is left to read, and how many reads there were. -/
structure Reader (α : Type) where
  left : List α
  calls : Nat := 0

variable (sizes : Nat → Nat)

/-- A read of at least one byte, and of at most what is wanted. -/
def Reader.read (want : Nat) (r : Reader α) : List α × Reader α :=
  let n := min want (max 1 (sizes r.calls))
  (r.left.take n, ⟨r.left.drop n, r.calls + 1⟩)

/-- At most `fuel` calls; one for each element is enough. -/
def fill : Nat → Nat → Reader α → List α × Reader α
  | 0, _, r => ([], r)
  | _, 0, r => ([], r)
  | fuel + 1, want + 1, r =>
    match r.read sizes (want + 1) with
    | ([], r) => ([], r)
    | (a :: got, r) =>
      let (more, r) := fill fuel (want - got.length) r
      (a :: got ++ more, r)

/-- All of it, or nothing where the end comes before. -/
def readExact (want : Nat) (r : Reader α) : Option (List α) × Reader α :=
  let (got, r) := fill sizes want want r
  (if got.length = want then some got else none, r)

/-- However the reads are split, the same bytes are read. -/
theorem fill_eq {fuel want : Nat} (h : want ≤ fuel) (r : Reader α) :
    ∃ calls, fill sizes fuel want r = (r.left.take want, ⟨r.left.drop want, calls⟩) := by
  induction fuel generalizing want r with
  | zero =>
    obtain rfl := Nat.le_zero.mp h
    exact ⟨r.calls, rfl⟩
  | succ fuel ih =>
    cases want with
    | zero => exact ⟨r.calls, rfl⟩
    | succ want =>
      rw [fill, Reader.read]
      generalize hn : min (want + 1) (max 1 (sizes r.calls)) = n
      have hpos : 1 ≤ n := by omega
      have hle : n ≤ want + 1 := by omega
      dsimp only
      split
      · next hgot =>
        obtain ⟨hnil, rfl⟩ := Prod.mk.inj hgot
        have hleft : r.left = [] := by
          obtain hzero | hnil := List.take_eq_nil_iff.mp hnil
          · exact absurd hzero (by omega)
          · exact hnil
        refine ⟨r.calls + 1, ?_⟩
        rw [hleft, List.take_nil, List.drop_nil, List.drop_nil]
      · next a got r' hgot =>
        obtain ⟨htake, rfl⟩ := Prod.mk.inj hgot
        have hlen : got.length + 1 = min n r.left.length := by
          rw [← List.length_cons, ← htake, List.length_take]
        obtain ⟨calls, hfill⟩ :=
          ih (by omega : want - got.length ≤ fuel) ⟨r.left.drop n, r.calls + 1⟩
        refine ⟨calls, ?_⟩
        rw [hfill]
        dsimp only
        rw [← htake, List.drop_drop]
        by_cases hshort : r.left.length ≤ n
        · rw [List.drop_eq_nil_of_le hshort, List.take_nil, List.append_nil,
            List.take_of_length_le hshort, List.take_of_length_le (by omega),
            List.drop_eq_nil_of_le (by omega), List.drop_eq_nil_of_le (by omega)]
        · have hsum : n + (want - got.length) = want + 1 := by omega
          rw [hsum, ← List.take_add, hsum]

theorem readExact_of_le {want : Nat} {r : Reader α} (h : want ≤ r.left.length) :
    ∃ calls, readExact sizes want r = (some (r.left.take want), ⟨r.left.drop want, calls⟩) := by
  obtain ⟨calls, hfill⟩ := fill_eq sizes (Nat.le_refl want) r
  refine ⟨calls, ?_⟩
  rw [readExact, hfill]
  dsimp only
  rw [if_pos (by rw [List.length_take]; omega)]

theorem readExact_of_lt {want : Nat} {r : Reader α} (h : r.left.length < want) :
    ∃ calls, readExact sizes want r = (none, ⟨[], calls⟩) := by
  obtain ⟨calls, hfill⟩ := fill_eq sizes (Nat.le_refl want) r
  refine ⟨calls, ?_⟩
  rw [readExact, hfill]
  dsimp only
  rw [if_neg (by rw [List.length_take]; omega), List.drop_eq_nil_of_le (by omega)]

end Reads
