import Mathlib.Data.List.Basic

/-!
# Pieces of a list

`pieces n xs` is `slice::chunks`: pieces of `n` entries, the last one with what is left.
`through n out` are the first `n` chunks of an output, in one.

* `flatten_pieces`: the pieces in one are the list.
* `through_append`, `through_drop_append`: what more chunks add, and where a part starts does not
  matter.
-/

namespace Chunks

variable {α : Type} {n k : Nat} {xs : List α} {out more : List (List α)}

/-- At most `fuel` chunks of `n`. -/
def piecesAux (n : Nat) : Nat → List α → List (List α)
  | 0, _ => []
  | fuel + 1, xs => if xs.isEmpty then [] else xs.take n :: piecesAux n fuel (xs.drop n)

/-- A piece takes at least one entry, so that there are no more than entries. -/
def pieces (n : Nat) (xs : List α) : List (List α) := piecesAux n xs.length xs

/-- Nothing is lost, if the fuel is the length. -/
theorem flatten_piecesAux (hn : 0 < n) {fuel : Nat} (h : xs.length ≤ fuel) :
    (piecesAux n fuel xs).flatten = xs := by
  induction fuel generalizing xs with
  | zero =>
    rw [List.length_eq_zero_iff.mp (Nat.le_zero.mp h)]
    rfl
  | succ fuel ih =>
    unfold piecesAux
    split
    · next he => rw [List.isEmpty_iff.mp he, List.flatten_nil]
    · next he =>
      have hpos : 0 < xs.length := List.length_pos_iff.mpr (by simpa using he)
      have hle : (xs.drop n).length ≤ fuel := by
        rw [List.length_drop]
        omega
      rw [List.flatten_cons, ih hle, List.take_append_drop]

theorem flatten_pieces (hn : 0 < n) (xs : List α) : (pieces n xs).flatten = xs :=
  flatten_piecesAux hn (Nat.le_refl _)

/-- The first `n` chunks in one. -/
def through (n : Nat) (out : List (List α)) : List α := (out.take n).flatten

@[simp] theorem through_length (out : List (List α)) : through out.length out = out.flatten := by
  simp [through]

theorem through_of_append (h : n ≤ out.length) : through n (out ++ more) = through n out := by
  rw [through, through, List.take_append_of_le_length h]

theorem drop_through_le (n start : Nat) (out : List (List α)) :
    (through n out).drop start <+: out.flatten.drop start := by
  conv => rhs; rw [← List.take_append_drop n out, List.flatten_append, List.drop_append]
  exact List.prefix_append _ _

theorem through_append (h : n ≤ k) :
    through k out = through n out ++ ((out.take k).drop n).flatten := by
  have hsplit := List.take_append_drop n (out.take k)
  rw [List.take_take, Nat.min_eq_left h] at hsplit
  rw [through, through, ← List.flatten_append, hsplit]

/-- The part from `from` on goes on with the chunks that follow. -/
theorem through_drop_append {start : Nat} (h : n ≤ k) (hs : start ≤ (through n out).length) :
    (through k out).drop start = (through n out).drop start ++ ((out.take k).drop n).flatten := by
  rw [through_append h, List.drop_append_of_le_length hs]

theorem drop_flatten_le {start : Nat} (out more : List (List α)) :
    out.flatten.drop start <+: (out ++ more).flatten.drop start := by
  rw [List.flatten_append, List.drop_append]
  exact List.prefix_append _ _

end Chunks
