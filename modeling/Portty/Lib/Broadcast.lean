import Mathlib.Data.List.Basic

/-!
# A channel that keeps the last values

Everything that was sent is a log, of which a receiver can still get the last `capacity` values. One
that is further behind is told that it lagged, and goes on with the oldest value that is kept.

* `recv_value`, `recv_lagged`: what it was when a receiver got this.
-/

namespace Broadcast

variable {ι : Type} {capacity next n : Nat} {log : List ι} {v : ι}

/-- What a receiver gets, and where it goes on. -/
inductive Recv (ι : Type) where
  | empty
  | lagged (next : Nat)
  | value (v : ι) (next : Nat)

/-- What a receiver gets that is at `next`. -/
def recv (capacity : Nat) (log : List ι) (next : Nat) : Recv ι :=
  if next + capacity < log.length then .lagged (log.length - capacity)
  else
    match log[next]? with
    | none => .empty
    | some v => .value v (next + 1)

/-- The value is the next of the log. -/
theorem recv_value (h : recv capacity log next = .value v n) :
    n ≤ log.length ∧ log.drop next = v :: log.drop n ∧ log = log.take next ++ v :: log.drop n := by
  rw [recv] at h
  split at h
  · cases h
  split at h
  · cases h
  next hget =>
    cases h
    obtain ⟨hlt, hget⟩ := List.getElem?_eq_some_iff.mp hget
    have hdrop : log.drop next = v :: log.drop (next + 1) := by
      rw [List.drop_eq_getElem_cons hlt, hget]
    exact ⟨hlt, hdrop, by rw [← hdrop, List.take_append_drop]⟩

theorem recv_lagged (h : recv capacity log next = .lagged n) : n ≤ log.length := by
  rw [recv] at h
  split at h
  · cases h
    exact Nat.sub_le _ _
  · split at h <;> cases h

end Broadcast
