import Mathlib.Data.List.Basic

/-!
# A rotating credential with one step of grace

One side holds the current credential, and accepts the one before it too, until it is used. The
other side shows the credential it has, and gets a new one, which it can fail to save.

* `State.rotate`: a new credential, after the current one, the one before or none of both was shown.
* `Accepts.mem_take`: only the last two credentials are accepted.
* `holds_new`, `Holds.miss`: who does not miss two rotations in a row has a credential that is
  accepted.
* `Retired.rotate`: a credential that is not accepted any more never is again, if the new ones are
  new.
-/

namespace Rotation

variable {T : Type}

/-- The accepting side. `history` has every credential that was current, the last one first. -/
structure State (T : Type) where
  current : T
  grace : Option T
  history : List T

/-- What was shown for a new credential. -/
inductive Use where
  | current
  | previous
  | fresh
  deriving DecidableEq, Repr

namespace State

/-- A new secret; the one before it has a grace if it was in use. -/
def rotate (s : State T) (u : Use) (new : T) : State T where
  current := new
  grace := match u with
    | .current => some s.current
    | .previous | .fresh => none
  history := new :: s.history

/-- The secrets that are accepted. -/
def Accepts (s : State T) (t : T) : Prop := t = s.current ∨ s.grace = some t

/-- The two credentials are the last two of the history. -/
structure Wf (s : State T) : Prop where
  current : s.history[0]? = some s.current
  grace : ∀ t, s.grace = some t → s.history[1]? = some t

/-- The other side has the current credential; or, if it has missed the last one, one that is
accepted. -/
def Holds (s : State T) (t : T) (missed : Bool) : Prop :=
  if missed then s.Accepts t else t = s.current

/-- The credential was current, and is not accepted. -/
def Retired (s : State T) (t : T) : Prop := t ∈ s.history ∧ ¬ s.Accepts t

variable {s : State T} {t new : T} {u : Use} {missed : Bool}

theorem Wf.rotate (h : s.Wf) (u : Use) (new : T) : (s.rotate u new).Wf := by
  refine ⟨rfl, fun t ht => ?_⟩
  cases u with
  | current =>
    cases ht
    simpa [State.rotate] using h.current
  | previous | fresh => cases ht

theorem Accepts.mem_take (h : s.Wf) (ha : s.Accepts t) : t ∈ s.history.take 2 := by
  rw [List.mem_iff_getElem?]
  rcases ha with rfl | ha
  · exact ⟨0, by rw [List.getElem?_take_of_lt (by decide), h.current]⟩
  · exact ⟨1, by rw [List.getElem?_take_of_lt (by decide), h.grace t ha]⟩

theorem Holds.accepts (h : s.Holds t missed) : s.Accepts t := by
  cases missed with
  | true => exact h
  | false => exact .inl h

/-- The new credential is saved. -/
theorem holds_new (s : State T) (u : Use) (new : T) : (s.rotate u new).Holds new false := rfl

/-- The new credential of the current one is missed. -/
theorem Holds.miss (h : s.Holds t false) (new : T) : (s.rotate .current new).Holds t true :=
  .inr (congrArg some (show t = s.current from h).symm)

theorem Retired.rotate (h : s.Retired t) (u : Use) (hn : new ∉ s.history) :
    (s.rotate u new).Retired t := by
  refine ⟨List.mem_cons_of_mem _ h.1, ?_⟩
  rintro (rfl | hg)
  · exact hn h.1
  · cases u with
    | current => exact h.2 (.inl (Option.some.inj hg).symm)
    | previous | fresh => cases hg

/-- The previous credential is used up. -/
theorem retired_of_previous (hm : t ∈ s.history) (hn : new ∉ s.history) :
    (s.rotate .previous new).Retired t := by
  refine ⟨List.mem_cons_of_mem _ hm, ?_⟩
  rintro (rfl | hg)
  · exact hn hm
  · cases hg

end State

end Rotation
