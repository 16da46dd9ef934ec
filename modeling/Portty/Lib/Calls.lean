import Mathlib.Logic.Basic

/-!
# Programs of calls that can be cut short

A program (`Prog`) makes calls and computes between them. What a call does is given by its outcome.
A program makes one call for each outcome and is stopped where there are no more (`exec`), so a list
of outcomes is also a place to stop at.

* `wp`: `I` holds before each call, and `Q` of the result and the state at the end, whatever the
  outcomes.
* `wp_bind`, `wp.mono`: the rules for programs in sequence and for weaker conditions.
* `stopped`, `ended`: what `wp` says of a run.
-/

namespace Calls

/-- A program with calls in `C` and results in `α`; the answer to `c` is in `R c`. -/
inductive Prog (C : Type) (R : C → Type) (α : Type) where
  | ret (a : α)
  | call (c : C) (k : R c → Prog C R α)

variable {C : Type} {R : C → Type} {σ O α β : Type}

namespace Prog

/-- What comes after a program. -/
def bind : Prog C R α → (α → Prog C R β) → Prog C R β
  | ret a, f => f a
  | call c k, f => call c fun r => (k r).bind f

instance : Monad (Prog C R) where
  pure := ret
  bind := bind

/-- The program that is one call. -/
def one (c : C) : Prog C R (R c) := call c ret

@[simp] theorem pure_eq (a : α) : (pure a : Prog C R α) = ret a := rfl

@[simp] theorem ret_bind (a : α) (f : α → Prog C R β) : (ret a >>= f) = f a := rfl

@[simp] theorem call_bind (c : C) (k : R c → Prog C R α) (f : α → Prog C R β) :
    (call c k >>= f) = call c fun r => k r >>= f := rfl

@[simp] theorem one_bind (c : C) (f : R c → Prog C R β) : (one c >>= f) = call c f := rfl

variable (step : (c : C) → O → σ → R c × σ)

/-- The result, if the program was not stopped, and the state. -/
def exec : Prog C R α → List O → σ → Option α × σ
  | ret a, _, s => (some a, s)
  | call _ _, [], s => (none, s)
  | call c k, o :: os, s => (k (step c o s).1).exec os (step c o s).2

/-- What is to hold before a program, with `I` before each of its calls. -/
def wp (I : σ → Prop) (Q : α → σ → Prop) : Prog C R α → σ → Prop
  | ret a, s => Q a s
  | call c k, s => I s ∧ ∀ o, (k (step c o s).1).wp I Q (step c o s).2

variable {step} {I I' : σ → Prop} {Q Q' : α → σ → Prop} {p : Prog C R α} {s : σ} {os : List O}
  {a : α}

@[simp] theorem wp_ret : (ret a : Prog C R α).wp step I Q s ↔ Q a s := Iff.rfl

@[simp] theorem wp_call {c : C} {k : R c → Prog C R α} :
    (call c k).wp step I Q s ↔ I s ∧ ∀ o, (k (step c o s).1).wp step I Q (step c o s).2 := Iff.rfl

theorem wp_bind {Q : β → σ → Prop} {f : α → Prog C R β} :
    (p >>= f).wp step I Q s ↔ p.wp step I (fun a s => (f a).wp step I Q s) s := by
  induction p generalizing s with
  | ret a => exact Iff.rfl
  | call c k ih => exact and_congr_right fun _ => forall_congr' fun o => ih _

theorem wp.mono (h : p.wp step I Q s) (hi : ∀ s, I s → I' s) (hq : ∀ a s, Q a s → Q' a s) :
    p.wp step I' Q' s := by
  induction p generalizing s with
  | ret a => exact hq a s h
  | call c k ih => exact ⟨hi s h.1, fun o => ih _ (h.2 o)⟩

theorem wp.stopped (h : p.wp step I Q s) (hstop : (p.exec step os s).1 = none) :
    I (p.exec step os s).2 := by
  induction p generalizing s os with
  | ret a => cases hstop
  | call c k ih =>
    cases os with
    | nil => exact h.1
    | cons o os => exact ih _ (h.2 o) hstop

theorem wp.ended (h : p.wp step I Q s) (hend : (p.exec step os s).1 = some a) :
    Q a (p.exec step os s).2 := by
  induction p generalizing s os with
  | ret b => exact Option.some.inj hend ▸ h
  | call c k ih =>
    cases os with
    | nil => cases hend
    | cons o os => exact ih _ (h.2 o) hend

end Prog

end Calls
