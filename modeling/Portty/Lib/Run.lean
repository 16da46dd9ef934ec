import Mathlib.Data.List.Induction

/-!
# Runs of a deterministic machine

A machine is a function `next : σ → ι → σ`. `run` is its state after a list of inputs, and `count p`
the number of steps of the run at which `p` holds of the state before and the input.

* `run_induction`: what every step keeps holds after every run.
* `Along P`: every step of the run satisfies `P`; `Along.induction` is the rule for what such steps
  keep.
* `exists_step`: what holds after a run and not before it was made true by one of the steps.
* `count_le`, `count_le_of_invariant`, `Along.count_le`: a budget that pays for every counted step
  bounds their number.
-/

namespace Run

variable {σ ι : Type} (next : σ → ι → σ)

/-- The state after the inputs. -/
def run (s : σ) (ins : List ι) : σ := ins.foldl next s

/-- The number of steps at which `p` holds. -/
def count (p : σ → ι → Bool) (s : σ) : List ι → Nat
  | [] => 0
  | i :: ins => (p s i).toNat + count p (next s i) ins

/-- Every step of the run satisfies `P`. -/
def Along (P : σ → ι → Prop) (s : σ) : List ι → Prop
  | [] => True
  | i :: ins => P s i ∧ Along P (next s i) ins

variable {next} {p : σ → ι → Bool} {s : σ} {i : ι} {ins pre post : List ι}

@[simp] theorem run_nil : run next s [] = s := rfl

@[simp] theorem run_cons : run next s (i :: ins) = run next (next s i) ins := rfl

@[simp] theorem run_append : run next s (pre ++ post) = run next (run next s pre) post := by
  simp [run]

@[simp] theorem count_nil : count next p s [] = 0 := rfl

theorem count_cons :
    count next p s (i :: ins) = (p s i).toNat + count next p (next s i) ins := rfl

theorem count_append : count next p s (pre ++ post) =
    count next p s pre + count next p (run next s pre) post := by
  induction pre generalizing s with
  | nil => simp
  | cons i pre ih => rw [List.cons_append, count_cons, count_cons, ih, run_cons, Nat.add_assoc]

/-- No step is counted. -/
theorem of_count_eq_zero (h : count next p s ins = 0) (he : ins = pre ++ i :: post) :
    p (run next s pre) i = false := by
  rw [he, count_append, count_cons] at h
  exact (Bool.toNat_eq_zero).mp (by omega)

/-- What every step keeps, where it can depend on the inputs so far. -/
theorem run_induction {I : List ι → σ → Prop} (h : I [] s)
    (hs : ∀ pre i post, ins = pre ++ i :: post → I pre (run next s pre) →
      I (pre ++ [i]) (next (run next s pre) i)) : I ins (run next s ins) := by
  suffices hpre : ∀ pre post, ins = pre ++ post → I pre (run next s pre) from
    hpre ins [] (List.append_nil ins).symm
  intro pre
  induction pre using List.reverseRecOn with
  | nil => exact fun _ _ => h
  | append_singleton pre i ih =>
    intro post he
    rw [List.append_assoc, List.singleton_append] at he
    rw [run_append]
    exact hs pre i post he (ih (i :: post) he)

@[simp] theorem along_nil {P : σ → ι → Prop} : Along next P s [] := trivial

@[simp] theorem along_cons {P : σ → ι → Prop} :
    Along next P s (i :: ins) ↔ P s i ∧ Along next P (next s i) ins := Iff.rfl

/-- A step in the middle of the run. -/
theorem Along.step {P : σ → ι → Prop} (ha : Along next P s (pre ++ i :: post)) :
    P (run next s pre) i := by
  induction pre generalizing s with
  | nil => exact ha.1
  | cons j pre ih => exact ih ha.2

instance decidableAlong (P : σ → ι → Prop) [∀ s i, Decidable (P s i)] (s : σ) (ins : List ι) :
    Decidable (Along next P s ins) :=
  match ins with
  | [] => .isTrue trivial
  | i :: ins =>
    have := decidableAlong P (next s i) ins
    inferInstanceAs (Decidable (_ ∧ _))

theorem along_append {P : σ → ι → Prop} :
    Along next P s (pre ++ post) ↔ Along next P s pre ∧ Along next P (run next s pre) post := by
  induction pre generalizing s with
  | nil => exact ⟨fun h => ⟨trivial, h⟩, fun h => h.2⟩
  | cons i pre ih =>
    constructor
    · rintro ⟨hi, hrest⟩
      obtain ⟨hpre, hpost⟩ := ih.mp hrest
      exact ⟨⟨hi, hpre⟩, hpost⟩
    · rintro ⟨⟨hi, hpre⟩, hpost⟩
      exact ⟨hi, ih.mpr ⟨hpre, hpost⟩⟩

theorem run_map {κ : Type} (f : κ → ι) (l : List κ) :
    run next s (l.map f) = run (fun s k => next s (f k)) s l := List.foldl_map

theorem along_map {κ : Type} {P : σ → ι → Prop} (f : κ → ι) (l : List κ) :
    Along next P s (l.map f) ↔ Along (fun s k => next s (f k)) (fun s k => P s (f k)) s l := by
  induction l generalizing s with
  | nil => exact Iff.rfl
  | cons k l ih => exact and_congr_right fun _ => ih

/-- What every step that satisfies `P` keeps. -/
theorem Along.induction {P : σ → ι → Prop} {I : σ → Prop} (ha : Along next P s ins) (h : I s)
    (hs : ∀ s i, I s → P s i → I (next s i)) : I (run next s ins) := by
  induction ins generalizing s with
  | nil => exact h
  | cons i ins ih => exact ih ha.2 (hs s i h ha.1)

/-- What follows for a step from `P` and an invariant. -/
theorem Along.of_invariant {P Q : σ → ι → Prop} {I : σ → Prop} (ha : Along next P s ins) (h : I s)
    (hs : ∀ s i, I s → P s i → I (next s i)) (hq : ∀ s i, I s → P s i → Q s i) :
    Along next Q s ins := by
  induction ins generalizing s with
  | nil => trivial
  | cons i ins ih => exact ⟨hq s i h ha.1, ih ha.2 (hs s i h ha.1)⟩

/-- What holds only after the run was made true by one step. -/
theorem exists_step {Q : σ → Prop} (h : ¬ Q s) (h' : Q (run next s ins)) :
    ∃ pre i post, ins = pre ++ i :: post ∧ ¬ Q (run next s pre) ∧
      Q (next (run next s pre) i) := by
  induction ins generalizing s with
  | nil => exact absurd h' h
  | cons i ins ih =>
    by_cases hi : Q (next s i)
    · exact ⟨[], i, ins, rfl, h, hi⟩
    · obtain ⟨pre, j, post, rfl, h₁, h₂⟩ := ih hi h'
      exact ⟨i :: pre, j, post, rfl, h₁, h₂⟩

/-- The counted steps are paid from a budget, as long as the invariant holds. -/
theorem count_le_of_invariant {I : σ → Prop} (b : σ → Nat)
    (hI : ∀ s, ∀ i ∈ ins, I s → I (next s i))
    (hb : ∀ s, ∀ i ∈ ins, I s → (p s i).toNat + b (next s i) ≤ b s) (h : I s) :
    count next p s ins ≤ b s := by
  induction ins generalizing s with
  | nil => exact Nat.zero_le _
  | cons i ins ih =>
    have ih' := ih (fun s j hj => hI s j (List.mem_cons_of_mem _ hj))
      (fun s j hj => hb s j (List.mem_cons_of_mem _ hj)) (hI s i List.mem_cons_self h)
    calc count next p s (i :: ins)
      _ ≤ (p s i).toNat + b (next s i) := Nat.add_le_add_left ih' _
      _ ≤ b s := hb s i List.mem_cons_self h

theorem count_le (b : σ → Nat) (hb : ∀ s i, (p s i).toNat + b (next s i) ≤ b s) (s : σ)
    (ins : List ι) : count next p s ins ≤ b s :=
  count_le_of_invariant (I := fun _ => True) b (fun _ _ _ _ => trivial) (fun s i _ _ => hb s i)
    trivial

/-- Steps that satisfy `P` are paid from a budget. -/
theorem Along.count_le {P : σ → ι → Prop} {I : σ → Prop} (b : σ → Nat) (ha : Along next P s ins)
    (h : I s)
    (hs : ∀ s i, I s → P s i → I (next s i))
    (hb : ∀ s i, I s → P s i → (p s i).toNat + b (next s i) ≤ b s) : count next p s ins ≤ b s := by
  induction ins generalizing s with
  | nil => exact Nat.zero_le _
  | cons i ins ih =>
    calc count next p s (i :: ins)
      _ ≤ (p s i).toNat + b (next s i) := Nat.add_le_add_left (ih ha.2 (hs s i h ha.1)) _
      _ ≤ b s := hb s i h ha.1

end Run
