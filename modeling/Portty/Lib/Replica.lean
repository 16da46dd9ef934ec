import Mathlib.Data.List.Basic

/-!
# A list that follows changes and snapshots

A replica holds entries by key. It applies messages in order: all entries at some time, one that was
put, one that was taken. `after key k msgs b` says whether `k` is a key once the messages are
applied, if it was one before (`b`) or not.

* `mem_apply`: this is what one message makes of the entries.
* `after_mono`: what was there before does not take an entry away.
-/

namespace Replica

variable {ι κ : Type} [DecidableEq κ] (key : ι → κ)

/-- What the owner of the entries tells. -/
inductive Msg (ι κ : Type) where
  | all (entries : List ι)
  | put (entry : ι)
  | take (k : κ)

/-- The copy after a message. -/
def apply (entries : List ι) : Msg ι κ → List ι
  | .all entries' => entries'
  | .put entry =>
    if entries.any fun e => key e = key entry then entries.map fun e => if key e = key entry then entry else e
    else entries ++ [entry]
  | .take k => entries.filter fun e => key e ≠ k

/-- Whether `k` is a key after one message. -/
def Msg.leaves (k : κ) (b : Bool) : Msg ι κ → Bool
  | .all entries => k ∈ entries.map key
  | .put entry => if key entry = k then true else b
  | .take k' => if k' = k then false else b

/-- Whether the copy has an entry with the key. -/
def after (k : κ) (msgs : List (Msg ι κ)) (b : Bool) : Bool :=
  msgs.foldl (fun b msg => msg.leaves key k b) b

variable {key} {k : κ} {b : Bool} {entries : List ι} {msg : Msg ι κ} {msgs msgs' : List (Msg ι κ)}

@[simp] theorem after_nil : after key k ([] : List (Msg ι κ)) b = b := rfl

@[simp] theorem after_cons : after key k (msg :: msgs) b = after key k msgs (msg.leaves key k b) :=
  rfl

@[simp] theorem after_append :
    after key k (msgs ++ msgs') b = after key k msgs' (after key k msgs b) := by
  rw [after, List.foldl_append]
  rfl

/-- The copy has what the message leaves. -/
theorem mem_apply (entries : List ι) (msg : Msg ι κ) :
    k ∈ (apply key entries msg).map key ↔ msg.leaves key k (k ∈ entries.map key) = true := by
  cases msg with
  | all entries' => simp [apply, Msg.leaves]
  | put entry =>
    rw [apply, Msg.leaves]
    split
    next hany =>
      have hkeys : (entries.map fun e => if key e = key entry then entry else e).map key =
          entries.map key := by
        rw [List.map_map]
        refine List.map_congr_left fun e _ => ?_
        by_cases he : key e = key entry <;> simp [he]
      rw [hkeys]
      split
      next hk =>
        obtain ⟨e, he, hkey⟩ := List.any_eq_true.mp hany
        have hmem : k ∈ entries.map key :=
          List.mem_map.mpr ⟨e, he, (of_decide_eq_true hkey).trans hk⟩
        simpa using hmem
      · rw [decide_eq_true_iff]
    · rw [List.map_append, List.mem_append, List.map_singleton, List.mem_singleton]
      split
      next hk => simp [hk]
      next hk =>
        rw [decide_eq_true_iff]
        exact or_iff_left fun h => hk h.symm
  | take k' =>
    rw [apply, Msg.leaves]
    simp only [List.mem_map, List.mem_filter, decide_eq_true_eq]
    split
    next hk =>
      subst hk
      simp
    next hk =>
      rw [decide_eq_true_iff]
      constructor
      · rintro ⟨e, ⟨he, -⟩, rfl⟩
        exact ⟨e, he, rfl⟩
      · rintro ⟨e, he, rfl⟩
        exact ⟨e, ⟨he, fun h => hk h.symm⟩, rfl⟩

theorem Msg.leaves_mono (h : msg.leaves key k false = true) : msg.leaves key k b = true := by
  cases msg with
  | all entries => exact h
  | put entry =>
    rw [Msg.leaves] at h ⊢
    split at h
    next hk => rw [if_pos hk]
    · cases h
  | take k' =>
    rw [Msg.leaves] at h
    split at h <;> cases h

theorem after_mono (h : after key k msgs false = true) (b : Bool) : after key k msgs b = true := by
  induction msgs generalizing b with
  | nil => cases h
  | cons msg msgs ih =>
    rw [after_cons] at h ⊢
    cases hb : msg.leaves key k false with
    | true =>
      rw [hb] at h
      rwa [Msg.leaves_mono hb]
    | false =>
      rw [hb] at h
      exact ih h _

/-- What is there in the end is there if it was there before. -/
theorem after_true (h : after key k msgs b = true) : after key k msgs true = true := by
  cases b with
  | true => exact h
  | false => exact after_mono h true

end Replica
