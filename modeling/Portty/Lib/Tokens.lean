import Mathlib.Data.List.Basic

/-!
# A text as its tokens

The tokens of a text are the parts between its separators that are not empty.

* `tokens_word`, `tokens_separators`: a text without separators, and one of nothing else.
* `tokens_append`: the tokens of two texts with a separator between them.
* `tokens_spelled`: words with separators around them are the tokens of the text.
-/

namespace Tokens

variable {α : Type} (sep : α → Bool)

/-- The words between the separators. -/
def tokens (text : List α) : List (List α) := (text.splitOnP sep).filter (!·.isEmpty)

/-- Words with a gap after each of them, and one before. -/
def spell (lead : List α) (spelled : List (List α × List α)) : List α :=
  lead ++ spelled.flatMap fun x => x.1 ++ x.2

/-- The words have no separator in them, the gaps nothing else, and only the last gap can be empty.
-/
structure Spelled (lead : List α) (spelled : List (List α × List α)) : Prop where
  lead : ∀ c ∈ lead, sep c = true
  words : ∀ x ∈ spelled, x.1 ≠ [] ∧ ∀ c ∈ x.1, sep c = false
  gaps : ∀ x ∈ spelled, ∀ c ∈ x.2, sep c = true
  apart : ∀ x ∈ spelled.dropLast, x.2 ≠ []

variable {sep} {xs ys gap word lead : List α} {spelled : List (List α × List α)} {c : α}

theorem tokens_append_cons (h : sep c = true) (xs ys : List α) :
    tokens sep (xs ++ c :: ys) = tokens sep xs ++ tokens sep ys := by
  rw [tokens, List.splitOnP_append_cons xs ys h, List.filter_append]
  rfl

@[simp] theorem tokens_nil : tokens sep [] = [] := by simp [tokens]

theorem tokens_separators_append (h : ∀ c ∈ gap, sep c = true) (ys : List α) :
    tokens sep (gap ++ ys) = tokens sep ys := by
  induction gap with
  | nil => rfl
  | cons c gap ih =>
    obtain ⟨hc, hgap⟩ := List.forall_mem_cons.mp h
    rw [List.cons_append, ← List.nil_append (c :: _), tokens_append_cons hc, tokens_nil,
      List.nil_append, ih hgap]

theorem tokens_word (hne : word ≠ []) (h : ∀ c ∈ word, sep c = false) :
    tokens sep word = [word] := by
  rw [tokens, List.splitOnP_eq_singleton h, List.filter_eq_self]
  simpa using hne

/-- A gap between two texts. -/
theorem tokens_append (h : ∀ c ∈ gap, sep c = true) (hne : gap ≠ []) (xs ys : List α) :
    tokens sep (xs ++ (gap ++ ys)) = tokens sep xs ++ tokens sep ys := by
  cases gap with
  | nil => exact absurd rfl hne
  | cons c gap =>
    obtain ⟨hc, hgap⟩ := List.forall_mem_cons.mp h
    rw [List.cons_append, tokens_append_cons hc, tokens_separators_append hgap]

/-- However the words are parted, they are read. -/
theorem tokens_spelled (h : Spelled sep lead spelled) :
    tokens sep (spell lead spelled) = spelled.map Prod.fst := by
  rw [spell, tokens_separators_append h.lead]
  have hwords := h.words
  have hgaps := h.gaps
  have hapart := h.apart
  clear h
  induction spelled with
  | nil => exact tokens_nil
  | cons x spelled ih =>
    obtain ⟨hx, hwords⟩ := List.forall_mem_cons.mp hwords
    obtain ⟨hgap, hgaps⟩ := List.forall_mem_cons.mp hgaps
    rw [List.flatMap_cons, List.append_assoc, List.map_cons]
    cases spelled with
    | nil =>
      -- The gap after the last word may be empty.
      rw [List.flatMap_nil, List.append_nil]
      by_cases hne : x.2 = []
      · rw [hne, List.append_nil, tokens_word hx.1 hx.2]
        rfl
      · rw [← List.append_nil x.2, tokens_append hgap hne, tokens_word hx.1 hx.2, tokens_nil]
        rfl
    | cons y spelled =>
      rw [List.dropLast_cons_cons] at hapart
      obtain ⟨hne, hapart⟩ := List.forall_mem_cons.mp hapart
      rw [tokens_append hgap hne, tokens_word hx.1 hx.2, ih hwords hgaps hapart]
      rfl

end Tokens
