import Mathlib.Data.List.Basic

/-!
# Numbered messages

A sender numbers its messages from 1 on; a number may be skipped, when a message is given up. A
receiver accepts the number after its last one, and nothing else.

* `Numbered sent next`: the numbers grow, and `next` is above them.
* `Received sent got`: the receiver has the first messages, and no number among them is skipped.
  What it accepts next keeps this (`Received.accept`), and so does what is sent
  (`Received.append`).
-/

namespace Sequence

variable {M : Type} {sent : List (Nat × M)} {got : List M} {next n : Nat} {m : M}

/-- The numbers of the messages, in the order they were sent. -/
structure Numbered (sent : List (Nat × M)) (next : Nat) : Prop where
  sorted : sent.Pairwise fun x y => x.1 < y.1
  pos : ∀ x ∈ sent, 0 < x.1
  lt : ∀ x ∈ sent, x.1 < next

/-- The receiver has the messages with the first numbers. -/
def Received (sent : List (Nat × M)) (got : List M) : Prop :=
  ∀ i m, got[i]? = some m → sent[i]? = some (i + 1, m)

namespace Numbered

theorem nil (next : Nat) : Numbered ([] : List (Nat × M)) next := ⟨.nil, nofun, nofun⟩

/-- A number is skipped. -/
theorem skip (h : Numbered sent next) : Numbered sent (next + 1) :=
  ⟨h.sorted, h.pos, fun x hx => Nat.lt_succ_of_lt (h.lt x hx)⟩

theorem send (h : Numbered sent next) (hp : 0 < next) (m : M) :
    Numbered (sent ++ [(next, m)]) (next + 1) := by
  refine ⟨?_, fun x hx => ?_, fun x hx => ?_⟩
  · rw [List.pairwise_append]
    refine ⟨h.sorted, List.pairwise_singleton _ _, fun x hx y hy => ?_⟩
    rw [List.mem_singleton.mp hy]
    exact h.lt x hx
  · rcases List.mem_append.mp hx with hx | hx
    · exact h.pos x hx
    · rw [List.mem_singleton.mp hx]; exact hp
  · rcases List.mem_append.mp hx with hx | hx
    · exact Nat.lt_succ_of_lt (h.lt x hx)
    · rw [List.mem_singleton.mp hx]; exact Nat.lt_succ_self _

/-- The number at an index is at least one more than it. -/
theorem index_lt (h : Numbered sent next) {i : Nat} (hi : sent[i]? = some (n, m)) : i < n := by
  induction i generalizing n m with
  | zero => exact h.pos _ (List.mem_of_getElem? hi)
  | succ i ih =>
    have hlt : i + 1 < sent.length := (List.getElem?_eq_some_iff.mp hi).1
    have hi' : sent[i]? = some (sent[i].1, sent[i].2) := List.getElem?_eq_getElem _
    have hs := List.pairwise_iff_getElem.mp h.sorted i (i + 1) (by omega) hlt (Nat.lt_succ_self i)
    have hn : sent[i + 1] = (n, m) := (List.getElem?_eq_some_iff.mp hi).2
    rw [hn] at hs
    exact Nat.lt_of_le_of_lt (ih hi') hs

/-- As many numbers as messages from an index on are below `next`. -/
theorem add_le (h : Numbered sent next) {i : Nat} (hi : sent[i]? = some (n, m)) :
    n + (sent.length - i) ≤ next := by
  have hlt : i < sent.length := (List.getElem?_eq_some_iff.mp hi).1
  obtain ⟨j, hj⟩ : ∃ j, sent.length = i + 1 + j := ⟨sent.length - (i + 1), by omega⟩
  induction j generalizing i n m with
  | zero =>
    have := h.lt _ (List.mem_of_getElem? hi)
    simp only at this
    omega
  | succ j ih =>
    have hlt' : i + 1 < sent.length := by omega
    have hs := List.pairwise_iff_getElem.mp h.sorted i (i + 1) hlt hlt' (Nat.lt_succ_self i)
    rw [(List.getElem?_eq_some_iff.mp hi).2] at hs
    have hi' : sent[i + 1]? = some (sent[i + 1].1, sent[i + 1].2) := List.getElem?_eq_getElem _
    have := ih hi' hlt' (by omega)
    simp only at hs
    omega

/-- If no number was skipped, the number at an index is one more than it. -/
theorem gapless (h : Numbered sent next) (hl : sent.length + 1 = next) {i : Nat}
    (hi : sent[i]? = some (n, m)) : n = i + 1 := by
  have h₁ := h.index_lt hi
  have h₂ := h.add_le hi
  have hlt : i < sent.length := (List.getElem?_eq_some_iff.mp hi).1
  omega

end Numbered

namespace Received

theorem nil (sent : List (Nat × M)) : Received sent [] := nofun

theorem append (h : Received sent got) (rest : List (Nat × M)) : Received (sent ++ rest) got := by
  intro i m hi
  have hs := h i m hi
  rw [List.getElem?_append_left (List.getElem?_eq_some_iff.mp hs).1]
  exact hs

/-- The message with the number that the receiver waits for is the next one that was sent. -/
theorem getElem_of_mem (h : Received sent got) (hn : Numbered sent next)
    (hm : (got.length + 1, m) ∈ sent) : sent[got.length]? = some (got.length + 1, m) := by
  obtain ⟨i, hi⟩ := List.mem_iff_getElem?.mp hm
  have hle : i < got.length + 1 := hn.index_lt hi
  rcases Nat.lt_or_ge i got.length with hlt | hge
  · -- an earlier index has its own number
    have := h i got[i] (List.getElem?_eq_getElem hlt)
    rw [hi, Option.some.injEq, Prod.mk.injEq] at this
    omega
  · rwa [show i = got.length by omega] at hi

/-- The receiver accepts the message with the next number. -/
theorem accept (h : Received sent got) (hn : Numbered sent next)
    (hm : (got.length + 1, m) ∈ sent) : Received sent (got ++ [m]) := by
  intro i m' hi
  rcases Nat.lt_or_ge i got.length with hlt | hge
  · exact h i m' (by rwa [List.getElem?_append_left hlt] at hi)
  · have hi' : i = got.length := by
      have := (List.getElem?_eq_some_iff.mp hi).1
      rw [List.length_append, List.length_singleton] at this
      omega
    subst hi'
    rw [List.getElem?_concat_length] at hi
    cases hi
    exact h.getElem_of_mem hn hm

/-- So it has a prefix of what was sent. -/
theorem isPrefix (h : Received sent got) : got <+: sent.map Prod.snd := by
  rw [List.prefix_iff_getElem?]
  intro i hi
  have := h i got[i] (List.getElem?_eq_getElem hi)
  rw [List.getElem?_map, this, Option.map_some]

end Received

end Sequence
