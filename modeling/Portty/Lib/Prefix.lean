import Mathlib.Data.List.Basic

/-!
# Texts that are read off the front

`Told stop text S a`: whatever follows, as long as it starts with a stop, the text of `a` is not
taken for the start of another one.

* `joined_inj`: a list of such texts between separators, up to its end.
-/

namespace Prefix

variable {χ β : Type} {stop : χ → Prop} {text : β → List χ} {S : β → Prop} {a b : β}
  {as bs : List β}
  {sep close : χ} {xs ys t t' : List χ}

/-- What follows is a stop or nothing. -/
def Stops (stop : χ → Prop) (xs : List χ) : Prop := ∀ c ∈ xs.head?, stop c

@[simp] theorem stops_nil : Stops stop [] := nofun

@[simp] theorem stops_cons {c : χ} : Stops stop (c :: xs) ↔ stop c := by simp [Stops]

/-- The text tells the value, whatever follows from a stop on. -/
def Told (stop : χ → Prop) (text : β → List χ) (S : β → Prop) (a : β) : Prop :=
  ∀ {b xs ys}, S b → Stops stop xs → Stops stop ys → text a ++ xs = text b ++ ys → a = b ∧ xs = ys

/-- A text ends where the first stop is. -/
theorem append_inj_of_stops (ht : ∀ c ∈ t, ¬ stop c) (ht' : ∀ c ∈ t', ¬ stop c)
    (hxs : Stops stop xs) (hys : Stops stop ys)
    (h : t ++ xs = t' ++ ys) : t = t' ∧ xs = ys := by
  induction t generalizing t' with
  | nil =>
    cases t' with
    | nil => exact ⟨rfl, h⟩
    | cons c t' =>
      rw [List.nil_append] at h
      rw [h, List.cons_append, stops_cons] at hxs
      exact absurd hxs (ht' c List.mem_cons_self)
  | cons c t ih =>
    cases t' with
    | nil =>
      rw [List.nil_append] at h
      rw [← h, List.cons_append, stops_cons] at hys
      exact absurd hys (ht c List.mem_cons_self)
    | cons c' t' =>
      rw [List.cons_append, List.cons_append, List.cons.injEq] at h
      obtain ⟨rfl, hrest⟩ := ih (fun x hx => ht x (List.mem_cons_of_mem _ hx)) (fun x hx =>
        ht' x (List.mem_cons_of_mem _ hx)) h.2
      exact ⟨by rw [h.1], hrest⟩

/-! ## Lists -/

/-- What follows the first text. -/
def more (sep close : χ) : List (List χ) → List χ
  | [] => [close]
  | t :: ts => sep :: (t ++ more sep close ts)

/-- Texts with separators between them and an end. -/
def joined (sep close : χ) : List (List χ) → List χ
  | [] => [close]
  | t :: ts => t ++ more sep close ts

theorem stops_more (hsep : stop sep) (hclose : stop close) (ts : List (List χ)) :
    Stops stop (more sep close ts ++ xs) := by
  cases ts with
  | nil => simpa [more] using hclose
  | cons t ts => simpa [more] using hsep

/-- The rest of a list is told by its text. -/
theorem more_inj (hsep : stop sep) (hclose : stop close) (hne : sep ≠ close)
    (has : ∀ a ∈ as, Told stop text S a)
    (hbs : ∀ b ∈ bs, S b) (h : more sep close (as.map text) ++ xs = more sep close (bs.map text) ++ ys) : as = bs ∧
      xs = ys := by
  induction as generalizing bs with
  | nil =>
    cases bs with
    | nil => exact ⟨rfl, (List.cons.inj h).2⟩
    | cons b bs => exact absurd (List.cons.inj h).1.symm hne
  | cons a as ih =>
    cases bs with
    | nil => exact absurd (List.cons.inj h).1 hne
    | cons b bs =>
      simp only [List.map_cons, more, List.cons_append, List.append_assoc, List.cons.injEq,
        true_and] at h
      obtain ⟨rfl, hrest⟩ := has a List.mem_cons_self (hbs b List.mem_cons_self) (stops_more hsep hclose _) (stops_more hsep hclose _) h
      obtain ⟨rfl, hend⟩ := ih (fun x hx => has x (List.mem_cons_of_mem _ hx)) (fun x hx =>
        hbs x (List.mem_cons_of_mem _ hx)) hrest
      exact ⟨rfl, hend⟩

/-- A list is told by its text. -/
theorem joined_inj (hsep : stop sep) (hclose : stop close) (hne : sep ≠ close)
    (has : ∀ a ∈ as, Told stop text S a)
    (hs : ∀ a ∈ as, S a) (hbs : ∀ b ∈ bs, S b)
    (hhead : ∀ b, S b → ∃ c cs, text b = c :: cs ∧ c ≠ close)
    (h : joined sep close (as.map text) ++ xs = joined sep close (bs.map text) ++ ys) :
    as = bs ∧ xs = ys := by
  cases as with
  | nil =>
    cases bs with
    | nil => exact ⟨rfl, (List.cons.inj h).2⟩
    | cons b bs =>
      obtain ⟨c, cs, htext, hc⟩ := hhead b (hbs b List.mem_cons_self)
      simp only [List.map_nil, List.map_cons, joined, htext, List.cons_append, List.cons.injEq] at h
      exact absurd h.1.symm hc
  | cons a as =>
    cases bs with
    | nil =>
      obtain ⟨c, cs, htext, hc⟩ := hhead a (hs a List.mem_cons_self)
      simp only [List.map_nil, List.map_cons, joined, htext, List.cons_append, List.cons.injEq] at h
      exact absurd h.1 hc
    | cons b bs =>
      simp only [List.map_cons, joined, List.append_assoc] at h
      obtain ⟨rfl, hrest⟩ := has a List.mem_cons_self (hbs b List.mem_cons_self) (stops_more hsep hclose _) (stops_more hsep hclose _) h
      obtain ⟨rfl, hend⟩ := more_inj hsep hclose hne (fun x hx => has x (List.mem_cons_of_mem _ hx))
        (fun x hx => hbs x (List.mem_cons_of_mem _ hx)) hrest
      exact ⟨rfl, hend⟩

end Prefix
