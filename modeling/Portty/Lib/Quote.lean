import Mathlib.Data.List.Basic

/-!
# Strings in JSON

`quote` is how JSON writes a string: between quotes, with quotes, backslashes and control characters
escaped. `array` is an array of strings. Neither needs what follows it to be read back:

* `quote_append_inj`: the same text starts with one string only.
* `array_injective`: two arrays with the same text are equal.
-/

namespace Quote

variable {c d : Char} {cs ds xs ys : List Char} {s t : String} {ss ts : List String}

/-- A digit, in lower case. -/
def hexDigit (n : Nat) : Char := if n < 10 then Char.ofNat (48 + n) else Char.ofNat (87 + n)

/-- What a digit stands for. -/
def hexValue (c : Char) : Nat := if c.toNat < 58 then c.toNat - 48 else c.toNat - 87

/-- One character between the quotes. -/
def escape (c : Char) : List Char :=
  if c = '"' then ['\\', '"']
  else if c = '\\' then ['\\', '\\']
  else if c = '\x08' then ['\\', 'b']
  else if c = '\t' then ['\\', 't']
  else if c = '\n' then ['\\', 'n']
  else if c = '\x0c' then ['\\', 'f']
  else if c = '\r' then ['\\', 'r']
  else if c.toNat < 0x20 then ['\\', 'u', '0', '0', hexDigit (c.toNat / 16), hexDigit (c.toNat % 16)]
  else [c]

/-- The text of a string. -/
def quote (s : String) : List Char := '"' :: (s.toList.flatMap escape ++ ['"'])

/-- What follows the first element. -/
def more : List String → List Char
  | [] => [']']
  | s :: ss => ',' :: (quote s ++ more ss)

/-- The text of a list of strings. -/
def array : List String → List Char
  | [] => ['[', ']']
  | s :: ss => '[' :: (quote s ++ more ss)

/-- Reads one character and what is left; not the end of the string. -/
def unescape : List Char → Option (Char × List Char)
  | '\\' :: 'u' :: _ :: _ :: a :: b :: rest => some (Char.ofNat (16 * hexValue a + hexValue b), rest)
  | '\\' :: 'b' :: rest => some ('\x08', rest)
  | '\\' :: 't' :: rest => some ('\t', rest)
  | '\\' :: 'n' :: rest => some ('\n', rest)
  | '\\' :: 'f' :: rest => some ('\x0c', rest)
  | '\\' :: 'r' :: rest => some ('\r', rest)
  | '\\' :: c :: rest => some (c, rest)
  | c :: rest => some (c, rest)
  | [] => none

theorem ofNat_hex : ∀ n < 32,
    Char.ofNat (16 * hexValue (hexDigit (n / 16)) + hexValue (hexDigit (n % 16))) =
      Char.ofNat n := by
  decide

/-- An escape is read back. -/
theorem unescape_escape (c : Char) (xs : List Char) : unescape (escape c ++ xs) = some (c, xs) := by
  unfold escape
  by_cases h₁ : c = '"'
  · simp [h₁, unescape]
  by_cases h₂ : c = '\\'
  · simp [h₂, unescape]
  by_cases h₃ : c = '\x08'
  · simp [h₃, unescape]
  by_cases h₄ : c = '\t'
  · simp [h₄, unescape]
  by_cases h₅ : c = '\n'
  · simp [h₅, unescape]
  by_cases h₆ : c = '\x0c'
  · simp [h₆, unescape]
  by_cases h₇ : c = '\r'
  · simp [h₇, unescape]
  by_cases h₈ : c.toNat < 0x20
  · simp [h₁, h₂, h₃, h₄, h₅, h₆, h₇, h₈, unescape, ofNat_hex _ h₈]
  · simp [h₁, h₂, h₃, h₄, h₅, h₆, h₇, h₈, unescape]

theorem escape_append_inj (h : escape c ++ xs = escape d ++ ys) : c = d ∧ xs = ys := by
  have hread := congrArg unescape h
  rw [unescape_escape, unescape_escape] at hread
  simpa using hread

/-- No character is written with a quote at its start. -/
theorem escape_ne_quote (c : Char) (xs ys : List Char) : escape c ++ xs ≠ '"' :: ys := by
  intro h
  have hread := congrArg unescape h
  rw [unescape_escape] at hread
  by_cases hc : c = '"'
  · simp [hc, escape] at h
  · simp [unescape, hc] at hread

/-- What is quoted ends at the first quote that is not escaped. -/
theorem flatMap_escape_inj (h : cs.flatMap escape ++ '"' :: xs = ds.flatMap escape ++ '"' :: ys) :
    cs = ds ∧ xs = ys := by
  induction cs generalizing ds with
  | nil =>
    cases ds with
    | nil => simpa using h
    | cons d ds =>
      rw [List.flatMap_cons, List.append_assoc] at h
      exact absurd h.symm (escape_ne_quote _ _ _)
  | cons c cs ih =>
    cases ds with
    | nil =>
      rw [List.flatMap_cons, List.append_assoc] at h
      exact absurd h (escape_ne_quote _ _ _)
    | cons d ds =>
      rw [List.flatMap_cons, List.flatMap_cons, List.append_assoc, List.append_assoc] at h
      obtain ⟨rfl, hrest⟩ := escape_append_inj h
      obtain ⟨rfl, hxs⟩ := ih hrest
      exact ⟨rfl, hxs⟩

theorem quote_append_inj (h : quote s ++ xs = quote t ++ ys) : s = t ∧ xs = ys := by
  simp only [quote, List.cons_append, List.append_assoc, List.nil_append, List.cons.injEq,
    true_and] at h
  obtain ⟨hchars, hxs⟩ := flatMap_escape_inj h
  exact ⟨String.toList_inj.mp hchars, hxs⟩

/-- The rest of an array is told by its text. -/
theorem more_append_inj (h : more ss ++ xs = more ts ++ ys) : ss = ts ∧ xs = ys := by
  induction ss generalizing ts with
  | nil =>
    cases ts with
    | nil => exact ⟨rfl, List.append_cancel_left h⟩
    | cons t ts => simp [more] at h
  | cons s ss ih =>
    cases ts with
    | nil => simp [more] at h
    | cons t ts =>
      rw [more, more, List.cons_append, List.cons_append, List.cons.injEq, List.append_assoc,
        List.append_assoc] at h
      obtain ⟨rfl, hrest⟩ := quote_append_inj h.2
      obtain ⟨rfl, hxs⟩ := ih hrest
      exact ⟨rfl, hxs⟩

/-- An array is told by its text. -/
theorem array_append_inj (h : array ss ++ xs = array ts ++ ys) : ss = ts ∧ xs = ys := by
  cases ss with
  | nil =>
    cases ts with
    | nil => exact ⟨rfl, List.append_cancel_left h⟩
    | cons t ts => simp [array, quote] at h
  | cons s ss =>
    cases ts with
    | nil => simp [array, quote] at h
    | cons t ts =>
      rw [array, array, List.cons_append, List.cons_append, List.cons.injEq, List.append_assoc,
        List.append_assoc] at h
      obtain ⟨rfl, hrest⟩ := quote_append_inj h.2
      obtain ⟨rfl, hxs⟩ := more_append_inj hrest
      exact ⟨rfl, hxs⟩

/-- Quoting makes a string no shorter. -/
theorem le_length_quote (s : String) : s.toList.length ≤ (quote s).length := by
  have hescape : ∀ c, 1 ≤ (escape c).length := fun c => by
    rw [escape]
    split_ifs <;> simp
  have hflat : s.toList.length ≤ (s.toList.flatMap escape).length := by
    induction s.toList with
    | nil => exact Nat.le_refl 0
    | cons c cs ih =>
      have := hescape c
      rw [List.flatMap_cons, List.length_append, List.length_cons]
      omega
  rw [quote, List.length_cons, List.length_append]
  omega

theorem le_length_more {k : Nat} (h : ∀ s ∈ ss, k ≤ s.toList.length) :
    ss.length * k ≤ (more ss).length := by
  induction ss with
  | nil => simp
  | cons s ss ih =>
    obtain ⟨hs, hss⟩ := List.forall_mem_cons.mp h
    have hquote := le_length_quote s
    have hmore := ih hss
    rw [more, List.length_cons, List.length_cons, List.length_append, Nat.succ_mul]
    omega

theorem le_length_array {k : Nat} (h : ∀ s ∈ ss, k ≤ s.toList.length) :
    ss.length * k ≤ (array ss).length := by
  cases ss with
  | nil => simp
  | cons s ss =>
    obtain ⟨hs, hss⟩ := List.forall_mem_cons.mp h
    have hquote := le_length_quote s
    have hmore := le_length_more hss
    rw [array, List.length_cons, List.length_cons, List.length_append, Nat.succ_mul]
    omega

theorem array_injective (h : array ss = array ts) : ss = ts := by
  have happend : array ss ++ [] = array ts ++ [] := by rw [h]
  exact (array_append_inj happend).1

end Quote
