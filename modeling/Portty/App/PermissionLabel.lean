import Portty.App.Policy
import Portty.Lib.Pieces

/-!
# Permission labels with a repeated rule (`policy.ts`)

`dedupePermissionLabel` cuts a label at its commas, takes the verb off the first part and drops the
parts that were there before.

* `dedupePermissionLabel_eq`: it joins the distinct entries again when one of them is there twice.
* `permission_label`: the label shows the distinct rules when nothing is there twice (`Unrepeated`),
  or when the commas of the rules make no entry of one equal to an entry of another (`Plain`).
-/

namespace Portty.Policy

open Pieces (pieces Piece)

/-- A `String`. -/
abbrev Text := List Char

/-! ## The label -/

/-- Where `.` does not go on. -/
def isLineEnd (c : Char) : Bool := c ∈ ['\n', '\r', '\u2028', '\u2029']

/-- A part of a word, with the flags `i` and `u`. -/
def isWordChar (c : Char) : Bool := Regex.isWord c || c = 'ſ' || c = '\u212a'

/-- `\ballow\s+`: what it takes and what comes after that. It is the longest run of spaces: after a
shorter one `(.*)$` has all of it to match. -/
def allowAt (before : Option Char) (text : Text) : Option (Text × Text) :=
  let spaces := (text.drop 5).takeWhile isSpace
  if before.any isWordChar = false ∧ (text.take 5).map Char.toLower = "allow".toList ∧ spaces ≠ [] then
    some (text.take 5 ++ spaces, (text.drop 5).dropWhile isSpace)
  else none

/-- `^(.*?\ballow\s+)(.*)$`, the start `before` taken by `.*?`. -/
def leadingFrom (before : Text) : Text → Option (Text × Text)
  | [] => none
  | c :: text =>
    match (allowAt before.getLast? (c :: text)).filter (!·.2.any isLineEnd) with
    | some (taken, rest) => some (before ++ taken, rest)
    | none => if isLineEnd c then none else leadingFrom (before ++ [c]) text

/-- The verb of the first part, and what it is about. -/
def leading (first : Text) : Text × Text := (leadingFrom [] first).getD ([], first)

/-- The loop: the parts that are not in `seen`. -/
def unique (seen : List Text) : List Text → List Text
  | [] => []
  | part :: more => if seen.contains part then unique seen more else part :: unique (part :: seen) more

/-- The parts, with `, ` between them. -/
def join (parts : List Text) : Text := [',', ' '].intercalate parts

/-- `name.split(",")`, trimmed and without the empty ones. -/
def parts (name : Text) : List Text := pieces isSpace ',' name

/-- The label without the parts that are there twice. -/
def dedupePermissionLabel (name : Text) : Text :=
  match parts name with
  | first :: second :: rest =>
    let kept := unique [] ((leading first).2 :: second :: rest)
    if kept.length = (first :: second :: rest).length then name else (leading first).1 ++ join kept
  | _ => name

/-! ## Labels of rules -/

/-- What the adapter sends. -/
def label (verb : Text) (rules : List Text) : Text := verb ++ join rules

/-- The entries that a label reads as, the first one without its verb. -/
def entries (name : Text) : List Text :=
  match parts name with
  | [] => []
  | first :: rest => (leading first).2 :: rest

/-- The verb of a label. -/
def verbOf (name : Text) : Text :=
  match parts name with
  | [] => []
  | first :: _ => (leading first).1

/-- It is written the way its entries are joined. -/
def Tidy (name : Text) : Prop := name = verbOf name ++ join (entries name)

instance (name : Text) : Decidable (Tidy name) := inferInstanceAs (Decidable (name = _))

/-- `Always Allow `. -/
def VerbPhrase (verb : Text) : Prop :=
  ∃ start word, verb = start ++ word ++ [' '] ∧ word.map Char.toLower = "allow".toList

/-- The verb and the distinct rules, in the order of their first occurrence. -/
def Shown (verb : Text) (rules : List Text) : Prop :=
  dedupePermissionLabel (label verb rules) = label verb rules.eraseDups

/-- No rule is there twice, and no part of the label. -/
def Unrepeated (verb : Text) (rules : List Text) : Prop :=
  rules.Nodup ∧ (entries (label verb rules)).Nodup

/-- Something is there twice, the entries are the parts of the rules, and no part is in two of the
distinct rules, or twice in one. -/
structure Plain (verb : Text) (rules : List Text) : Prop where
  again : ¬ (entries (label verb rules)).Nodup
  found : entries (label verb rules) = rules.flatMap parts
  apart : (rules.eraseDups.flatMap parts).Nodup
  tidy : Tidy (label verb rules.eraseDups)

/-- What the verb and the first rule are read as. -/
def firstEntries (verb : Text) (rules : List Text) : List Text :=
  entries (label verb (rules.take 1))

/-- The verb is not found at its end, so that it is read as a part of the rules, or with a part of
them. Nothing is there twice in what it is read as with the first rule; and the parts of the later
rules that are not among that, each one once, are the parts of the later distinct rules. -/
structure Missed (verb : Text) (rules : List Text) : Prop where
  again : ¬ (entries (label verb rules)).Nodup
  missed : entries (label verb rules) ≠ rules.flatMap parts
  own : (firstEntries verb rules).Nodup
  later : ((rules.tail.flatMap parts).removeAll (firstEntries verb rules)).eraseDups =
    rules.eraseDups.tail.flatMap parts
  tidy : Tidy (label verb rules.eraseDups)

/-! ## Facts about the parts -/

section Parts

variable {name verb first : Text} {rules seen more : List Text}

theorem isSpace_comma : isSpace ',' = false := by decide

theorem isSpace_blank : isSpace ' ' = true := by decide

theorem unique_eq (seen more : List Text) : unique seen more = (more.removeAll seen).eraseDups := by
  induction more generalizing seen with
  | nil => rfl
  | cons part more ih =>
    by_cases h : part ∈ seen
    · have hrest : (part :: more).removeAll seen = more.removeAll seen := by simp [List.removeAll, h]
      rw [unique, if_pos (List.contains_iff_mem.mpr h), ih, hrest]
    · have hrest : (part :: more).removeAll seen = part :: more.removeAll seen := by simp [List.removeAll, h]
      have hlater : (more.removeAll seen).filter (!· == part) = more.removeAll (part :: seen) := by
        rw [List.removeAll, List.removeAll, List.filter_filter]
        exact List.filter_congr fun a _ => by rw [Bool.eq_iff_iff]; simp
      rw [unique, if_neg (List.contains_iff_mem.not.mpr h), ih, hrest, List.eraseDups_cons, hlater]

/-- Nothing is lost between the verb and the rest. -/
theorem leadingFrom_append {before text taken rest : Text}
    (h : leadingFrom before text = some (taken, rest)) :
    taken ++ rest = before ++ text := by
  induction text generalizing before with
  | nil => cases h
  | cons c text ih =>
    rw [leadingFrom] at h
    split at h
    next taken' rest' hat =>
      obtain ⟨rfl, rfl⟩ := Prod.mk.inj (Option.some.inj h)
      have hat := (Option.filter_eq_some_iff.mp hat).1
      rw [allowAt] at hat
      split_ifs at hat with hcond
      obtain ⟨rfl, rfl⟩ := Prod.mk.inj (Option.some.inj hat)
      rw [List.append_assoc, List.append_assoc, List.takeWhile_append_dropWhile,
        List.take_append_drop]
    next =>
      split_ifs at h
      rw [ih h, List.append_assoc, List.singleton_append]

theorem leading_append (first : Text) : (leading first).1 ++ (leading first).2 = first := by
  rw [leading]
  cases h : leadingFrom [] first with
  | none => rfl
  | some m => exact leadingFrom_append h

/-- The label is rebuilt from its distinct entries when it has one twice. -/
theorem dedupePermissionLabel_eq (name : Text) : dedupePermissionLabel name =
    if (entries name).Nodup then name else verbOf name ++ join (entries name).eraseDups := by
  rw [dedupePermissionLabel, entries, verbOf]
  match parts name with
  | [] => exact (if_pos List.nodup_nil).symm
  | [first] => exact (if_pos (List.nodup_singleton _)).symm
  | first :: second :: rest =>
    have hkept : unique [] ((leading first).2 :: second :: rest) =
        ((leading first).2 :: second :: rest).eraseDups := by
      rw [unique_eq, List.removeAll_nil]
    simp only [hkept]
    refine if_congr ⟨fun h => ?_, fun h => ?_⟩ rfl rfl
    · exact Pieces.nodup_of_eraseDups_length h
    · rw [Pieces.eraseDups_of_nodup h]
      rfl

theorem join_cons (verb first : Text) (rest : List Text) :
    verb ++ join (first :: rest) = join ((verb ++ first) :: rest) := by
  cases rest with
  | nil => rw [join, join, List.intercalate_singleton, List.intercalate_singleton]
  | cons second rest =>
    rw [join, join, List.intercalate_cons_cons, List.intercalate_cons_cons, List.append_assoc,
      List.append_assoc, List.append_assoc]

theorem parts_join (first : Text) (rest : List Text) :
    parts (join (first :: rest)) = parts first ++ rest.flatMap parts :=
  Pieces.pieces_intercalate isSpace_comma isSpace_blank first rest

theorem parts_label (verb first : Text) (rest : List Text) :
    parts (label verb (first :: rest)) = parts (verb ++ first) ++ rest.flatMap parts := by
  rw [label, join_cons, parts_join]

/-- The verb is in the first part. -/
theorem parts_verb (hverb : VerbPhrase verb) (first : Text) : parts (verb ++ first) ≠ [] := by
  obtain ⟨start, word, rfl, hword⟩ := hverb
  cases word with
  | nil => cases hword
  | cons c word =>
    have hc : c.toLower = 'a' := (List.cons.inj hword).1
    have hmem : c ∈ start ++ (c :: word) ++ [' '] ++ first := by simp
    have hletter : c = 'a' ∨ c = 'A' := by
      rw [Char.toLower] at hc
      split_ifs at hc with hupper
      · right
        have hval := congrArg Char.val hc
        refine Char.ext (UInt32.toNat_inj.mp ?_)
        have hsum : (c.val + ('a'.val - 'A'.val)).toNat = 'a'.val.toNat :=
          congrArg UInt32.toNat hval
        have hle : c.val.toNat ≤ 90 := hupper.2
        rw [UInt32.toNat_add] at hsum
        have hshift : ('a'.val - 'A'.val).toNat = 32 := by decide
        have ha : 'a'.val.toNat = 97 := by decide
        have hA : 'A'.val.toNat = 65 := by decide
        omega
      · exact .inl hc
    obtain rfl | rfl := hletter
    · exact Pieces.pieces_ne_nil hmem (by decide) (by decide)
    · exact Pieces.pieces_ne_nil hmem (by decide) (by decide)

theorem entries_eq {rest : List Text} (h : parts name = first :: rest) :
    entries name = (leading first).2 :: rest := by
  rw [entries, h]

theorem verbOf_eq {rest : List Text} (h : parts name = first :: rest) :
    verbOf name = (leading first).1 := by
  rw [verbOf, h]

/-- A label that is rebuilt reads as the entries it was rebuilt from. -/
theorem entries_rebuilt (hne : parts name ≠ []) :
    entries (verbOf name ++ join (entries name).eraseDups) = (entries name).eraseDups := by
  obtain ⟨first, rest, hparts⟩ := List.exists_cons_of_ne_nil hne
  rw [entries_eq hparts, verbOf_eq hparts, List.eraseDups_cons, join_cons, leading_append]
  generalize hkept : (rest.filter (!· == (leading first).2)).eraseDups = kept
  have hpiece : ∀ p ∈ first :: rest, Piece isSpace ',' p := fun p hp => by
    rw [← hparts] at hp
    exact Pieces.piece_of_mem hp
  have hmem : ∀ p ∈ kept, Piece isSpace ',' p := fun p hp => by
    rw [← hkept, List.mem_eraseDups] at hp
    exact hpiece p (List.mem_cons_of_mem _ (List.mem_of_mem_filter hp))
  have hread : parts (join (first :: kept)) = first :: kept := by
    have hfirst : parts first = [first] := (hpiece first List.mem_cons_self).pieces
    have hrest : kept.flatMap parts = kept := Pieces.flatMap_pieces hmem
    rw [parts_join, hfirst, hrest, List.singleton_append]
  exact entries_eq hread

/-- The later rules add their parts to what the verb and the first rule are read as. -/
theorem read_label (hverb : VerbPhrase verb) (first : Text) (rest : List Text) :
    entries (label verb (first :: rest)) = firstEntries verb (first :: rest) ++ rest.flatMap parts ∧
      verbOf (label verb (first :: rest)) = verbOf (label verb [first]) := by
  obtain ⟨head, more, hparts⟩ := List.exists_cons_of_ne_nil (parts_verb hverb first)
  have hread : ∀ others : List Text,
      parts (label verb (first :: others)) = head :: (more ++ others.flatMap parts) := fun others => by
    rw [parts_label, hparts, List.cons_append]
  have hfirst : firstEntries verb (first :: rest) = (leading head).2 :: more := by
    rw [firstEntries, List.take_succ_cons, List.take_zero, entries_eq (hread []), List.flatMap_nil,
      List.append_nil]
  rw [verbOf_eq (hread _), verbOf_eq (hread _), entries_eq (hread _), hfirst]
  exact ⟨rfl, rfl⟩

theorem entries_distinct (hverb : VerbPhrase verb) (first : Text) (rest : List Text) :
    entries (label verb (first :: rest).eraseDups) =
      firstEntries verb (first :: rest) ++ (first :: rest).eraseDups.tail.flatMap parts := by
  rw [List.eraseDups_cons, (read_label hverb first _).1]
  rfl

theorem verbOf_distinct (hverb : VerbPhrase verb) (rules : List Text) :
    verbOf (label verb rules.eraseDups) = verbOf (label verb rules) := by
  cases rules with
  | nil => rfl
  | cons first rest =>
    rw [List.eraseDups_cons, (read_label hverb first _).2, (read_label hverb first rest).2]

end Parts

/-! ## What a label shows -/

section Shown

variable {verb : Text} {rules : List Text}

theorem nodup_of_label (h : label verb rules = label verb rules.eraseDups) : rules.Nodup :=
  Pieces.nodup_of_intercalate (List.cons_ne_nil _ _) (List.append_cancel_left h)

/-- Two ways to show the distinct rules: nothing is dropped, or what is left is written as they are.
-/
theorem shown_iff_same (hverb : VerbPhrase verb) : Shown verb rules ↔ Unrepeated verb rules ∨
    (¬ (entries (label verb rules)).Nodup ∧
      (entries (label verb rules)).eraseDups = entries (label verb rules.eraseDups) ∧
        Tidy (label verb rules.eraseDups)) := by
  rw [Shown, dedupePermissionLabel_eq]
  by_cases hnodup : (entries (label verb rules)).Nodup
  · rw [if_pos hnodup]
    refine ⟨fun h => .inl ⟨nodup_of_label h, hnodup⟩, fun h => ?_⟩
    obtain ⟨hrules, -⟩ | ⟨hagain, -⟩ := h
    · rw [Pieces.eraseDups_of_nodup hrules]
    · exact absurd hnodup hagain
  · rw [if_neg hnodup]
    have hread := entries_rebuilt (parts_verb hverb (join rules))
    have hentries : entries (verbOf (label verb rules) ++ join (entries (label verb rules)).eraseDups) =
        (entries (label verb rules)).eraseDups := hread
    constructor
    · intro h
      rw [h] at hentries
      refine .inr ⟨hnodup, hentries.symm, ?_⟩
      rw [Tidy, hentries, verbOf_distinct hverb, h]
    · rintro (⟨-, h⟩ | ⟨-, h, htidy⟩)
      · exact absurd h hnodup
      · rw [Tidy, ← h, verbOf_distinct hverb] at htidy
        exact htidy.symm

/-- The verb is found: the rules make the entries. -/
theorem same_iff_apart (hverb : VerbPhrase verb)
    (hfound : entries (label verb rules) = rules.flatMap parts) :
    (entries (label verb rules)).eraseDups = entries (label verb rules.eraseDups) ↔
      (rules.eraseDups.flatMap parts).Nodup := by
  have hdistinct : entries (label verb rules.eraseDups) = rules.eraseDups.flatMap parts := by
    cases rules with
    | nil => exact hfound
    | cons first rest =>
      have hentries := (read_label hverb first rest).1
      rw [hfound, List.flatMap_cons] at hentries
      rw [entries_distinct hverb, ← List.append_cancel_right hentries, List.eraseDups_cons,
        List.tail_cons, List.flatMap_cons]
  rw [hdistinct, hfound, Pieces.eraseDups_flatMap]
  refine ⟨fun h => ?_, Pieces.eraseDups_of_nodup⟩
  rw [← h]
  exact Pieces.nodup_eraseDups _

/-- The first entries, and what the later rules add to them. -/
theorem same_iff_later (hverb : VerbPhrase verb) :
    (entries (label verb rules)).eraseDups = entries (label verb rules.eraseDups) ↔
      (firstEntries verb rules).Nodup ∧
        ((rules.tail.flatMap parts).removeAll (firstEntries verb rules)).eraseDups =
          rules.eraseDups.tail.flatMap parts := by
  cases rules with
  | nil =>
    have hfirst : firstEntries verb [] = entries (label verb []) := rfl
    rw [hfirst, List.eraseDups_nil]
    refine ⟨fun h => ⟨?_, rfl⟩, fun h => Pieces.eraseDups_of_nodup h.1⟩
    rw [← h]
    exact Pieces.nodup_eraseDups _
  | cons first rest =>
    have hall := Pieces.nodup_eraseDups (entries (label verb (first :: rest)))
    rw [(read_label hverb first rest).1, List.eraseDups_append] at hall ⊢
    rw [entries_distinct hverb, List.tail_cons]
    constructor
    · intro h
      rw [h] at hall
      have hnodup := (List.nodup_append.mp hall).1
      rw [Pieces.eraseDups_of_nodup hnodup] at h
      exact ⟨hnodup, List.append_cancel_left h⟩
    · rintro ⟨hnodup, hlater⟩
      rw [Pieces.eraseDups_of_nodup hnodup, hlater]

/-- Rules without commas, after a verb that is found at its end. -/
theorem shown_of_pieces {first : Text} {rest : List Text} (hverb : VerbPhrase verb)
    (hrules : ∀ rule ∈ first :: rest, Piece isSpace ',' rule)
    (hfirst : Piece isSpace ',' (verb ++ first))
    (hfound : leading (verb ++ first) = (verb, first)) : Shown verb (first :: rest) := by
  have hread : ∀ others : List Text, (∀ rule ∈ others, rule ∈ rest) →
      parts (label verb (first :: others)) = (verb ++ first) :: others := fun others hsub => by
    have hone : parts (verb ++ first) = [verb ++ first] := hfirst.pieces
    have hothers : others.flatMap parts = others :=
      Pieces.flatMap_pieces fun rule hrule => hrules rule (List.mem_cons_of_mem _ (hsub rule hrule))
    rw [parts_label, hone, hothers, List.singleton_append]
  have hall := hread rest fun _ hrule => hrule
  have hdistinct := hread (rest.filter (!· == first)).eraseDups fun rule hrule =>
    List.mem_of_mem_filter (List.mem_eraseDups.mp hrule)
  have hentries : entries (label verb (first :: rest)) = first :: rest := by
    rw [entries_eq hall, hfound]
  refine (shown_iff_same hverb).mpr ?_
  by_cases hnodup : (first :: rest).Nodup
  · exact .inl ⟨hnodup, by rwa [hentries]⟩
  · refine .inr ⟨by rwa [hentries], ?_, ?_⟩
    · rw [hentries, List.eraseDups_cons, entries_eq hdistinct, hfound]
    · rw [List.eraseDups_cons, Tidy, entries_eq hdistinct, verbOf_eq hdistinct, hfound]
      rfl

theorem permission_label (verb : Text) (rules : List Text) (hverb : VerbPhrase verb) :
    Shown verb rules ↔ Unrepeated verb rules ∨ Plain verb rules ∨ Missed verb rules := by
  rw [shown_iff_same hverb]
  refine or_congr_right ⟨fun ⟨hagain, hsame, htidy⟩ => ?_, ?_⟩
  · by_cases hfound : entries (label verb rules) = rules.flatMap parts
    · exact .inl ⟨hagain, hfound, (same_iff_apart hverb hfound).mp hsame, htidy⟩
    · obtain ⟨hown, hlater⟩ := (same_iff_later hverb).mp hsame
      exact .inr ⟨hagain, hfound, hown, hlater, htidy⟩
  · rintro (h | h)
    · exact ⟨h.again, (same_iff_apart hverb h.found).mpr h.apart, h.tidy⟩
    · exact ⟨h.again, (same_iff_later hverb).mpr ⟨h.own, h.later⟩, h.tidy⟩

theorem permission_label_repeated : VerbPhrase "Always Allow ".toList ∧
    Shown "Always Allow ".toList ["Bash(a)".toList, "Bash(b, c)".toList, "Bash(a)".toList] := by
  have hverb : VerbPhrase "Always Allow ".toList :=
    ⟨"Always ".toList, "Allow".toList, by decide, by decide⟩
  refine ⟨hverb, (permission_label _ _ hverb).mpr (.inr (.inl ⟨by decide, by decide, by decide, by decide⟩))⟩

/-- The end of the second rule is dropped. -/
theorem permission_label_cut : ¬ ∀ verb rules, VerbPhrase verb → Shown verb rules := by
  intro h
  have hshown := h "Always Allow ".toList ["Bash(a, b)".toList, "Bash(c, b)".toList]
    ⟨"Always ".toList, "Allow".toList, by decide, by decide⟩
  rw [Shown] at hshown
  revert hshown
  decide

end Shown

end Portty.Policy
