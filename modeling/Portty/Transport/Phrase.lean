import Portty.Lib.Tokens
import Portty.Transport.Ticket
import Portty.Transport.Wordlist

/-!
# Pairing phrases (`PairingSecret::to_phrase`, `from_phrase`)

Six words stand for the six bytes of a manual secret, from the table of the even positions and that
of the odd ones in turn. A phrase is read by its tokens, and their letters in any case.

* `findIdx?_iff`: a word of a table is at one index.
* `positions_eq_some`: the bytes of words, and the words of bytes.
* `fromPhrase_eq_some`: which secret a text is read as.
* `phrase_codec`: what is written is read, in every rendering, and what is accepted.
-/

namespace Portty.Phrase

open Host.AgentTurn (isWhitespace)
open Ticket (ofBytes ofBytes_toBytes)
open Tokens Wordlist

/-- What `from_phrase` splits a text at. -/
def isSeparator (c : Char) : Bool := c = '-' || isWhitespace c

/-- `str::eq_ignore_ascii_case` -/
def eqIgnoreAsciiCase (a b : Text) : Bool := a.map Char.toLower = b.map Char.toLower

/-- The words of the bytes from a position on. -/
def words : (i : Nat) → Bytes → List Text
  | _, [] => []
  | i, byte :: bytes => (table i).getD byte.toNat [] :: words (i + 1) bytes

/-- The six words of a secret that is typed. -/
def toPhrase : PairingSecret → Option Text
  | .ticket _ => none
  | .manual b => some (['-'].intercalate (words 0 (toBytes 6 b)))

/-- The bytes of the words from a position on, unless a word is not in the table of its position. -/
def positions : (i : Nat) → List Text → Option Bytes
  | _, [] => some []
  | i, word :: rest =>
    match (table i).findIdx? (eqIgnoreAsciiCase · word) with
    | none => none
    | some index => (positions (i + 1) rest).map (UInt8.ofNat index :: ·)

/-- The secret of six words. -/
def fromPhrase (s : Text) : Option PairingSecret :=
  let words := tokens isSeparator s
  if words.length ≠ 6 then none
  else (positions 0 words).map fun bytes => .manual (ofBytes 6 bytes)

/-- The same words, with letters of any case. -/
abbrev SameWords (ws ws' : List Text) : Prop :=
  List.Forall₂ (fun a b => eqIgnoreAsciiCase a b = true) ws ws'

/-- The words with letters of any case, and separators around them. -/
def Renders (words : List Text) (text : Text) : Prop :=
  ∃ lead spelled, text = spell lead spelled ∧ SameWords words (spelled.map Prod.fst) ∧
    (∀ c ∈ lead, isSeparator c = true) ∧ (∀ x ∈ spelled, ∀ c ∈ x.2, isSeparator c = true) ∧
    ∀ x ∈ spelled.dropLast, x.2 ≠ []

/-! ## Letters -/

variable {a b word word' text : Text} {i n : Nat} {bytes : Bytes} {ws : List Text}
  {secret : PairingSecret}

theorem toLower_of_not_upper {c : Char} (h : ¬ (65 ≤ c.toNat ∧ c.toNat ≤ 90)) : c.toLower = c :=
  dif_neg h

theorem lower_of_plain (h : Plain word) : word.map Char.toLower = word := by
  refine (List.map_congr_left fun c hc => ?_).trans (List.map_id word)
  have hlow : 97 ≤ c.toNat := (h.2 c hc).1
  exact toLower_of_not_upper (by omega)

theorem not_separator_of_small {c : Char} (h : 'a' ≤ c ∧ c ≤ 'z') : isSeparator c = false := by
  have hlow : 97 ≤ c.toNat := h.1
  have hhigh : c.toNat ≤ 122 := h.2
  have hdash : c ≠ '-' := by
    rintro rfl
    exact absurd hlow (by decide)
  simp only [isSeparator, isWhitespace, hdash, decide_false, Bool.false_or, decide_eq_false_iff_not]
  simp only [List.mem_cons, List.not_mem_nil, or_false]
  omega

/-- A separator is not a letter, in any case. -/
theorem toLower_separator {c : Char} (h : isSeparator c = true) : c.toLower = c := by
  refine toLower_of_not_upper fun hupper => ?_
  have hdash : c ≠ '-' := by
    rintro rfl
    exact absurd hupper.1 (by decide)
  simp only [isSeparator, isWhitespace, hdash, decide_false, Bool.false_or, decide_eq_true_eq] at h
  simp only [List.mem_cons, List.not_mem_nil, or_false] at h
  omega

/-- A spelling of a word of a table is not empty, and has no separator in it. -/
theorem spelling_of_plain (hplain : Plain word) (h : eqIgnoreAsciiCase word word' = true) :
    word' ≠ [] ∧ ∀ c ∈ word', isSeparator c = false := by
  have hmap : word = word'.map Char.toLower := by
    rw [← lower_of_plain hplain]
    exact of_decide_eq_true h
  refine ⟨fun hnil => hplain.1 (by rw [hmap, hnil]; rfl), fun c hc => ?_⟩
  cases hsep : isSeparator c with
  | false => rfl
  | true =>
    have hmem : c ∈ word := by
      rw [hmap, ← toLower_separator hsep]
      exact List.mem_map_of_mem hc
    rw [← hsep]
    exact not_separator_of_small (hplain.2 c hmem)

/-! ## Words and bytes -/

theorem getD_table (hlt : n < (table i).length) : (table i).getD n [] = (table i)[n] := by
  rw [List.getD_eq_getElem?_getD, List.getElem?_eq_getElem hlt, Option.getD_some]

theorem getD_mem (hn : n < 256) (i : Nat) : (table i).getD n [] ∈ table i := by
  have hlt : n < (table i).length := by rwa [table_length]
  rw [getD_table hlt]
  exact List.getElem_mem hlt

/-- The words of a table differ in more than the case of letters, so that each spelling is found at
one index. -/
theorem findIdx?_iff : (table i).findIdx? (eqIgnoreAsciiCase · word) = some n ↔
    n < 256 ∧ eqIgnoreAsciiCase ((table i).getD n []) word = true := by
  rw [List.findIdx?_eq_some_iff_getElem]
  constructor
  · rintro ⟨hlt, heq, -⟩
    rw [getD_table hlt]
    exact ⟨by rwa [table_length] at hlt, heq⟩
  · rintro ⟨hn, heq⟩
    have hlt : n < (table i).length := by rwa [table_length]
    rw [getD_table hlt] at heq
    refine ⟨hlt, heq, fun j hj heq' => ?_⟩
    have hplain :=
      fun k (hk : k < (table i).length) => lower_of_plain (table_plain i _ (List.getElem_mem hk))
    have hsame := (of_decide_eq_true heq').trans (of_decide_eq_true heq).symm
    rw [hplain, hplain] at hsame
    exact Nat.ne_of_lt hj ((table_nodup i).getElem_inj_iff.mp hsame)

theorem words_length (i : Nat) (bytes : Bytes) : (words i bytes).length = bytes.length := by
  induction bytes generalizing i with
  | nil => rfl
  | cons byte bytes ih => rw [words, List.length_cons, List.length_cons, ih]

theorem words_plain (i : Nat) (bytes : Bytes) : ∀ word ∈ words i bytes, Plain word := by
  induction bytes generalizing i with
  | nil => nofun
  | cons byte bytes ih =>
    refine List.forall_mem_cons.mpr ⟨?_, ih (i + 1)⟩
    exact table_plain i _ (getD_mem byte.toNat_lt i)

/-- Bytes and their words, in any spelling. -/
theorem positions_eq_some : positions i ws = some bytes ↔ SameWords (words i bytes) ws := by
  induction ws generalizing i bytes with
  | nil =>
    cases bytes with
    | nil => exact iff_of_true rfl .nil
    | cons byte bytes => exact iff_of_false nofun nofun
  | cons word rest ih =>
    cases bytes with
    | nil =>
      refine iff_of_false (fun h => ?_) nofun
      rw [positions] at h
      split at h
      · cases h
      · obtain ⟨bytes, -, hbytes⟩ := Option.map_eq_some_iff.mp h
        cases hbytes
    | cons byte bytes =>
      have hcons : SameWords (words i (byte :: bytes)) (word :: rest) ↔
          eqIgnoreAsciiCase ((table i).getD byte.toNat []) word = true ∧ SameWords (words (i + 1) bytes) rest :=
        List.forall₂_cons
      rw [hcons, ← ih, positions]
      constructor
      · intro h
        split at h
        · cases h
        · rename_i index hindex
          obtain ⟨rest', hrest, hbytes⟩ := Option.map_eq_some_iff.mp h
          obtain ⟨rfl, rfl⟩ := List.cons.inj hbytes
          obtain ⟨hlt, heq⟩ := findIdx?_iff.mp hindex
          rw [UInt8.toNat_ofNat', Nat.mod_eq_of_lt hlt]
          exact ⟨heq, hrest⟩
      · rintro ⟨heq, hrest⟩
        rw [findIdx?_iff.mpr ⟨byte.toNat_lt, heq⟩, hrest]
        simp only [Option.map_some, UInt8.ofNat_toNat]

/-- A phrase is read as a secret if it has its words. -/
theorem fromPhrase_eq_some : fromPhrase text = some secret ↔
    ∃ b, secret = .manual b ∧ SameWords (words 0 (toBytes 6 b)) (tokens isSeparator text) := by
  rw [fromPhrase]
  constructor
  · intro h
    split_ifs at h with hlen
    obtain ⟨bytes, hbytes, rfl⟩ := Option.map_eq_some_iff.mp h
    rw [positions_eq_some] at hbytes
    have hsix : bytes.length = 6 := by rw [← words_length 0, hbytes.length_eq, not_not.mp hlen]
    refine ⟨_, rfl, ?_⟩
    rwa [ofBytes, Framing.toBytes_word hsix]
  · rintro ⟨b, rfl, hsame⟩
    have hlen : (tokens isSeparator text).length = 6 := by
      rw [← hsame.length_eq, words_length, toBytes_length]
    rw [if_neg (not_not.mpr hlen), positions_eq_some.mpr hsame, Option.map_some, ofBytes_toBytes]

/-! ## Renderings -/

theorem SameWords.exists_of_mem {ws' : List Text} (h : SameWords ws ws') (hmem : word' ∈ ws') :
    ∃ word ∈ ws, eqIgnoreAsciiCase word word' = true := by
  induction h with
  | nil => cases hmem
  | cons heq h ih =>
    rcases List.mem_cons.mp hmem with rfl | hmem
    · exact ⟨_, List.mem_cons_self, heq⟩
    · obtain ⟨word, hword, heq⟩ := ih hmem
      exact ⟨word, List.mem_cons_of_mem _ hword, heq⟩

theorem tokens_of_renders (hplain : ∀ word ∈ ws, Plain word) (h : Renders ws text) :
    SameWords ws (tokens isSeparator text) := by
  obtain ⟨lead, spelled, rfl, hsame, hlead, hgaps, hapart⟩ := h
  have hwords : ∀ x ∈ spelled, x.1 ≠ [] ∧ ∀ c ∈ x.1, isSeparator c = false := by
    intro x hx
    obtain ⟨word, hword, heq⟩ := hsame.exists_of_mem (List.mem_map_of_mem (f := Prod.fst) hx)
    exact spelling_of_plain (hplain word hword) heq
  rwa [tokens_spelled ⟨hlead, hwords, hgaps, hapart⟩]

/-- The written phrase is a rendering of its words. -/
theorem renders_intercalate (ws : List Text) : Renders ws (['-'].intercalate ws) := by
  refine ⟨[], ?_⟩
  simp only [spell, List.nil_append]
  induction ws with
  | nil => exact ⟨[], rfl, .nil, List.forall_mem_nil _, List.forall_mem_nil _, List.forall_mem_nil _⟩
  | cons word ws ih =>
    have hself : eqIgnoreAsciiCase word word = true := decide_eq_true rfl
    cases ws with
    | nil => exact ⟨[(word, [])], by simp, .cons hself .nil, List.forall_mem_nil _, by simp, List.forall_mem_nil _⟩
    | cons word' ws =>
      obtain ⟨spelled, htext, hsame, -, hgaps, hapart⟩ := ih
      have hne : spelled ≠ [] := by
        rintro rfl
        cases hsame
      refine ⟨(word, ['-']) :: spelled, ?_, .cons hself hsame, List.forall_mem_nil _, ?_, ?_⟩
      · rw [List.intercalate_cons_cons, htext, List.flatMap_cons, List.append_assoc]
      · refine List.forall_mem_cons.mpr ⟨fun c hc => ?_, hgaps⟩
        rw [List.mem_singleton.mp hc]
        rfl
      · rw [List.dropLast_cons_of_ne_nil hne]
        exact List.forall_mem_cons.mpr ⟨List.cons_ne_nil _ _, hapart⟩

/-- Each token is a word of the table of its position. -/
theorem exists_bytes_iff : (∃ bytes, SameWords (words i bytes) ws) ↔
    ∀ j word, ws[j]? = some word → ∃ w ∈ table (i + j), eqIgnoreAsciiCase w word = true := by
  induction ws generalizing i with
  | nil => exact iff_of_true ⟨[], .nil⟩ nofun
  | cons word rest ih =>
    constructor
    · rintro ⟨bytes, hsame⟩
      cases bytes with
      | nil => cases hsame
      | cons byte bytes =>
        obtain ⟨heq, hrest⟩ := List.forall₂_cons.mp hsame
        intro j word' hj
        cases j with
        | zero =>
          obtain rfl := Option.some.inj hj
          exact ⟨_, getD_mem byte.toNat_lt i, heq⟩
        | succ j =>
          rw [show i + (j + 1) = i + 1 + j by omega]
          exact ih.mp ⟨bytes, hrest⟩ j word' hj
    · intro h
      have hfirst : ∃ w ∈ table i, eqIgnoreAsciiCase w word = true := h 0 word rfl
      obtain ⟨w, hw, heq⟩ := hfirst
      obtain ⟨n, hn, rfl⟩ := List.mem_iff_getElem.mp hw
      obtain ⟨bytes, hrest⟩ := ih.mpr fun j word' hj => by
        rw [show i + 1 + j = i + (j + 1) by omega]
        exact h (j + 1) word' hj
      refine ⟨UInt8.ofNat n :: bytes, .cons ?_ hrest⟩
      rw [UInt8.toNat_ofNat', Nat.mod_eq_of_lt (by rwa [table_length] at hn), getD_table hn]
      exact heq

theorem fromPhrase_isSome : (fromPhrase text).isSome = true ↔ (tokens isSeparator text).length = 6 ∧
    ∀ i word, (tokens isSeparator text)[i]? = some word → ∃ w ∈ table i,
      eqIgnoreAsciiCase w word = true := by
  have hwords : (∃ bytes, SameWords (words 0 bytes) (tokens isSeparator text)) ↔ ∀ i word,
      (tokens isSeparator text)[i]? = some word → ∃ w ∈ table (0 + i), eqIgnoreAsciiCase w word = true :=
    exists_bytes_iff
  simp only [Nat.zero_add] at hwords
  rw [← hwords, fromPhrase]
  by_cases hlen : (tokens isSeparator text).length = 6
  · rw [if_neg (not_not.mpr hlen), Option.isSome_map, Option.isSome_iff_exists]
    simp only [positions_eq_some, hlen, true_and]
  · rw [if_pos hlen]
    exact iff_of_false nofun fun h => hlen h.1

/-- For every secret of six bytes, every rendering of its phrase is read as the secret; a text is
accepted exactly if its tokens are one word of the table of each of the six positions, in order; and
two secrets have different phrases. -/
theorem phrase_codec :
    (∀ b, ∃ phrase, toPhrase (.manual b) = some phrase ∧ Renders (words 0 (toBytes 6 b)) phrase ∧
      ∀ text, Renders (words 0 (toBytes 6 b)) text → fromPhrase text = some (.manual b)) ∧
    (∀ text, (fromPhrase text).isSome = true ↔ (tokens isSeparator text).length = 6 ∧
      ∀ i word, (tokens isSeparator text)[i]? = some word → ∃ w ∈ table i,
        eqIgnoreAsciiCase w word = true) ∧
    ∀ a b, toPhrase (.manual a) = toPhrase (.manual b) → a = b := by
  have hread : ∀ b text, Renders (words 0 (toBytes 6 b)) text → fromPhrase text = some (.manual b) := fun b text h =>
    fromPhrase_eq_some.mpr ⟨b, rfl, tokens_of_renders (words_plain 0 _) h⟩
  refine ⟨fun b => ⟨_, rfl, renders_intercalate _, hread b⟩, fun _ => fromPhrase_isSome, fun a b h => ?_⟩
  have hread' := hread b _ (renders_intercalate _)
  rw [← Option.some.inj h, hread a _ (renders_intercalate _)] at hread'
  exact PairingSecret.manual.inj (Option.some.inj hread')

/-- Capitals, white space and a leading dash. -/
example : fromPhrase "-Able link\tAGED  lips-also-list ".toList = some (.manual 0x000102020303) := by
  decide +kernel

end Portty.Phrase
