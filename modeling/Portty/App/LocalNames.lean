import Portty.App.LocalUrls
import Portty.Host.AgentTurn
import Portty.Host.TerminalCapture

/-!
# The names of uploads and of download destinations (`local_files.rs`)

`plain_file_name` takes the last part of a name, a path or an id, drops control characters, replaces
the characters that Windows reserves, trims it, refuses what is empty or dots, cuts it to the
longest name and trims the end again.

* `plainFileName_cut`: the name is the start of the last part, as long as it fits, without the
  spaces at its end.
* `upload_names`: it is one plain name, unless the cut leaves only dots and white space
  (`CutAtDots`).
-/

namespace Portty.LocalFiles

open Portty.Host.AgentTurn (isWhitespace trim)
open TerminalCapture (byteLen isCharBoundary isCharBoundary_iff byteLen_append byteLen_cons byteLen_nil byteLen_pos)

/-- The longest name of a file, in bytes. -/
def maxFileNameBytes : Nat := 255

/-! ## Names -/

/-- Both are, on every system. -/
def isSeparator (c : Char) : Bool := c = '/' ∨ c = '\\'

/-- The characters that Windows reserves. -/
def isReserved (c : Char) : Bool := c ∈ ['<', '>', ':', '"', '|', '?', '*']

/-- What a file system would not take becomes `_`. -/
def replaceReserved (c : Char) : Char := if isReserved c then '_' else c

/-- `str::trim_end` -/
def trimEnd (text : Text) : Text := text.rdropWhile isWhitespace

/-- The `while` loop: the last boundary. -/
def floorBoundary (text : Text) : Nat → Nat
  | 0 => 0
  | n + 1 => if isCharBoundary text (n + 1) then n + 1 else floorBoundary text n

/-- `&text[..n]`, at a boundary. -/
def sliceTo : Text → Nat → Text
  | [], _ => []
  | c :: text, n => if c.utf8Size ≤ n then c :: sliceTo text (n - c.utf8Size) else []

/-- The last part, before it is cut. -/
def cleanedName (raw : Text) : Text :=
  trim (((afterLast isSeparator raw).filter (!isControl ·)).map replaceReserved)

/-- A name without a directory that every system takes. -/
def plainFileName (raw : Text) : Option Text :=
  let cleaned := cleanedName raw
  if emptySegment cleaned then none
  else
    let stop := floorBoundary cleaned (min (byteLen cleaned) maxFileNameBytes)
    some (trimEnd (sliceTo cleaned stop))

/-- `name_in_document_uri`, before its last call: the id of a document, when it is a path. -/
def pathInDocumentUri (uri : Text) : Option Text :=
  (stripPrefix contentScheme uri).bind fun rest =>
    let path := rest.takeWhile (· ∉ ['?', '#'])
    if '/' ∈ path then
      (percentDecode (afterLast (· = '/') path)).bind fun id => if '/' ∈ id then some id else none
    else none

/-- The name at the end of the path in a URI of a document. -/
def nameInDocumentUri (uri : Text) : Option Text := (pathInDocumentUri uri).bind plainFileName

/-- What names a local file, when its provider does not. -/
def localName (path : Text) : Option Text :=
  if contentScheme.isPrefixOf path then pathInDocumentUri path
  else if fileScheme.isPrefixOf path then fileUrlToPath path
  else some path

/-- The name under which a file is sent. -/
def suggestedUploadName (displayName : Option Text) (path : Text) : Text :=
  ((displayName.bind plainFileName).or ((localName path).bind plainFileName)).getD "upload".toList

/-- The name that is shown for a document. -/
def documentLabel (displayName : Option Text) (uri : Text) : Text :=
  ((displayName.bind plainFileName).or (nameInDocumentUri uri)).getD "the chosen file".toList

/-! ## What a name should be -/

/-- One plain file name, which is its own name. -/
structure SafeName (n : Text) : Prop where
  nonempty : n ≠ []
  short : byteLen n ≤ maxFileNameBytes
  plain : ∀ c ∈ n, isSeparator c = false ∧ isControl c = false ∧ isReserved c = false
  trimmed : trim n = n
  no_dots : n ≠ ['.'] ∧ n ≠ ['.', '.']
  stable : plainFileName n = some n

/-- The last part of a text, without control characters and without white space around it. -/
def lastPart (raw : Text) : Text := trim ((afterLast isSeparator raw).filter (!isControl ·))

/-- Dots and white space fill a name, and the last part goes on. -/
def CutAtDots (raw : Text) : Prop :=
  ∃ dots spaces c rest, lastPart raw = dots ++ spaces ++ c :: rest ∧ (dots = ['.'] ∨ dots = ['.', '.']) ∧
    (∀ s ∈ spaces, isWhitespace s = true) ∧ byteLen (dots ++ spaces) ≤ maxFileNameBytes ∧
    maxFileNameBytes < byteLen (dots ++ spaces) + c.utf8Size

/-! ## The cut -/

variable {text raw k rest n : Text} {c : Char} {m b : Nat}

theorem floorBoundary_le (text : Text) (m : Nat) : floorBoundary text m ≤ m := by
  induction m with
  | zero => exact Nat.le_refl 0
  | succ m ih =>
    rw [floorBoundary]
    split
    · exact Nat.le_refl _
    · exact Nat.le_succ_of_le ih

theorem isCharBoundary_floor (text : Text) (m : Nat) :
    isCharBoundary text (floorBoundary text m) = true := by
  induction m with
  | zero =>
    cases text <;> rfl
  | succ m ih =>
    rw [floorBoundary]
    split
    · assumption
    · exact ih

theorem le_floorBoundary (hb : isCharBoundary text b = true) (hle : b ≤ m) :
    b ≤ floorBoundary text m := by
  induction m with
  | zero => exact hle
  | succ m ih =>
    rw [floorBoundary]
    split
    · exact hle
    · next hno =>
      exact ih (Nat.le_of_lt_succ (Nat.lt_of_le_of_ne hle fun he => hno ((show b = m + 1 from he) ▸ hb)))

theorem sliceTo_append (k rest : Text) : sliceTo (k ++ rest) (byteLen k) = k := by
  induction k with
  | nil =>
    cases rest with
    | nil => rfl
    | cons c rest =>
      have := c.utf8Size_pos
      exact if_neg (by rw [byteLen_nil]; omega)
  | cons c k ih =>
    rw [List.cons_append, sliceTo, byteLen_cons, if_pos (Nat.le_add_right _ _),
      Nat.add_sub_cancel_left, ih]

/-- `k` is the longest start of a text within `m` bytes. -/
def Longest (m : Nat) (k rest : Text) : Prop :=
  byteLen k ≤ m ∧ ∀ c ∈ rest.head?, m < byteLen k + c.utf8Size

/-- Every text has a longest start of at most `m` bytes. -/
theorem exists_longest (m : Nat) (text : Text) : ∃ k rest, text = k ++ rest ∧ Longest m k rest := by
  induction text generalizing m with
  | nil => exact ⟨[], [], rfl, Nat.zero_le _, nofun⟩
  | cons c text ih =>
    by_cases hc : c.utf8Size ≤ m
    · obtain ⟨k, rest, rfl, hk, hrest⟩ := ih (m - c.utf8Size)
      refine ⟨c :: k, rest, rfl, by rw [byteLen_cons]; omega, fun d hd => ?_⟩
      have := hrest d hd
      rw [byteLen_cons]
      omega
    · refine ⟨[], c :: text, rfl, Nat.zero_le _, fun d hd => ?_⟩
      obtain rfl := Option.some.inj hd
      rw [byteLen_nil]
      omega

/-- The cut is at the end of the longest start. -/
theorem Longest.sliceTo (h : Longest m k rest) :
    sliceTo (k ++ rest) (floorBoundary (k ++ rest) (min (byteLen (k ++ rest)) m)) = k := by
  have hself : isCharBoundary (k ++ rest) (byteLen k) = true :=
    isCharBoundary_iff.mpr ⟨k, rest, rfl, rfl⟩
  have hlow : byteLen k ≤ floorBoundary (k ++ rest) (min (byteLen (k ++ rest)) m) :=
    le_floorBoundary hself (Nat.le_min.mpr ⟨by rw [byteLen_append]; exact Nat.le_add_right _ _, h.1⟩)
  have hhigh := floorBoundary_le (k ++ rest) (min (byteLen (k ++ rest)) m)
  obtain ⟨y, x, hsplit, hy⟩ :=
    isCharBoundary_iff.mp (isCharBoundary_floor (k ++ rest) (min (byteLen (k ++ rest)) m))
  have heq : byteLen y = byteLen k := by
    obtain ⟨more, hyk, hmore⟩ | ⟨more, hky, -⟩ := List.append_eq_append_iff.mp hsplit
    · cases more with
      | nil => rw [hyk, List.append_nil]
      | cons c more =>
        -- A later boundary would be past the next character.
        have hnext := h.2 c (by rw [hmore]; rfl)
        rw [hyk, byteLen_append, byteLen_cons] at hy
        omega
    · have hle : byteLen y ≤ byteLen k := by
        rw [hky, byteLen_append]
        exact Nat.le_add_right _ _
      omega
  rw [← hy, heq, sliceTo_append]

theorem Longest.unique {k' rest' : Text} (h : Longest m k rest) (h' : Longest m k' rest')
    (he : k ++ rest = k' ++ rest') :
    k = k' := by
  rw [← h.sliceTo, he, h'.sliceTo]

/-- The name is the start of the last part. -/
theorem plainFileName_cut (hempty : emptySegment (cleanedName raw) = false)
    (hsplit : cleanedName raw = k ++ rest)
    (hk : Longest maxFileNameBytes k rest) : plainFileName raw = some (trimEnd k) := by
  rw [plainFileName]
  dsimp only
  rw [if_neg (by rw [hempty]; decide), hsplit, hk.sliceTo]

theorem plainFileName_none (hempty : emptySegment (cleanedName raw) = true) :
    plainFileName raw = none :=
  if_pos hempty

/-! ## White space -/

theorem getLast?_trimEnd (hc : c ∈ (trimEnd text).getLast?) : isWhitespace c = false := by
  obtain ⟨hne, hlast⟩ := List.mem_getLast?_eq_getLast hc
  rw [hlast]
  exact Bool.eq_false_iff.mpr (List.rdropWhile_last_not isWhitespace text hne)

theorem trimEnd_split (text : Text) :
    ∃ spaces, text = trimEnd text ++ spaces ∧ ∀ s ∈ spaces, isWhitespace s = true :=
  ⟨text.rtakeWhile isWhitespace, List.rdropWhile_append_rtakeWhile.symm,
    fun _ hs => List.mem_rtakeWhile_imp hs⟩

theorem trimEnd_self (h : ∀ c ∈ text.getLast?, isWhitespace c = false) : trimEnd text = text := by
  refine List.rdropWhile_eq_self_iff.mpr fun hne => ?_
  rw [Bool.not_eq_true]
  exact h _ (List.getLast?_eq_some_getLast hne)

theorem trimEnd_append {spaces : Text} (hs : ∀ s ∈ spaces, isWhitespace s = true)
    (h : ∀ c ∈ text.getLast?, isWhitespace c = false) : trimEnd (text ++ spaces) = text := by
  induction spaces using List.reverseRecOn with
  | nil => rw [List.append_nil, trimEnd_self h]
  | append_singleton spaces s ih =>
    obtain ⟨hspaces, hlast⟩ := List.forall_mem_append.mp hs
    rw [trimEnd, ← List.append_assoc, List.rdropWhile_concat_pos _ _ _ (hlast s (List.mem_singleton_self s))]
    exact ih hspaces

theorem trim_eq (text : Text) : trim text = trimEnd (text.dropWhile isWhitespace) := rfl

theorem head?_trim (hc : c ∈ (trim text).head?) : isWhitespace c = false := by
  obtain ⟨spaces, hsplit, -⟩ := trimEnd_split (text.dropWhile isWhitespace)
  have hstop := List.head?_dropWhile_not isWhitespace text
  rw [hsplit, ← trim_eq, List.head?_append, Option.mem_def.mp hc] at hstop
  exact hstop

theorem trim_self (hhead : ∀ c ∈ text.head?, isWhitespace c = false)
    (hlast : ∀ c ∈ text.getLast?, isWhitespace c = false) : trim text = text := by
  have hdrop : text.dropWhile isWhitespace = text := by
    cases text with
    | nil => rfl
    | cons c text => exact List.dropWhile_cons_of_neg (by rw [hhead c rfl]; decide)
  rw [trim_eq, hdrop, trimEnd_self hlast]

theorem mem_trimEnd (hc : c ∈ trimEnd text) : c ∈ text := by
  have hstart : trimEnd text <+: text := List.rdropWhile_prefix isWhitespace text
  exact hstart.mem hc

theorem mem_trim (hc : c ∈ trim text) : c ∈ text :=
  (List.dropWhile_sublist isWhitespace).mem (mem_trimEnd hc)

theorem trim_map {f : Char → Char} (hf : ∀ c, isWhitespace (f c) = isWhitespace c) (text : Text) :
    trim (text.map f) = (trim text).map f := by
  have hcomp : isWhitespace ∘ f = isWhitespace := funext hf
  rw [trim_eq, trim_eq, trimEnd, trimEnd, List.rdropWhile, List.rdropWhile, List.dropWhile_map,
    hcomp, ← List.map_reverse, List.dropWhile_map, hcomp, ← List.map_reverse]

/-! ## The characters of a name -/

theorem replaceReserved_cases (c : Char) :
    (isReserved c = true ∧ replaceReserved c = '_') ∨
      (isReserved c = false ∧ replaceReserved c = c) := by
  rw [replaceReserved]
  cases h : isReserved c with
  | true => exact .inl ⟨rfl, rfl⟩
  | false => exact .inr ⟨rfl, rfl⟩

theorem isReserved_cases (h : isReserved c = true) :
    c = '<' ∨ c = '>' ∨ c = ':' ∨ c = '"' ∨ c = '|' ∨ c = '?' ∨ c = '*' := by
  simpa [isReserved] using h

theorem isWhitespace_replace (c : Char) : isWhitespace (replaceReserved c) = isWhitespace c := by
  obtain ⟨h, heq⟩ | ⟨-, heq⟩ := replaceReserved_cases c
  · rw [heq]
    obtain rfl | rfl | rfl | rfl | rfl | rfl | rfl := isReserved_cases h <;> rfl
  · rw [heq]

theorem utf8Size_replace (c : Char) : (replaceReserved c).utf8Size = c.utf8Size := by
  obtain ⟨h, heq⟩ | ⟨-, heq⟩ := replaceReserved_cases c
  · rw [heq]
    obtain rfl | rfl | rfl | rfl | rfl | rfl | rfl := isReserved_cases h <;> rfl
  · rw [heq]

theorem cleanedName_eq (raw : Text) : cleanedName raw = (lastPart raw).map replaceReserved :=
  trim_map isWhitespace_replace _

/-- Only `_` stands for other characters. -/
theorem replaceReserved_iff {d : Char} (hc : c ≠ '_') (hr : isReserved c = false) :
    replaceReserved d = c ↔ d = c := by
  obtain ⟨h, heq⟩ | ⟨h, heq⟩ := replaceReserved_cases d
  · rw [heq]
    refine ⟨fun he => absurd he.symm hc, fun he => ?_⟩
    rw [he, hr] at h
    cases h
  · rw [heq]

theorem map_replace_iff (h : ∀ c ∈ text, c ≠ '_' ∧ isReserved c = false) :
    raw.map replaceReserved = text ↔ raw = text := by
  induction text generalizing raw with
  | nil => exact List.map_eq_nil_iff
  | cons c text ih =>
    obtain ⟨⟨hc, hr⟩, h⟩ := List.forall_mem_cons.mp h
    cases raw with
    | nil => exact ⟨nofun, nofun⟩
    | cons d raw => rw [List.map_cons, List.cons.injEq, List.cons.injEq, replaceReserved_iff hc hr, ih h]

/-- What dots and white space are made of. -/
theorem dots_fixed {dots spaces : Text} (hdots : dots = ['.'] ∨ dots = ['.', '.'])
    (hs : ∀ s ∈ spaces, isWhitespace s = true) :
    ∀ c ∈ dots ++ spaces, c ≠ '_' ∧ isReserved c = false := by
  intro c hc
  obtain hc | hc := List.mem_append.mp hc
  · obtain rfl : c = '.' := by
      obtain rfl | rfl := hdots
      · exact List.mem_singleton.mp hc
      · simpa using hc
    exact ⟨by decide, by decide⟩
  · have hws := hs c hc
    refine ⟨?_, Bool.eq_false_iff.mpr fun hr => ?_⟩
    · rintro rfl
      cases hws
    · obtain rfl | rfl | rfl | rfl | rfl | rfl | rfl := isReserved_cases hr <;> cases hws

theorem emptySegment_iff :
    emptySegment text = true ↔ text = [] ∨ text = ['.'] ∨ text = ['.', '.'] := by
  rw [emptySegment, decide_eq_true_eq]

theorem cleanedName_plain (hc : c ∈ cleanedName raw) :
    isSeparator c = false ∧ isControl c = false ∧ isReserved c = false := by
  rw [cleanedName_eq] at hc
  obtain ⟨d, hd, rfl⟩ := List.mem_map.mp hc
  obtain ⟨hd, hcontrol⟩ := List.mem_filter.mp (mem_trim hd)
  have hsep := List.mem_rtakeWhile_imp hd
  obtain ⟨-, heq⟩ | ⟨hr, heq⟩ := replaceReserved_cases d
  · rw [heq]
    decide
  · rw [heq]
    exact ⟨(Bool.not_eq_true' _).mp hsep, (Bool.not_eq_true' _).mp hcontrol, hr⟩

/-- A name that is plain already is its own name. -/
theorem plainFileName_self (hempty : emptySegment n = false) (hshort : byteLen n ≤ maxFileNameBytes)
    (hplain : ∀ c ∈ n, isSeparator c = false ∧ isControl c = false ∧ isReserved c = false)
    (hhead : ∀ c ∈ n.head?, isWhitespace c = false)
    (hlast : ∀ c ∈ n.getLast?, isWhitespace c = false) :
    plainFileName n = some n := by
  have hlastPart : afterLast isSeparator n = n := afterLast_self fun c hc => (hplain c hc).1
  have hfilter : n.filter (!isControl ·) = n :=
    List.filter_eq_self.mpr fun c hc => by rw [(hplain c hc).2.1]; rfl
  have hmap : n.map replaceReserved = n := by
    refine (List.map_congr_left fun c hc => ?_).trans (List.map_id n)
    exact if_neg (by rw [(hplain c hc).2.2]; decide)
  have hclean : cleanedName n = n := by
    rw [cleanedName, hlastPart, hfilter, hmap, trim_self hhead hlast]
  have hk : Longest maxFileNameBytes n [] := ⟨hshort, nofun⟩
  rw [plainFileName_cut (by rwa [hclean]) (by rw [hclean, List.append_nil]) hk, trimEnd_self hlast]

/-! ## The cut name -/

/-- A last part that names something, and what is left of it. -/
structure Cut (raw k rest : Text) : Prop where
  named : emptySegment (cleanedName raw) = false
  split : cleanedName raw = k ++ rest
  longest : Longest maxFileNameBytes k rest

theorem exists_cut (h : emptySegment (cleanedName raw) = false) : ∃ k rest, Cut raw k rest := by
  obtain ⟨k, rest, hsplit, hk⟩ := exists_longest maxFileNameBytes (cleanedName raw)
  exact ⟨k, rest, h, hsplit, hk⟩

theorem Cut.plainFileName (h : Cut raw k rest) : plainFileName raw = some (trimEnd k) :=
  plainFileName_cut h.named h.split h.longest

/-- The first character stays, and it is not white space. -/
theorem Cut.head (h : Cut raw k rest) :
    ∃ c more, trimEnd k = c :: more ∧ isWhitespace c = false := by
  have hne : cleanedName raw ≠ [] := fun hnil => by
    have := h.named
    rw [hnil] at this
    cases this
  obtain ⟨c, more, hc⟩ := List.exists_cons_of_ne_nil hne
  have hhead : isWhitespace c = false := head?_trim (by rw [← cleanedName, hc]; rfl)
  cases k with
  | nil =>
    have hfit := h.longest.2 c (by rw [← List.nil_append rest, ← h.split, hc]; rfl)
    have := c.utf8Size_le_four
    rw [byteLen_nil, maxFileNameBytes] at hfit
    omega
  | cons d k =>
    have hd : c = d := by
      have hsplit := h.split
      rw [hc, List.cons_append] at hsplit
      exact (List.cons.inj hsplit).1
    obtain ⟨spaces, hspaces, hall⟩ := trimEnd_split (d :: k)
    cases hk : trimEnd (d :: k) with
    | nil =>
      rw [hk, List.nil_append] at hspaces
      have hws := hall d (by rw [← hspaces]; exact List.mem_cons_self)
      rw [← hd, hhead] at hws
      cases hws
    | cons e more =>
      rw [hk, List.cons_append] at hspaces
      refine ⟨e, more, rfl, ?_⟩
      rw [← (List.cons.inj hspaces).1, ← hd, hhead]

theorem Cut.mem (h : Cut raw k rest) (hc : c ∈ trimEnd k) : c ∈ cleanedName raw := by
  rw [h.split]
  exact List.mem_append_left _ (mem_trimEnd hc)

theorem Cut.short (h : Cut raw k rest) : byteLen (trimEnd k) ≤ maxFileNameBytes := by
  obtain ⟨spaces, hspaces, -⟩ := trimEnd_split k
  have hk := h.longest.1
  rw [hspaces, byteLen_append] at hk
  omega

/-- A cut name is safe, unless it is dots. -/
theorem Cut.safe (h : Cut raw k rest) :
    SafeName (trimEnd k) ↔ ¬ (trimEnd k = ['.'] ∨ trimEnd k = ['.', '.']) := by
  constructor
  · exact fun hsafe => not_or.mpr hsafe.no_dots
  · intro hdots
    obtain ⟨c, more, hcons, hws⟩ := h.head
    have hne : trimEnd k ≠ [] := by
      rw [hcons]
      exact List.cons_ne_nil c more
    have hhead : ∀ d ∈ (trimEnd k).head?, isWhitespace d = false := fun d hd => by
      rw [hcons] at hd
      rwa [← Option.some.inj hd]
    have hlast : ∀ d ∈ (trimEnd k).getLast?, isWhitespace d = false :=
      fun d hd => getLast?_trimEnd hd
    have hplain : ∀ d ∈ trimEnd k, isSeparator d = false ∧ isControl d = false ∧
        isReserved d = false :=
      fun d hd => cleanedName_plain (h.mem hd)
    have hempty : emptySegment (trimEnd k) = false :=
      Bool.eq_false_iff.mpr fun he => (emptySegment_iff.mp he).elim hne hdots
    exact ⟨hne, h.short, hplain, trim_self hhead hlast, not_or.mp hdots,
      plainFileName_self hempty h.short hplain hhead hlast⟩

/-- The last part goes on where the name was cut. -/
theorem Cut.dots_iff (h : Cut raw k rest) :
    (trimEnd k = ['.'] ∨ trimEnd k = ['.', '.']) ↔ CutAtDots raw := by
  constructor
  · intro hdots
    obtain ⟨spaces, hspaces, hall⟩ := trimEnd_split k
    cases rest with
    | nil =>
      -- Without a cut, the end is not white space already.
      have hlast : ∀ c ∈ (cleanedName raw).getLast?, isWhitespace c = false :=
        fun c hc => getLast?_trimEnd hc
      have hwhole := h.split
      rw [List.append_nil] at hwhole
      rw [← hwhole, trimEnd_self hlast] at hdots
      have := emptySegment_iff.mpr (.inr hdots)
      rw [h.named] at this
      cases this
    | cons c rest =>
      have hk : byteLen (trimEnd k ++ spaces) = byteLen k := by rw [← hspaces]
      have hsplit := h.split
      rw [cleanedName_eq, hspaces] at hsplit
      obtain ⟨x, y, hxy, hx, hy⟩ := List.map_eq_append_iff.mp hsplit
      obtain ⟨d, more, rfl, rfl, rfl⟩ := List.map_eq_cons_iff.mp hy
      rw [map_replace_iff (dots_fixed hdots hall)] at hx
      rw [hx] at hxy
      refine ⟨trimEnd k, spaces, d, more, hxy, hdots, hall, by rw [hk]; exact h.longest.1, ?_⟩
      rw [hk, ← utf8Size_replace]
      exact h.longest.2 _ rfl
  · rintro ⟨dots, spaces, c, more, hpart, hdots, hall, hle, hlt⟩
    have hmap : (dots ++ spaces).map replaceReserved = dots ++ spaces :=
      (map_replace_iff (dots_fixed hdots hall)).mpr rfl
    have hlong : Longest maxFileNameBytes (dots ++ spaces) ((c :: more).map replaceReserved) := by
      refine ⟨hle, fun d hd => ?_⟩
      rw [← Option.some.inj hd, utf8Size_replace]
      exact hlt
    have hsplit := h.split
    rw [cleanedName_eq, hpart, List.map_append, hmap] at hsplit
    rw [← hlong.unique h.longest hsplit, trimEnd_append hall]
    · exact hdots
    · intro d hd
      obtain rfl | rfl := hdots
      all_goals
        rw [← Option.some.inj hd]
        rfl

/-! ## Names of uploads and destinations -/

/-- A text names something when its last part is more than dots. -/
def namesFile (raw : Text) : Bool := !emptySegment (lastPart raw)

theorem emptySegment_cleanedName (raw : Text) :
    emptySegment (cleanedName raw) = !namesFile raw := by
  have hdots {text : Text} (h : text = [] ∨ text = ['.'] ∨ text = ['.', '.']) :
      ∀ c ∈ text, c ≠ '_' ∧ isReserved c = false := by
    obtain rfl | h := h
    · exact nofun
    · rw [← List.append_nil text]
      exact dots_fixed h nofun
  rw [namesFile, Bool.not_not, Bool.eq_iff_iff, emptySegment_iff, emptySegment_iff, cleanedName_eq,
    map_replace_iff (hdots (.inl rfl)), map_replace_iff (hdots (.inr (.inl rfl))),
    map_replace_iff (hdots (.inr (.inr rfl)))]

theorem plainFileName_isSome (raw : Text) : (plainFileName raw).isSome = namesFile raw := by
  have hempty := emptySegment_cleanedName raw
  cases hn : namesFile raw with
  | false => rw [plainFileName_none (by rw [hempty, hn]; rfl), Option.isSome_none]
  | true =>
    obtain ⟨k, rest, hcut⟩ : ∃ k rest, Cut raw k rest := exists_cut (by rw [hempty, hn]; rfl)
    rw [hcut.plainFileName, Option.isSome_some]

theorem CutAtDots.namesFile (h : CutAtDots raw) : namesFile raw = true := by
  obtain ⟨dots, spaces, c, rest, hpart, -, -, -, hlt⟩ := h
  have hlong : maxFileNameBytes < byteLen (lastPart raw) := by
    rw [hpart, byteLen_append, byteLen_cons]
    omega
  rw [LocalFiles.namesFile, Bool.not_eq_true', Bool.eq_false_iff]
  intro hempty
  obtain he | he | he := emptySegment_iff.mp hempty
  all_goals
    rw [he] at hlong
    exact absurd hlong (by decide)

theorem plainFileName_safe_iff (raw : Text) :
    (∀ n, plainFileName raw = some n → SafeName n) ↔ ¬ CutAtDots raw := by
  have hempty := emptySegment_cleanedName raw
  cases hn : namesFile raw with
  | false =>
    rw [plainFileName_none (by rw [hempty, hn]; rfl)]
    refine ⟨fun _ hcut => ?_, fun _ => nofun⟩
    rw [hcut.namesFile] at hn
    cases hn
  | true =>
    obtain ⟨k, rest, hcut⟩ : ∃ k rest, Cut raw k rest := exists_cut (by rw [hempty, hn]; rfl)
    rw [hcut.plainFileName, ← hcut.dots_iff, ← hcut.safe]
    constructor
    · exact fun h => h _ rfl
    · intro h n he
      rwa [← Option.some.inj he]

/-- The first name of some texts, in their order. -/
theorem firstName_safe_iff {default : Text} (hdefault : SafeName default) (offered : List Text) :
    SafeName ((offered.findSome? plainFileName).getD default) ↔
      ∀ raw, offered.find? namesFile = some raw → ¬ CutAtDots raw := by
  induction offered with
  | nil => exact ⟨fun _ => nofun, fun _ => hdefault⟩
  | cons x offered ih =>
    have hsome := plainFileName_isSome x
    cases hp : plainFileName x with
    | none =>
      rw [hp, Option.isSome_none] at hsome
      rw [List.findSome?_cons, hp, List.find?_cons_of_neg (by rw [← hsome]; decide), ih]
    | some n =>
      rw [hp, Option.isSome_some] at hsome
      have hx := plainFileName_safe_iff x
      rw [hp] at hx
      rw [List.findSome?_cons, hp, List.find?_cons_of_pos hsome.symm, Option.getD_some]
      constructor
      · intro h raw he
        rw [← Option.some.inj he, ← hx]
        intro n' hn'
        rwa [← Option.some.inj hn']
      · exact fun h => hx.mpr (h x rfl) n rfl

/-- The texts that may name an upload. -/
def uploadTexts (displayName : Option Text) (path : Text) : List Text :=
  displayName.toList ++ (localName path).toList

/-- The texts that may name a destination. -/
def labelTexts (displayName : Option Text) (uri : Text) : List Text :=
  displayName.toList ++ (pathInDocumentUri uri).toList

theorem findSome?_toList {α β : Type} (f : α → Option β) (x : Option α) :
    x.toList.findSome? f = x.bind f := by
  cases x with
  | none => rfl
  | some x =>
    rw [Option.toList_some, List.findSome?_cons, Option.bind_some, List.findSome?_nil]
    cases f x <;> rfl

theorem suggestedUploadName_eq (displayName : Option Text) (path : Text) :
    suggestedUploadName displayName path =
      ((uploadTexts displayName path).findSome? plainFileName).getD "upload".toList := by
  rw [uploadTexts, List.findSome?_append, findSome?_toList, findSome?_toList, suggestedUploadName]

theorem documentLabel_eq (displayName : Option Text) (uri : Text) :
    documentLabel displayName uri =
      ((labelTexts displayName uri).findSome? plainFileName).getD "the chosen file".toList := by
  rw [labelTexts, List.findSome?_append, findSome?_toList, findSome?_toList, documentLabel,
    nameInDocumentUri]

theorem plain_of_all (h : n.all (fun c => !isSeparator c && !isControl c && !isReserved c) = true) :
    ∀ c ∈ n, isSeparator c = false ∧ isControl c = false ∧ isReserved c = false := by
  intro c hc
  have hall := List.all_eq_true.mp h c hc
  rw [Bool.and_eq_true, Bool.and_eq_true, Bool.not_eq_true', Bool.not_eq_true',
    Bool.not_eq_true'] at hall
  exact and_assoc.mp hall

theorem safeName_upload : SafeName "upload".toList :=
  ⟨by decide, by decide, plain_of_all (by decide), by decide, by decide, by decide⟩

theorem safeName_chosenFile : SafeName "the chosen file".toList :=
  ⟨by decide, by decide, plain_of_all (by decide), by decide, by decide, by decide⟩

/-- Names are plain where a cut does not leave dots. -/
theorem upload_names (raw : Text) (displayName : Option Text) (path uri : Text) :
    ((∀ n, plainFileName raw = some n → SafeName n) ↔ ¬ CutAtDots raw) ∧
    (SafeName (suggestedUploadName displayName path) ↔
      ∀ text, (uploadTexts displayName path).find? namesFile = some text → ¬ CutAtDots text) ∧
    (SafeName (documentLabel displayName uri) ↔
      ∀ text, (labelTexts displayName uri).find? namesFile = some text → ¬ CutAtDots text) := by
  refine ⟨plainFileName_safe_iff raw, ?_, ?_⟩
  · rw [suggestedUploadName_eq]
    exact firstName_safe_iff safeName_upload _
  · rw [documentLabel_eq]
    exact firstName_safe_iff safeName_chosenFile _

/-- A dot, as many spaces as fit after it, and one letter. -/
theorem upload_names_dot : ¬ ∀ raw n, plainFileName raw = some n → SafeName n := by
  intro h
  have hmem : ∀ c ∈ '.' :: List.replicate 254 ' ' ++ ['x'], c = '.' ∨ c = ' ' ∨ c = 'x' := by
    intro c hc
    rw [List.cons_append, List.mem_cons, List.mem_append, List.mem_singleton] at hc
    exact hc.imp_right (Or.imp_left List.eq_of_mem_replicate)
  have hsep : afterLast isSeparator ('.' :: List.replicate 254 ' ' ++ ['x']) =
      '.' :: List.replicate 254 ' ' ++ ['x'] :=
    afterLast_self fun c hc => by obtain rfl | rfl | rfl := hmem c hc <;> rfl
  have hfilter : ('.' :: List.replicate 254 ' ' ++ ['x']).filter (!isControl ·) =
      '.' :: List.replicate 254 ' ' ++ ['x'] :=
    List.filter_eq_self.mpr fun c hc => by obtain rfl | rfl | rfl := hmem c hc <;> rfl
  have hpart : lastPart ('.' :: List.replicate 254 ' ' ++ ['x']) =
      '.' :: List.replicate 254 ' ' ++ ['x'] := by
    rw [lastPart, hsep, hfilter]
    refine trim_self (fun c hc => ?_) fun c hc => ?_
    · rw [← Option.some.inj hc]
      rfl
    · rw [List.getLast?_concat] at hc
      rw [← Option.some.inj hc]
      rfl
  have hlen : byteLen ('.' :: List.replicate 254 ' ') = 255 := by
    rw [byteLen_cons, byteLen, List.map_replicate, List.sum_replicate_nat]
    rfl
  refine (plainFileName_safe_iff ('.' :: List.replicate 254 ' ' ++ ['x'])).mp (h _)
    ⟨['.'], List.replicate 254 ' ', 'x', [], hpart, .inl rfl, fun s hs => ?_, ?_, ?_⟩
  · rw [List.eq_of_mem_replicate hs]
    rfl
  · rw [List.singleton_append, hlen]
    decide
  · rw [List.singleton_append, hlen]
    decide

end Portty.LocalFiles
