import Mathlib.Data.List.DropRight
import Portty.Lib.Percent
import Portty.Lib.Utf8Encode

/-!
# The local files that a webview may name (`local_files.rs`)

`classify_local_file`: a path on the desktop, a `content://` document of another app on Android, a
`file://` URL on iOS, which names a path (`file_url_to_path`).

* `fileUrlToPath_iff`: the URLs of a path are its escaped forms, whichever bytes are escaped; only
  the `/` at the start stands as itself.
* `isForeignDocument_iff`, `providerOf_plain`: a document is of a provider that is spelled in plain
  characters, so the provider that Android asks is the one that was compared with the package of the
  app.
-/

namespace Portty.LocalFiles

open Utf8 (encode fromUtf8)
open Percent (Escapes)

/-- Texts are lists of characters. -/
abbrev Text := List Char

/-- The scheme of documents. -/
def contentScheme : Text := "content://".toList

/-- The scheme of files. -/
def fileScheme : Text := "file://".toList

/-- The refusal of what no picker gives. -/
def pickerOnly : Text := "only a file chosen in the system file picker can be transferred".toList

/-- Where the app runs. -/
inductive Platform where
  | desktop
  | android
  | ios
  deriving DecidableEq

/-- A file by its path, or a document. -/
inductive LocalFile where
  | path (p : Text)
  | document (uri : Text)
  deriving DecidableEq

/-! ## Texts -/

/-- `char::is_control` -/
def isControl (c : Char) : Bool := c.toNat < 0x20 ∨ (0x7F ≤ c.toNat ∧ c.toNat < 0xA0)

/-- `strip_prefix` -/
def stripPrefix (pre text : Text) : Option Text :=
  if pre.isPrefixOf text then some (text.drop pre.length) else none

/-- `split_once` -/
def splitOnce (sep : Char) (text : Text) : Option (Text × Text) :=
  if sep ∈ text then some (text.takeWhile (· ≠ sep), (text.dropWhile (· ≠ sep)).drop 1) else none

/-- The text after the last separator, all of it without one. -/
def afterLast (sep : Char → Bool) (text : Text) : Text := text.rtakeWhile (!sep ·)

/-- The text behind the escapes, if it is UTF-8. -/
def percentDecode (text : Text) : Option Text :=
  (Percent.decode (encode text)).bind fun decoded => (fromUtf8 decoded).toOption

/-! ## URLs -/

/-- The segments that do not name a file. -/
def emptySegment (segment : Text) : Bool := segment = [] ∨ segment = ['.'] ∨ segment = ['.', '.']

/-- The path of a URL with neither query nor fragment. -/
def fileUrlToPath (url : Text) : Option Text :=
  (stripPrefix fileScheme url).bind fun encoded =>
    if encoded.head? ≠ some '/' ∨ '?' ∈ encoded ∨ '#' ∈ encoded then none
    else
      (percentDecode encoded).bind fun path =>
        let plain := ((path.drop 1).splitOn '/').all (!emptySegment ·)
        if !plain ∨ path.any isControl then none else some path

/-! ## Documents -/

/-- What the name of a provider is made of. -/
def providerChar (c : Char) : Bool := c.isAlphanum ∨ c = '.' ∨ c = '_' ∨ c = '-'

/-- Other characters stay as they are. -/
def asciiLowercase (text : Text) : Text := text.map Char.toLower

/-- What stands before the path. -/
def authority (rest : Text) : Text := rest.takeWhile (· ∉ ['/', '?', '#'])

/-- The provider of an authority, without the user. -/
def provider (authority : Text) : Option Text :=
  match splitOnce '@' authority with
  | some (user, provider) => if user ≠ [] ∧ user.all Char.isDigit then some provider else none
  | none => some authority

/-- The package, and what is below it. -/
def isOwn (ownPackage provider : Text) : Bool :=
  provider = ownPackage ∨ (ownPackage ++ ['.']).isPrefixOf provider

/-- A document of a provider other than the app's own. -/
def isForeignDocument (uri ownPackage : Text) : Bool :=
  if uri.any isControl then false
  else
    match (stripPrefix contentScheme uri).bind fun rest => provider (authority rest) with
    | none => false
    | some provider =>
      if provider ≠ [] ∧ provider.all providerChar then
        !isOwn (asciiLowercase ownPackage) (asciiLowercase provider)
      else false

/-- What the picker has given, by the platform. -/
def classifyLocalFile (raw : Text) (platform : Platform) (ownPackage : Text) :
    Except Text LocalFile :=
  match platform with
  | .desktop => .ok (.path raw)
  | .android => if isForeignDocument raw ownPackage then .ok (.document raw) else .error pickerOnly
  | .ios =>
    match fileUrlToPath raw with
    | some p => .ok (.path p)
    | none => .error pickerOnly

/-! ## The texts -/

variable {url uri raw own enc p text pre rest : Text} {c sep : Char}

theorem stripPrefix_eq : stripPrefix pre text = some rest ↔ text = pre ++ rest := by
  rw [stripPrefix]
  constructor
  · intro h
    split at h
    · next hp =>
      obtain ⟨more, rfl⟩ := List.isPrefixOf_iff_prefix.mp hp
      rw [List.drop_left] at h
      rw [Option.some.inj h]
    · cases h
  · rintro rfl
    rw [if_pos (List.isPrefixOf_iff_prefix.mpr (List.prefix_append _ _)), List.drop_left]

/-- Decoding undoes exactly the escapes. -/
theorem percentDecode_iff :
    percentDecode enc = some p ↔ Escapes (· ≠ Percent.percent) (encode enc) (encode p) := by
  rw [percentDecode, ← Percent.decode_iff, Option.bind_eq_some_iff]
  constructor
  · rintro ⟨bytes, hb, h⟩
    cases hf : fromUtf8 bytes with
    | ok text =>
      rw [hf] at h
      cases h
      rw [hb, Utf8.fromUtf8_iff.mp hf]
    | error e =>
      rw [hf] at h
      cases h
  · intro h
    exact ⟨encode p, h, by rw [Utf8.fromUtf8_iff.mpr rfl]; rfl⟩

/-! ## The URLs of a path -/

/-- What the gate is for: an absolute path of plain segments. -/
structure PlainPath (p : Text) : Prop where
  absolute : p.head? = some '/'
  segments : ∀ segment ∈ (p.drop 1).splitOn '/', segment ≠ [] ∧ segment ≠ ['.'] ∧ segment ≠ ['.', '.']
  printed : ∀ c ∈ p, isControl c = false

/-- The bytes that a URL may have as they are. -/
def BareByte (b : UInt8) : Prop := b ≠ Percent.percent ∧ b ≠ Utf8.ascii '?' ∧ b ≠ Utf8.ascii '#'

/-- A URL has no bare `?` or `#` in its path. -/
theorem escapes_bareByte : Escapes BareByte (encode enc) (encode p) ↔
    Escapes (· ≠ Percent.percent) (encode enc) (encode p) ∧ '?' ∉ enc ∧ '#' ∉ enc := by
  have hdigit (b : UInt8) (h : Percent.hexDigit b ≠ none) : b ≠ Utf8.ascii '?' ∧
      b ≠ Utf8.ascii '#' := by
    constructor
    all_goals
      rintro rfl
      exact h (by decide)
  have hbytes : (∀ b ∈ encode enc, b ≠ Utf8.ascii '?' ∧ b ≠ Utf8.ascii '#') ↔ '?' ∉ enc ∧
      '#' ∉ enc := by
    rw [← Utf8.ascii_mem_encode (by decide : '?'.toNat < 0x80),
      ← Utf8.ascii_mem_encode (by decide : '#'.toNat < 0x80)]
    constructor
    · exact fun h => ⟨fun hq => (h _ hq).1 rfl, fun hs => (h _ hs).2 rfl⟩
    · rintro ⟨hq, hs⟩ b hb
      exact ⟨fun he => hq (he ▸ hb), fun he => hs (he ▸ hb)⟩
  rw [← hbytes]
  exact Percent.escapes_and (by decide) hdigit

/-- A `/` at the start stays. -/
theorem Escapes.head_slash (h : Escapes BareByte (encode enc) (encode p))
    (henc : enc.head? = some '/') :
    p.head? = some '/' := by
  obtain ⟨more, rfl⟩ := List.head?_eq_some_iff.mp henc
  have hslash : String.utf8EncodeChar '/' = [Utf8.ascii '/'] := Utf8.encode_char_ascii (by decide)
  rw [Utf8.encode_cons, hslash, List.singleton_append] at h
  obtain ⟨bytes, hb⟩ := h.head (by decide)
  obtain ⟨rest, hrest⟩ : ∃ rest, bytes = encode rest :=
    Utf8.encode_split [Utf8.ascii '/'] hb (List.forall_mem_singleton.mpr (by decide))
  have hp : encode p = encode ('/' :: rest) := by
    rw [hb, Utf8.encode_cons, hslash, hrest]
    rfl
  rw [Utf8.encode_injective hp]
  rfl

theorem emptySegment_false {segment : Text} :
    (!emptySegment segment) = true ↔ segment ≠ [] ∧ segment ≠ ['.'] ∧ segment ≠ ['.', '.'] := by
  rw [emptySegment, Bool.not_eq_true', decide_eq_false_iff_not, not_or, not_or]

theorem printed_of_any (h : text.any isControl = false) : ∀ c ∈ text, isControl c = false :=
  fun c hc => Bool.eq_false_iff.mpr (List.any_eq_false.mp h c hc)

/-- The URLs of a path are those that spell it. -/
theorem fileUrlToPath_iff : fileUrlToPath url = some p ↔ PlainPath p ∧
    ∃ enc, url = fileScheme ++ enc ∧ enc.head? = some '/' ∧
      Escapes BareByte (encode enc) (encode p) := by
  rw [fileUrlToPath, Option.bind_eq_some_iff]
  constructor
  · rintro ⟨enc, hurl, h⟩
    split at h
    · cases h
    · next hshape =>
      rw [not_or, not_or, not_not] at hshape
      obtain ⟨path, hpath, h⟩ := Option.bind_eq_some_iff.mp h
      dsimp only at h
      split at h
      · cases h
      · next hplain =>
        obtain rfl := Option.some.inj h
        rw [not_or, Bool.not_eq_true', Bool.not_eq_false, Bool.not_eq_true] at hplain
        have henc := escapes_bareByte.mpr ⟨percentDecode_iff.mp hpath, hshape.2⟩
        refine ⟨⟨Escapes.head_slash henc hshape.1, fun segment hs => ?_, printed_of_any hplain.2⟩,
          enc, stripPrefix_eq.mp hurl, hshape.1, henc⟩
        exact emptySegment_false.mp (List.all_eq_true.mp hplain.1 segment hs)
  · rintro ⟨hp, enc, hurl, hhead, henc⟩
    obtain ⟨hdec, hq, hs⟩ := escapes_bareByte.mp henc
    refine ⟨enc, stripPrefix_eq.mpr hurl, ?_⟩
    rw [if_neg (by rw [not_or, not_or, not_not]; exact ⟨hhead, hq, hs⟩), percentDecode_iff.mpr hdec,
      Option.bind_some]
    refine if_neg ?_
    rw [not_or, Bool.not_eq_true', Bool.not_eq_false, Bool.not_eq_true, List.any_eq_false]
    exact ⟨List.all_eq_true.mpr fun segment hs => emptySegment_false.mpr (hp.segments segment hs),
      fun c hc => Bool.eq_false_iff.mp (hp.printed c hc)⟩

/-! ## The documents of other apps -/

/-- The provider that Android asks for an authority: its escapes decoded, without a user id, in one
case. -/
def androidProvider (authority : Text) : Option Text :=
  (percentDecode authority).map fun decoded => asciiLowercase (afterLast (· = '@') decoded)

/-- The end of an authority. -/
def EndsAuthority (rest : Text) : Prop := ∀ c ∈ rest.head?, c ∈ ['/', '?', '#']

theorem authority_split (rest : Text) :
    ∃ more, rest = authority rest ++ more ∧ (∀ c ∈ authority rest, c ∉ ['/', '?', '#']) ∧
      EndsAuthority more := by
  refine ⟨rest.dropWhile (· ∉ ['/', '?', '#']), (List.takeWhile_append_dropWhile).symm, fun c hc => ?_, fun c hc => ?_⟩
  · exact of_decide_eq_true (List.all_eq_true.mp List.all_takeWhile c hc)
  · have hstop := List.head?_dropWhile_not (fun c => decide (c ∉ ['/', '?', '#'])) rest
    rw [Option.mem_def.mp hc] at hstop
    exact not_not.mp (of_decide_eq_false hstop)

theorem percentDecode_self (h : '%' ∉ text) : percentDecode text = some text := by
  refine percentDecode_iff.mpr (Percent.escapes_self fun b hb heq => h ?_)
  rw [← Utf8.ascii_mem_encode (by decide : '%'.toNat < 0x80)]
  rwa [heq] at hb

theorem afterLast_append {sep : Char → Bool} (hc : sep c = true) (h : ∀ d ∈ text, sep d = false)
    (pre : Text) :
    afterLast sep (pre ++ c :: text) = text := by
  have hall : ∀ d ∈ text.reverse, (!sep d) = true :=
    fun d hd => by rw [h d (List.mem_reverse.mp hd)]; rfl
  rw [afterLast, List.rtakeWhile, List.reverse_append, List.reverse_cons, List.append_assoc,
    List.takeWhile_append_of_pos hall, List.singleton_append,
    List.takeWhile_cons_of_neg (by rw [hc]; decide), List.append_nil, List.reverse_reverse]

theorem afterLast_self {sep : Char → Bool} (h : ∀ d ∈ text, sep d = false) :
    afterLast sep text = text :=
  List.rtakeWhile_eq_self_iff.mpr fun d hd => by rw [h d hd]; rfl

/-- The two parts with the separator are the text. -/
theorem splitOnce_eq {x y : Text} (h : splitOnce sep text = some (x, y)) :
    text = x ++ sep :: y := by
  rw [splitOnce] at h
  split at h
  · next hmem =>
    obtain ⟨rfl, rfl⟩ := Prod.mk.inj (Option.some.inj h)
    have hne : text.dropWhile (· ≠ sep) ≠ [] := fun hnil =>
      absurd (List.dropWhile_eq_nil_iff.mp hnil sep hmem) (by simp)
    have hstop := List.head?_dropWhile_not (fun c => decide (c ≠ sep)) text
    obtain ⟨d, more, hd⟩ := List.exists_cons_of_ne_nil hne
    rw [hd] at hstop ⊢
    have hsep : d = sep := not_not.mp (of_decide_eq_false hstop)
    rw [List.drop_one, List.tail_cons, ← hsep, ← hd, hsep, List.takeWhile_append_dropWhile]
  · cases h

theorem providerChar_ne (h : text.all providerChar = true) (hc : providerChar c = false) :
    c ∉ text := by
  intro hmem
  rw [List.all_eq_true.mp h c hmem] at hc
  cases hc

/-- A provider in plain characters is the one that Android asks. -/
theorem androidProvider_of_plain {auth prov : Text} (h : provider auth = some prov)
    (hplain : prov.all providerChar = true) :
    androidProvider auth = some (asciiLowercase prov) := by
  have hat : ∀ d ∈ prov, decide (d = '@') = false := fun d hd =>
    decide_eq_false fun he => providerChar_ne hplain (by decide : providerChar '@' = false) (he ▸ hd)
  have hpercent := providerChar_ne hplain (by decide : providerChar '%' = false)
  rw [provider] at h
  split at h
  · next user prov' hsplit =>
    split at h
    · next huser =>
      obtain rfl := Option.some.inj h
      have hauth := splitOnce_eq hsplit
      have hdigits : '%' ∉ user :=
        fun hmem => absurd (List.all_eq_true.mp huser.2 _ hmem) (by decide)
      have hnone : '%' ∉ auth := by
        rw [hauth, List.mem_append, List.mem_cons, not_or, not_or]
        exact ⟨hdigits, by decide, hpercent⟩
      rw [androidProvider, percentDecode_self hnone, Option.map_some, hauth,
        afterLast_append (decide_eq_true rfl) hat]
    · cases h
  · obtain rfl := Option.some.inj h
    rw [androidProvider, percentDecode_self hpercent, Option.map_some, afterLast_self hat]

/-- What Android opens for an accepted document is neither the app's own nor below it. -/
theorem isForeignDocument_spec (h : isForeignDocument uri own = true) :
    ∃ auth rest, uri = contentScheme ++ auth ++ rest ∧ (∀ c ∈ auth, c ∉ ['/', '?', '#']) ∧
      EndsAuthority rest ∧
      ∃ prov, androidProvider auth = some prov ∧ isOwn (asciiLowercase own) prov = false := by
  rw [isForeignDocument] at h
  split at h
  · cases h
  split at h
  · cases h
  next prov hprov =>
  split at h
  · next hplain =>
    obtain ⟨rest, huri, hprov⟩ := Option.bind_eq_some_iff.mp hprov
    obtain ⟨more, hrest, hauth, hmore⟩ := authority_split rest
    refine ⟨authority rest, more, ?_, hauth, hmore, _, androidProvider_of_plain hprov hplain.2, (Bool.not_eq_true' _).mp h⟩
    rw [stripPrefix_eq.mp huri, List.append_assoc, ← hrest]
  · cases h

theorem classifyLocalFile_android {f : LocalFile} (h : classifyLocalFile raw .android own = .ok f) :
    f = .document raw ∧ isForeignDocument raw own = true := by
  rw [classifyLocalFile] at h
  split at h
  · next hdoc =>
    cases h
    exact ⟨rfl, hdoc⟩
  · cases h

/-- The gate: `file_url_to_path` reads the escaped forms of plain absolute paths, whose first `/`
stands as itself, and an accepted document is of another app's provider, as Android reads its
authority. -/
theorem picker_gate :
    (∀ url p, fileUrlToPath url = some p ↔ PlainPath p ∧
      ∃ enc, url = fileScheme ++ enc ∧ enc.head? = some '/' ∧
        Escapes BareByte (encode enc) (encode p)) ∧
    ∀ raw own f, classifyLocalFile raw .android own = .ok f → f = .document raw ∧
      ∃ auth rest, raw = contentScheme ++ auth ++ rest ∧ (∀ c ∈ auth, c ∉ ['/', '?', '#']) ∧
        EndsAuthority rest ∧
        ∃ prov, androidProvider auth = some prov ∧ isOwn (asciiLowercase own) prov = false := by
  refine ⟨fun url p => fileUrlToPath_iff, fun raw own f h => ?_⟩
  obtain ⟨rfl, hdoc⟩ := classifyLocalFile_android h
  exact ⟨rfl, isForeignDocument_spec hdoc⟩

theorem picker_gate_inbox :
    fileUrlToPath "file:///%62".toList = some "/b".toList ∧
    ∃ auth rest, "content://10@Org.Example.Docs/d/1".toList = contentScheme ++ auth ++ rest ∧
      (∀ c ∈ auth, c ∉ ['/', '?', '#']) ∧ EndsAuthority rest ∧
      ∃ prov, androidProvider auth = some prov ∧
        isOwn (asciiLowercase "org.example.portty".toList) prov = false := by
  refine ⟨(picker_gate.1 _ _).mpr ⟨⟨by decide, by decide, printed_of_any (by decide)⟩, "/%62".toList, by decide, by decide, ?_⟩,
    (picker_gate.2 _ _ (.document "content://10@Org.Example.Docs/d/1".toList) (by decide)).2⟩
  refine escapes_bareByte.mpr ⟨Percent.decode_iff.mp ?_, by decide, by decide⟩
  decide

/-- An escaped `/` at the start could be the end of a host. -/
theorem picker_gate_escaped_slash :
    ¬ ∀ url p, fileUrlToPath url = some p ↔ PlainPath p ∧
      ∃ enc, url = fileScheme ++ enc ∧ Escapes BareByte (encode enc) (encode p) := by
  intro h
  have hnone : fileUrlToPath "file://%2Fa".toList = none := by decide
  have henc : Escapes BareByte (encode "%2Fa".toList) (encode "/a".toList) :=
    escapes_bareByte.mpr ⟨Percent.decode_iff.mp (by decide), by decide, by decide⟩
  have hsome := (h "file://%2Fa".toList "/a".toList).mpr
    ⟨⟨by decide, by decide, printed_of_any (by decide)⟩, "%2Fa".toList, by decide, henc⟩
  rw [hnone] at hsome
  cases hsome

end Portty.LocalFiles
