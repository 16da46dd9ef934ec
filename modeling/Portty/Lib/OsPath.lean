import Mathlib.Data.List.Basic

/-!
# Paths of an operating system (`std::path`)

A path is its encoded bytes (`OsStr::as_encoded_bytes`). `components` reads it as the standard
library does on Unix and on Windows, where a path can begin with a prefix (`parsePrefix`).

* `components_of_relative`: the components of a path without a prefix and without a root are the
  parts between its separators.
* `parts_induction`, `parts_joined`: the parts of a path, and names with `/` between them.
* `parsePrefix_of_not_sep`: a path that does not begin with a separator has no prefix but a drive.
-/

namespace OsPath

/-- Whose paths they are. -/
inductive Platform where
  | unix
  | windows
  deriving DecidableEq, Repr

/-- A path as its bytes (on Windows, of the encoded form). -/
abbrev OsStr := List UInt8

/-- `/` -/
def slash : UInt8 := 0x2F

/-- `\` -/
def backslash : UInt8 := 0x5C

/-- `.` -/
def dot : UInt8 := 0x2E

/-- `:` -/
def colon : UInt8 := 0x3A

/-- `?` -/
def question : UInt8 := 0x3F

/-! ## Separators and prefixes -/

/-- What separates components. -/
def isSepByte : Platform → UInt8 → Bool
  | .unix, b => b == slash
  | .windows, b => b == slash || b == backslash

/-- Behind a verbatim prefix, `/` is an ordinary byte. -/
def isVerbatimSep (b : UInt8) : Bool := b == backslash

/-- What is written between components. -/
def mainSep : Platform → UInt8
  | .unix => slash
  | .windows => backslash

/-- What a path of Windows can begin with. -/
inductive Prefix where
  | verbatim (name : OsStr)
  | verbatimUnc (server share : OsStr)
  | verbatimDisk (drive : UInt8)
  | deviceNs (name : OsStr)
  | unc (server share : OsStr)
  | disk (drive : UInt8)
  deriving DecidableEq, Repr

/-- It begins with `\\?\`, so that what follows is taken as it is. -/
def Prefix.isVerbatim : Prefix → Bool
  | .verbatim _ | .verbatimUnc _ _ | .verbatimDisk _ => true
  | _ => false

/-- A drive without a root, such as `C:`. -/
def Prefix.isDrive : Prefix → Bool
  | .disk _ => true
  | _ => false

/-- All but a drive stand for a root of their own. -/
def Prefix.hasImplicitRoot (p : Prefix) : Bool := !p.isDrive

/-- The bytes of a share behind a server. -/
def shareLen (share : OsStr) : Nat := if share.isEmpty then 0 else 1 + share.length

/-- The bytes of the path that the prefix takes. -/
def Prefix.len : Prefix → Nat
  | .verbatim name => 4 + name.length
  | .verbatimUnc server share => 8 + server.length + shareLen share
  | .verbatimDisk _ => 6
  | .deviceNs name => 4 + name.length
  | .unc server share => 2 + server.length + shareLen share
  | .disk _ => 2

/-- A path begins with a pattern, with `/` for `\` too. -/
def beginsLike (pattern path : OsStr) : Bool :=
  (path.take pattern.length).map (fun b => if b = slash then backslash else b) == pattern

/-- The bytes up to a separator, and those behind it. -/
def parseNextComponent (path : OsStr) (verbatim : Bool) : OsStr × OsStr :=
  let separator := if verbatim then isVerbatimSep else isSepByte .windows
  (path.takeWhile (!separator ·), (path.dropWhile (!separator ·)).drop 1)

/-- `u8::is_ascii_alphabetic` -/
def isAsciiAlphabetic (b : UInt8) : Bool := (0x41 ≤ b && b ≤ 0x5A) || (0x61 ≤ b && b ≤ 0x7A)

/-- Other bytes stay as they are. -/
def toAsciiUppercase (b : UInt8) : UInt8 := if 0x61 ≤ b ∧ b ≤ 0x7A then b - 0x20 else b

/-- A letter and a colon. -/
def parseDrive : OsStr → Option UInt8
  | letter :: second :: _ => if isAsciiAlphabetic letter && second == colon then some (toAsciiUppercase letter) else none
  | _ => none

/-- A drive with nothing but a separator behind it. -/
def parseDriveExact (path : OsStr) : Option UInt8 :=
  if path[2]?.all (isSepByte .windows) then parseDrive path else none

/-- The prefix of a path, its verbatim forms first. -/
def parseWindowsPrefix (path : OsStr) : Option Prefix :=
  if beginsLike [backslash, backslash] path then
    if beginsLike [question, backslash] (path.drop 2) && !(path.take 4).contains slash then
      if beginsLike [0x55, 0x4E, 0x43, backslash] (path.drop 4) then
        let (server, rest) := parseNextComponent (path.drop 8) true
        some (.verbatimUnc server (parseNextComponent rest true).1)
      else
        match parseDriveExact (path.drop 4) with
        | some drive => some (.verbatimDisk drive)
        | none => some (.verbatim (parseNextComponent (path.drop 4) true).1)
    else if beginsLike [dot, backslash] (path.drop 2) then
      some (.deviceNs (parseNextComponent (path.drop 4) false).1)
    else
      let (server, rest) := parseNextComponent (path.drop 2) false
      let share := (parseNextComponent rest false).1
      if !server.isEmpty && !share.isEmpty then some (.unc server share) else none
  else (parseDrive path).map .disk

/-- Paths of Unix have none. -/
def parsePrefix : Platform → OsStr → Option Prefix
  | .unix, _ => none
  | .windows, path => parseWindowsPrefix path

/-! ## Components -/

/-- A component, as `Path::components` gives it. -/
inductive Component where
  | prefixed (raw : OsStr) (parsed : Prefix)
  | rootDir
  | curDir
  | parentDir
  | normal (name : OsStr)
  deriving DecidableEq, Repr

/-- `Component::eq`: a prefix is what it is parsed as. -/
def Component.same : Component → Component → Bool
  | .prefixed _ parsed, .prefixed _ parsed' => parsed = parsed'
  | c, c' => c = c'

variable (os : Platform) (path : OsStr)

/-- What is behind the prefix. -/
def afterPrefix : OsStr := path.drop ((parsePrefix os path).elim 0 Prefix.len)

/-- A separator follows the prefix. -/
def hasPhysicalRoot : Bool := (afterPrefix os path).head?.any (isSepByte os)

/-- A root is written or implied. -/
def hasRoot : Bool := hasPhysicalRoot os path || (parsePrefix os path).any Prefix.hasImplicitRoot

/-- On Windows a root alone does not make a path absolute. -/
def isAbsolute : Bool :=
  match os with
  | .unix => hasRoot os path
  | .windows => hasRoot os path && (parsePrefix os path).isSome

/-- The prefix is verbatim. -/
def prefixVerbatim : Bool := (parsePrefix os path).any Prefix.isVerbatim

/-- `Components::is_sep_byte` -/
def isSep : UInt8 → Bool := if prefixVerbatim os path then isVerbatimSep else isSepByte os

/-- The path begins with a component `.` that is kept. -/
def includeCurDir : Bool :=
  !hasRoot os path && match afterPrefix os path with
    | [] => false
    | [b] => b == dot
    | b :: second :: _ => b == dot && isSep os path second

/-- What stands between two separators; `.` is dropped but after a verbatim prefix. -/
def parseSingleComponent (verbatim : Bool) (name : OsStr) : Option Component :=
  if name = [dot] then if verbatim then some .curDir else none
  else if name = [dot, dot] then some .parentDir
  else if name = [] then none
  else some (.normal name)

/-- The components behind the prefix and the root. -/
def body (rest : OsStr) : List Component :=
  (rest.splitOnP (isSep os path)).filterMap (parseSingleComponent (prefixVerbatim os path))

/-- The components of a path, the prefix and the root first. -/
def components : List Component :=
  let rest := afterPrefix os path
  match parsePrefix os path with
  | some parsed =>
    .prefixed (path.take parsed.len) parsed ::
      if hasPhysicalRoot os path then .rootDir :: body os path (rest.drop 1)
      else if parsed.hasImplicitRoot && !parsed.isVerbatim then .rootDir :: body os path rest
      else body os path rest
  | none =>
    if hasPhysicalRoot os path then .rootDir :: body os path (rest.drop 1)
    else if includeCurDir os path then .curDir :: body os path (rest.drop 1)
    else body os path rest

/-- The first list of components, read until the second one ends. -/
def isAfter : List Component → List Component → Bool
  | _, [] => true
  | [], _ :: _ => false
  | c :: cs, c' :: cs' => c.same c' && isAfter cs cs'

/-- The components of the other path come first. -/
def startsWith (base : OsStr) : Bool := isAfter (components os path) (components os base)

/-! ## Joining -/

/-- The bytes of a component. -/
def Component.asOsStr : Component → OsStr
  | .prefixed raw _ => raw
  | .rootDir => [mainSep os]
  | .curDir => [dot]
  | .parentDir => [dot, dot]
  | .normal name => name

/-- One more component behind those of a verbatim path. -/
def pushComponent (buf : List Component) : Component → List Component
  | .rootDir => buf.take 1 ++ [.rootDir]
  | .curDir => buf
  | .parentDir =>
    match buf.getLast? with
    | some (.normal _) => buf.dropLast
    | _ => buf
  | c => buf ++ [c]

/-- A separator goes between a component and the next one. -/
def Component.needSep : Component → Bool
  | .rootDir => false
  | .prefixed _ parsed => !parsed.isDrive && parsed.len > 0
  | _ => true

/-- `PathBuf::from_iter`, with a separator where one is needed. -/
def ofComponents : List Component → Bool → OsStr
  | [], _ => []
  | c :: cs, needSep =>
    (if needSep && c ≠ .rootDir then [mainSep os] else []) ++ c.asOsStr os ++ ofComponents cs c.needSep

/-- `Path::join` -/
def join (more : OsStr) : OsStr :=
  let parsed := parsePrefix os path
  let drive := parsed.any fun p => p.isDrive && p.len == path.length
  let needSep := path.getLast?.any (!isSepByte os ·) && !drive
  if isAbsolute os more || (parsePrefix os more).isSome then more
  else if prefixVerbatim os path && !more.isEmpty then
    ofComponents os ((components os more).foldl pushComponent (components os path)) false
  else if hasRoot os more then path.take (parsed.elim 0 Prefix.len) ++ more
  else if needSep then path ++ mainSep os :: more
  else path ++ more

/-! ## Relative paths -/

/-- The parts of a path between its separators. -/
def parts : List OsStr := path.splitOnP (isSepByte os)

/-- A path without a prefix and without a root. -/
structure IsRelative : Prop where
  no_prefix : parsePrefix os path = none
  no_root : path.head?.any (isSepByte os) = false

variable {os path} {name : OsStr} {names : List OsStr} {rest : OsStr}

theorem isSepByte_lt {b : UInt8} (h : isSepByte os b = true) : b.toNat < 0x80 := by
  cases os with
  | unix => rw [beq_iff_eq.mp h]; decide
  | windows =>
    rcases (Bool.or_eq_true ..).mp h with h | h
    all_goals
      rw [beq_iff_eq.mp h]
      decide

theorem isSepByte_slash (os : Platform) : isSepByte os slash = true := by cases os <;> rfl

theorem parts_nil (os : Platform) : parts os [] = [[]] := List.splitOnP_nil ..

theorem parts_append {sep : UInt8} (hsep : isSepByte os sep = true) (path rest : OsStr) :
    parts os (path ++ sep :: rest) = parts os path ++ parts os rest :=
  List.splitOnP_append_cons path rest hsep

theorem parts_singleton (h : ∀ b ∈ name, isSepByte os b = false) : parts os name = [name] :=
  List.splitOnP_eq_singleton h

/-- What holds of a path and is kept when the path is cut at a separator holds of its parts, which
have no separator in them. -/
theorem parts_induction {P : OsStr → Prop}
    (hcut : ∀ xs sep ys, isSepByte os sep = true → P (xs ++ sep :: ys) → P xs ∧ P ys) (h : P path)
    (hname : name ∈ parts os path) : P name ∧ ∀ b ∈ name, isSepByte os b = false := by
  induction hn : path.length using Nat.strongRecOn generalizing path with
  | ind n ih =>
    by_cases hsep : ∃ b ∈ path, isSepByte os b = true
    · obtain ⟨b, hb, hsep⟩ := hsep
      obtain ⟨xs, ys, rfl⟩ := List.append_of_mem hb
      obtain ⟨hxs, hys⟩ := hcut xs b ys hsep h
      rw [List.length_append, List.length_cons] at hn
      rw [parts_append hsep, List.mem_append] at hname
      rcases hname with hname | hname
      · exact ih xs.length (by omega) hxs hname rfl
      · exact ih ys.length (by omega) hys hname rfl
    · have hnone : ∀ b ∈ path, isSepByte os b = false := fun b hb => by
        rw [← Bool.not_eq_true]
        exact fun hsep' => hsep ⟨b, hb, hsep'⟩
      rw [parts_singleton hnone, List.mem_singleton] at hname
      subst hname
      exact ⟨h, hnone⟩

theorem not_sep_of_mem_parts (h : name ∈ parts os path) : ∀ b ∈ name, isSepByte os b = false :=
  (parts_induction (P := fun _ => True) (fun _ _ _ _ _ => ⟨trivial, trivial⟩) trivial h).2

/-- Names with separators between them. -/
theorem parts_joined (hne : names ≠ []) (h : ∀ name ∈ names, ∀ b ∈ name, isSepByte os b = false) :
    parts os ([slash].intercalate names) = names := by
  induction names with
  | nil => exact absurd rfl hne
  | cons name names ih =>
    obtain ⟨hname, hnames⟩ := List.forall_mem_cons.mp h
    cases names with
    | nil => rw [List.intercalate_singleton, parts_singleton hname]
    | cons name' names =>
      rw [List.intercalate_cons_cons, List.append_assoc, List.singleton_append,
        parts_append (isSepByte_slash os), parts_singleton hname, ih (List.cons_ne_nil _ _) hnames,
        List.singleton_append]

theorem beginsLike_separators (h : path.head?.any (isSepByte .windows) = false) (pattern : OsStr) :
    beginsLike (backslash :: pattern) path = false := by
  cases path with
  | nil => rfl
  | cons b path =>
    have hb : b ≠ slash ∧ b ≠ backslash := by simpa [isSepByte] using h
    simp [beginsLike, hb.1, hb.2]

theorem parsePrefix_of_not_sep (h : path.head?.any (isSepByte .windows) = false) :
    parsePrefix .windows path = (parseDrive path).map .disk := by
  rw [parsePrefix, parseWindowsPrefix, beginsLike_separators h, if_neg Bool.false_ne_true]

theorem parseDrive_append (hne : name ≠ []) (rest : OsStr) :
    parseDrive (name ++ slash :: rest) = parseDrive name := by
  match name with
  | [letter] => simp [parseDrive, slash, colon]
  | _ :: _ :: _ => rfl

/-- The components of a relative path are its parts, and a leading `.` perhaps. -/
theorem components_of_relative (h : IsRelative os path) :
    components os path = (if includeCurDir os path then [.curDir] else []) ++
      (parts os path).filterMap (parseSingleComponent false) := by
  have hafter : afterPrefix os path = path := by rw [afterPrefix, h.no_prefix]; rfl
  have hverbatim : prefixVerbatim os path = false := by rw [prefixVerbatim, h.no_prefix]; rfl
  have hsep : isSep os path = isSepByte os := by rw [isSep, hverbatim]; rfl
  have hroot : hasPhysicalRoot os path = false := by rw [hasPhysicalRoot, hafter, h.no_root]
  rw [components, h.no_prefix]
  dsimp only
  rw [hroot, if_neg Bool.false_ne_true, hafter]
  simp only [body, hverbatim, hsep]
  split_ifs with hcur
  · -- Without the `.`, the path begins with a separator, or is empty.
    rw [includeCurDir, hafter, hsep, Bool.and_eq_true] at hcur
    have hdot : parts os [dot] = [[dot]] := parts_singleton fun b hb => by
      rw [List.mem_singleton.mp hb]
      cases os <;> rfl
    match path, hcur.2 with
    | [b], hb =>
      rw [beq_iff_eq.mp hb, hdot]
      show Component.curDir :: (parts os []).filterMap _ = _
      rw [parts_nil]
      rfl
    | b :: second :: rest, hb =>
      obtain ⟨hb, hsecond⟩ := (Bool.and_eq_true ..).mp hb
      have hrest : parts os (second :: rest) = [] :: parts os rest := by
        rw [← List.nil_append (second :: rest), parts_append hsecond, parts_nil,
          List.singleton_append]
      have hpath : parts os (b :: second :: rest) = [dot] :: parts os rest := by
        rw [beq_iff_eq.mp hb, ← List.singleton_append, parts_append hsecond, hdot,
          List.singleton_append]
      show Component.curDir :: (parts os (second :: rest)).filterMap _ = _
      rw [hpath, hrest]
      rfl
  · rfl

end OsPath
