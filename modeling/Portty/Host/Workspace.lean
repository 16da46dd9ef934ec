import Portty.Lib.OsPath
import Portty.Lib.Utf8Encode

/-!
# Directories below a root (`workspace.rs`)

* **Strings and paths** are their encoded bytes. A `&str` is the bytes of a text (`Utf8.encode`).
* **The file system** is a parameter, with symbolic links. `canonicalize` returns paths without
  them.
* `normalizeRel_eq_ok`: what `normalize_rel` accepts and returns, from the parts of the path.
* `Contained`: what the three pieces of the module owe to each other.
* `contained_iff`: they do, unless a path for Windows hides a drive behind a leading `.`
  (`HidesDrive`).
-/

namespace Portty.Host.Workspace

open OsPath Utf8

/-- Why a folder is not listed. -/
inductive WorkspaceError where
  | notRelative
  | escapes
  | notADirectory
  | io (message : String)
  deriving DecidableEq, Repr

/-- The most folders of a list. -/
def maxWorkspaceDirEntries : Nat := 500

/-! ## The source -/

/-- `OsStr::to_str`, `OsString::into_string` -/
def toStr (name : OsStr) : Option OsStr :=
  match fromUtf8 name with
  | .ok _ => some name
  | .error _ => none

/-- The loop of `normalize_rel`. -/
def normalParts : List Component → Except WorkspaceError (List OsStr)
  | [] => .ok []
  | .normal part :: components =>
    match toStr part with
    | none => .error .notRelative
    | some part => (normalParts components).map (part :: ·)
  | .curDir :: components => normalParts components
  | .parentDir :: _ | .rootDir :: _ | .prefixed _ _ :: _ => .error .notRelative

/-- `parts.join("/")` -/
def joined (parts : List OsStr) : OsStr := [slash].intercalate parts

/-- The relative path without `.` and `..`. -/
def normalizeRel (os : Platform) (rel : OsStr) : Except WorkspaceError OsStr :=
  if isAbsolute os rel then .error .notRelative else (normalParts (components os rel)).map joined

/-- A file system with symbolic links. -/
structure FileSystem (os : Platform) where
  canonicalize : OsStr → Except String OsStr
  isDir : OsStr → Bool
  /-- The names in a directory, `none` for an entry that cannot be read. -/
  readDir : OsStr → Except String (List (Option OsStr))
  /-- The path with these components is a symbolic link. -/
  isLink : List Component → Prop
  canonicalize_real : ∀ path real, canonicalize path = .ok real →
    ∀ above, above <+: components os real → ¬ isLink above

variable {os : Platform}

/-- The folder itself, if it is inside the root. -/
def resolveWithin (fs : FileSystem os) (root rel : OsStr) : Except WorkspaceError OsStr := do
  let rel ← normalizeRel os rel
  let root ← (fs.canonicalize root).mapError .io
  let resolved ← (fs.canonicalize (join os root rel)).mapError .io
  if !startsWith os resolved root then .error .escapes
  else if !fs.isDir resolved then .error .notADirectory
  else .ok resolved

/-- The relative path of an entry. -/
def childRel (normalized name : OsStr) : OsStr :=
  if normalized.isEmpty then name else normalized ++ slash :: name

/-- The name that an entry of the directory gives to the listing. -/
def listedName (fs : FileSystem os) (root normalized dir : OsStr) (entry : Option OsStr) : Option OsStr := do
  let name ← toStr (← entry)
  if name.head? = some dot then none
  else if !fs.isDir (join os dir name) then none
  else if !(resolveWithin fs root (childRel normalized name)).isOk then none
  else some name

/-- The folder and the names in it. -/
def listDirs (fs : FileSystem os) (root rel : OsStr) : Except WorkspaceError (OsStr × List OsStr) := do
  let normalized ← normalizeRel os rel
  let dir ← resolveWithin fs root normalized
  let entries ← (fs.readDir dir).mapError .io
  let names := entries.filterMap (listedName fs root normalized dir)
  .ok (normalized, (names.mergeSort fun a b => a ≤ b).take maxWorkspaceDirEntries)

/-! ## What the pieces owe to each other -/

/-- The path is that of the base, or one below it. -/
def IsBelow (os : Platform) (base path : OsStr) : Prop :=
  ∃ above below, components os path = above ++ below ∧
    List.Forall₂ (fun c c' => c.same c' = true) above (components os base)

/-- A component that stays inside: a name, or `.`. -/
def IsInside (c : Component) : Prop := c = .curDir ∨ ∃ name, c = .normal name

/-- What is owed for one root and one relative path. -/
structure Contained (fs : FileSystem os) (root rel : OsStr) : Prop where
  below : ∀ path, resolveWithin fs root rel = .ok path → ∃ base, fs.canonicalize root = .ok base ∧
    IsBelow os base path ∧ ∀ above, above <+: components os path → ¬ fs.isLink above
  accepts : (normalizeRel os rel).isOk = true ↔ ∀ c ∈ components os rel, IsInside c
  idempotent : ∀ normalized, normalizeRel os rel = .ok normalized → normalizeRel os normalized = .ok normalized
  listed : ∀ normalized names, listDirs fs root rel = .ok (normalized, names) → ∀ name ∈ names,
    (resolveWithin fs root (childRel normalized name)).isOk = true ∧
      (rel ≠ [] → (resolveWithin fs root (rel ++ slash :: name)).isOk = true)

/-- The names among the parts of a path. -/
def names (os : Platform) (path : OsStr) : List OsStr :=
  (parts os path).filter fun part => part ≠ [] ∧ part ≠ [dot]

/-- The first name begins with a drive, on Windows. -/
def firstDrive (os : Platform) (names : List OsStr) : Bool :=
  os = .windows && names.head?.any fun name => (parseDrive name).isSome

/-- A path for Windows that is accepted, though its first name is one with a drive. It begins with
`.` then, behind which no drive is looked for. -/
def HidesDrive (os : Platform) (rel : OsStr) : Prop :=
  IsRelative os rel ∧ [dot, dot] ∉ parts os rel ∧ firstDrive os (names os rel) = true

/-! ## The parts of a path -/

/-- The bytes of a text. -/
def IsText (name : OsStr) : Prop := ∃ text, name = encode text

variable {fs : FileSystem os} {root rel path normalized name : OsStr} {ns : List OsStr}

theorem toStr_eq (h : IsText name) : toStr name = some name := by
  obtain ⟨text, htext⟩ := h
  rw [toStr, fromUtf8_iff.mpr htext]

theorem isText_of_toStr (h : toStr name = some path) : path = name ∧ IsText name := by
  rw [toStr] at h
  split at h
  · exact ⟨(Option.some.inj h).symm, _, fromUtf8_iff.mp ‹_›⟩
  · cases h

theorem isText_of_mem_parts (h : IsText path) : ∀ name ∈ parts os path, IsText name := by
  intro name hname
  refine (parts_induction (fun xs sep ys hsep htext => ?_) h hname).1
  obtain ⟨text, htext⟩ := htext
  obtain ⟨text₁, text₂, h₁, h₂⟩ := encode_cut xs (isSepByte_lt hsep) htext.symm
  exact ⟨⟨text₁, h₁⟩, text₂, h₂⟩

theorem names_append (path rest : OsStr) :
    names os (path ++ slash :: rest) = names os path ++ names os rest := by
  rw [names, parts_append (isSepByte_slash os), List.filter_append]
  rfl

theorem mem_names : name ∈ names os path ↔ name ∈ parts os path ∧ name ≠ [] ∧ name ≠ [dot] := by
  rw [names, List.mem_filter, decide_eq_true_iff]

/-- The loop, over the components of a relative path. -/
theorem normalParts_eq {ps : List OsStr} (h : ∀ p ∈ ps, IsText p) :
    normalParts (ps.filterMap (parseSingleComponent false)) =
      if [dot, dot] ∈ ps then .error .notRelative else .ok (ps.filter fun part => part ≠ [] ∧ part ≠ [dot]) := by
  induction ps with
  | nil => rfl
  | cons p ps ih =>
    obtain ⟨hp, hps⟩ := List.forall_mem_cons.mp h
    have ih := ih hps
    by_cases hparent : p = [dot, dot]
    · subst hparent
      rw [if_pos List.mem_cons_self]
      rfl
    · have hmem : [dot, dot] ∈ p :: ps ↔ [dot, dot] ∈ ps := by
        rw [List.mem_cons, or_iff_right (Ne.symm hparent)]
      rw [if_congr hmem rfl rfl]
      by_cases hname : p ≠ [] ∧ p ≠ [dot]
      · have hparse : parseSingleComponent false p = some (.normal p) := by
          rw [parseSingleComponent, if_neg hname.2, if_neg hparent, if_neg hname.1]
        rw [List.filterMap_cons_some hparse, normalParts, toStr_eq hp,
          List.filter_cons_of_pos (by simpa using hname), ih]
        dsimp only
        split_ifs <;> rfl
      · have hparse : parseSingleComponent false p = none := by
          rw [parseSingleComponent]
          by_cases hdot : p = [dot]
          · rw [if_pos hdot, if_neg Bool.false_ne_true]
          · rw [if_neg hdot, if_neg hparent, if_pos (by_contra fun hnil => hname ⟨hnil, hdot⟩)]
        rw [List.filterMap_cons_none hparse, List.filter_cons_of_neg (by simpa using hname), ih]

/-! ## What is accepted -/

/-- A prefix or a root is among the components, and comes first. -/
theorem components_of_not_relative (h : ¬ IsRelative os path) :
    ∃ c cs, components os path = c :: cs ∧
      (c = .rootDir ∨ ∃ raw parsed, c = .prefixed raw parsed) := by
  rw [components]
  split
  · exact ⟨_, _, rfl, .inr ⟨_, _, rfl⟩⟩
  · rename_i hnone
    have hroot : hasPhysicalRoot os path = true := by
      by_contra hroot
      refine h ⟨hnone, ?_⟩
      rwa [hasPhysicalRoot, afterPrefix, hnone, Bool.not_eq_true] at hroot
    rw [if_pos hroot]
    exact ⟨_, _, rfl, .inl rfl⟩

theorem normalizeRel_of_not_relative (h : ¬ IsRelative os rel) :
    normalizeRel os rel = .error .notRelative := by
  rw [normalizeRel]
  split_ifs
  · rfl
  · obtain ⟨c, cs, hcs, rfl | ⟨raw, parsed, rfl⟩⟩ := components_of_not_relative h
    all_goals
      rw [hcs]
      rfl

theorem isAbsolute_of_relative (h : IsRelative os path) : isAbsolute os path = false := by
  have hroot : hasRoot os path = false := by
    rw [hasRoot, hasPhysicalRoot, afterPrefix, h.no_prefix]
    exact (Bool.or_false _).trans h.no_root
  cases os with
  | unix => exact hroot
  | windows => rw [isAbsolute, hroot, Bool.false_and]

theorem normalizeRel_of_relative (h : IsRelative os rel) (htext : ∀ p ∈ parts os rel, IsText p) :
    normalizeRel os rel =
      if [dot, dot] ∈ parts os rel then .error .notRelative else .ok (joined (names os rel)) := by
  rw [normalizeRel, isAbsolute_of_relative h, if_neg Bool.false_ne_true, components_of_relative h]
  have hparts := normalParts_eq htext
  have hcur : normalParts ((if includeCurDir os rel then [.curDir] else []) ++
      (parts os rel).filterMap (parseSingleComponent false)) =
        normalParts ((parts os rel).filterMap (parseSingleComponent false)) := by
    split_ifs <;> rfl
  rw [hcur, hparts]
  split_ifs <;> rfl

theorem normalizeRel_eq_ok (htext : ∀ p ∈ parts os rel, IsText p) :
    normalizeRel os rel = .ok normalized ↔
    IsRelative os rel ∧ [dot, dot] ∉ parts os rel ∧ normalized = joined (names os rel) := by
  by_cases h : IsRelative os rel
  · rw [normalizeRel_of_relative h htext]
    split_ifs with hparent
    · exact iff_of_false nofun fun h => h.2.1 hparent
    · exact ⟨fun hok => ⟨h, hparent, (Except.ok.inj hok).symm⟩, fun hok => congrArg _ hok.2.2.symm⟩
  · rw [normalizeRel_of_not_relative h]
    exact iff_of_false nofun fun hok => h hok.1

theorem parseSingleComponent_inside {p : OsStr} {c : Component}
    (h : parseSingleComponent false p = some c) :
    c = .parentDir ∧ p = [dot, dot] ∨ c = .normal p ∧ p ≠ [dot, dot] := by
  rw [parseSingleComponent, if_neg Bool.false_ne_true] at h
  split_ifs at h with hdot hparent hnil
  · exact .inl ⟨(Option.some.inj h).symm, hparent⟩
  · exact .inr ⟨(Option.some.inj h).symm, hparent⟩

/-- A path is taken if none of its parts leads up or out. -/
theorem normalizeRel_isOk (htext : ∀ p ∈ parts os rel, IsText p) :
    (normalizeRel os rel).isOk = true ↔ ∀ c ∈ components os rel, IsInside c := by
  by_cases h : IsRelative os rel
  · rw [normalizeRel_of_relative h htext, components_of_relative h]
    by_cases hparent : [dot, dot] ∈ parts os rel
    · rw [if_pos hparent]
      refine iff_of_false nofun fun hinside => ?_
      have hmem : Component.parentDir ∈ (parts os rel).filterMap (parseSingleComponent false) :=
        List.mem_filterMap.mpr ⟨_, hparent, rfl⟩
      rcases hinside _ (List.mem_append_right _ hmem) with hc | ⟨_, hc⟩ <;> cases hc
    · rw [if_neg hparent]
      refine iff_of_true rfl fun c hc => ?_
      rcases List.mem_append.mp hc with hc | hc
      · split_ifs at hc
        · exact .inl (List.mem_singleton.mp hc)
        · cases hc
      · obtain ⟨p, hp, hc⟩ := List.mem_filterMap.mp hc
        rcases parseSingleComponent_inside hc with ⟨-, rfl⟩ | ⟨hc, -⟩
        · exact absurd hp hparent
        · exact .inr ⟨p, hc⟩
  · rw [normalizeRel_of_not_relative h]
    obtain ⟨c, cs, hcs, hc⟩ := components_of_not_relative h
    refine iff_of_false nofun fun hinside => ?_
    rcases hinside c (hcs ▸ List.mem_cons_self) with rfl | ⟨_, rfl⟩
    · rcases hc with hc | ⟨_, _, hc⟩ <;> cases hc
    · rcases hc with hc | ⟨_, _, hc⟩ <;> cases hc

/-! ## The normalized path -/

/-- Names as `normalize_rel` returns them: not empty, not `.` and not `..`, and without a separator.
-/
structure AreNames (os : Platform) (ns : List OsStr) : Prop where
  nonempty : ∀ name ∈ ns, name ≠ []
  not_dot : ∀ name ∈ ns, name ≠ [dot]
  not_parent : [dot, dot] ∉ ns
  not_sep : ∀ name ∈ ns, ∀ b ∈ name, isSepByte os b = false

theorem areNames (h : [dot, dot] ∉ parts os rel) : AreNames os (names os rel) where
  nonempty _ hname := (mem_names.mp hname).2.1
  not_dot _ hname := (mem_names.mp hname).2.2
  not_parent hname := h (mem_names.mp hname).1
  not_sep _ hname := not_sep_of_mem_parts (mem_names.mp hname).1

theorem AreNames.parts_eq (h : AreNames os ns) (hne : ns ≠ []) : parts os (joined ns) = ns :=
  parts_joined hne h.not_sep

theorem AreNames.names_eq (h : AreNames os ns) : names os (joined ns) = ns := by
  by_cases hne : ns = []
  · subst hne
    show (parts os []).filter _ = []
    rw [parts_nil]
    rfl
  · rw [names, h.parts_eq hne, List.filter_eq_self]
    exact fun name hname => decide_eq_true ⟨h.nonempty name hname, h.not_dot name hname⟩

theorem AreNames.parent_not_mem (h : AreNames os ns) : [dot, dot] ∉ parts os (joined ns) := by
  by_cases hne : ns = []
  · subst hne
    show [dot, dot] ∉ parts os []
    rw [parts_nil]
    decide
  · rw [h.parts_eq hne]
    exact h.not_parent

/-- A normalized path is relative, unless it begins with a drive. -/
theorem AreNames.isRelative_iff (h : AreNames os ns) :
    IsRelative os (joined ns) ↔ firstDrive os ns = false := by
  cases ns with
  | nil =>
    refine iff_of_true ⟨by cases os <;> rfl, rfl⟩ ?_
    cases os <;> rfl
  | cons name ns =>
    have hname : name ≠ [] := h.nonempty name List.mem_cons_self
    have hbegin : joined (name :: ns) = name ∨ ∃ rest,
        joined (name :: ns) = name ++ slash :: rest := by
      cases ns with
      | nil => exact .inl List.intercalate_singleton
      | cons name' ns =>
        exact .inr ⟨_, by rw [joined, List.intercalate_cons_cons, List.append_assoc, List.singleton_append]⟩
    have hroot : (joined (name :: ns)).head?.any (isSepByte os) = false := by
      obtain ⟨b, bs, rfl⟩ := List.exists_cons_of_ne_nil hname
      have hb : isSepByte os b = false := h.not_sep _ List.mem_cons_self b List.mem_cons_self
      rcases hbegin with hbegin | ⟨rest, hbegin⟩
      all_goals
        rw [hbegin]
        exact hb
    have hdrive : parseDrive (joined (name :: ns)) = parseDrive name := by
      rcases hbegin with hbegin | ⟨rest, hbegin⟩
      · rw [hbegin]
      · rw [hbegin, parseDrive_append hname]
    cases os with
    | unix => exact iff_of_true ⟨rfl, hroot⟩ rfl
    | windows =>
      have hfirst : firstDrive .windows (name :: ns) = (parseDrive name).isSome := rfl
      rw [hfirst, Option.isSome_eq_false_iff, Option.isNone_iff_eq_none]
      refine ⟨fun hrel => ?_, fun hnone => ⟨?_, hroot⟩⟩
      · have hpre := hrel.no_prefix
        rw [parsePrefix_of_not_sep hroot, hdrive] at hpre
        exact Option.map_eq_none_iff.mp hpre
      · rw [parsePrefix_of_not_sep hroot, hdrive, hnone, Option.map_none]

theorem normalizeRel_joined (h : AreNames os ns) (htext : ∀ name ∈ ns, IsText name) :
    normalizeRel os (joined ns) = .ok (joined ns) ↔ firstDrive os ns = false := by
  have hparts : ∀ p ∈ parts os (joined ns), IsText p := by
    by_cases hne : ns = []
    · subst hne
      show ∀ p ∈ parts os [], IsText p
      rw [parts_nil]
      exact List.forall_mem_singleton.mpr ⟨[], rfl⟩
    · rwa [h.parts_eq hne]
  rw [normalizeRel_eq_ok hparts, h.names_eq, ← h.isRelative_iff]
  exact and_iff_left ⟨h.parent_not_mem, rfl⟩

/-- One more name, behind a path and behind what it is normalized to. -/
theorem normalizeRel_childRel (hrel : IsText rel) (hname : IsText name) (hne : rel ≠ [])
    (hnormal : normalizeRel os rel = .ok normalized) {child : OsStr}
    (hchild : normalizeRel os (childRel normalized name) = .ok child) :
    normalizeRel os (rel ++ slash :: name) = .ok child := by
  have hparts : ∀ p ∈ parts os (rel ++ slash :: name), IsText p := by
    rw [parts_append (isSepByte_slash os)]
    exact List.forall_mem_append.mpr ⟨isText_of_mem_parts hrel, isText_of_mem_parts hname⟩
  obtain ⟨hrelative, hparent, rfl⟩ := (normalizeRel_eq_ok (isText_of_mem_parts hrel)).mp hnormal
  have hnames := areNames hparent
  have hnotsep : rel.head?.any (isSepByte os) = false := hrelative.no_root
  have hrelative' : IsRelative os (rel ++ slash :: name) := by
    have hroot : (rel ++ slash :: name).head?.any (isSepByte os) = false := by
      obtain ⟨b, bs, rfl⟩ := List.exists_cons_of_ne_nil hne
      exact hrelative.no_root
    cases os with
    | unix => exact ⟨rfl, hroot⟩
    | windows =>
      refine ⟨?_, hroot⟩
      rw [parsePrefix_of_not_sep hroot, parseDrive_append hne,
        ← parsePrefix_of_not_sep hrelative.no_root]
      exact hrelative.no_prefix
  -- Behind the names of the path come those of the name, in both texts.
  have hboth : [dot, dot] ∉ parts os name ∧ child = joined (names os rel ++ names os name) := by
    by_cases hnil : names os rel = []
    · rw [hnil] at hchild ⊢
      obtain ⟨-, hparent', hchild⟩ := (normalizeRel_eq_ok (isText_of_mem_parts hname)).mp hchild
      exact ⟨hparent', hchild⟩
    · have hjoined : joined (names os rel) ≠ [] := fun hempty => by
        have hparts := hnames.parts_eq hnil
        rw [hempty, parts_nil] at hparts
        exact hnames.nonempty [] (hparts ▸ List.mem_singleton.mpr rfl) rfl
      have hnot : ¬ (joined (names os rel)).isEmpty = true := by rwa [List.isEmpty_iff]
      rw [childRel, if_neg hnot] at hchild
      have hchildParts : ∀ p ∈ parts os (joined (names os rel) ++ slash :: name), IsText p := by
        rw [parts_append (isSepByte_slash os), hnames.parts_eq hnil]
        exact List.forall_mem_append.mpr
          ⟨fun p hp => isText_of_mem_parts hrel p (mem_names.mp hp).1, isText_of_mem_parts hname⟩
      obtain ⟨-, hparent', hchild⟩ := (normalizeRel_eq_ok hchildParts).mp hchild
      rw [names_append, hnames.names_eq] at hchild
      rw [parts_append (isSepByte_slash os), List.mem_append, not_or] at hparent'
      exact ⟨hparent'.2, hchild⟩
  refine (normalizeRel_eq_ok hparts).mpr ⟨hrelative', ?_, ?_⟩
  · rw [parts_append (isSepByte_slash os), List.mem_append, not_or]
    exact ⟨hparent, hboth.1⟩
  · rw [names_append]
    exact hboth.2

/-! ## The result of a resolution -/

theorem resolveWithin_congr {rel' : OsStr} (h : normalizeRel os rel = normalizeRel os rel') :
    resolveWithin fs root rel = resolveWithin fs root rel' := by
  rw [resolveWithin, h]
  rfl

theorem of_bind_ok {ε α β : Type} {x : Except ε α} {f : α → Except ε β} {b : β}
    (h : (x >>= f) = .ok b) :
    ∃ a, x = .ok a ∧ f a = .ok b := by
  cases x with
  | error e => cases h
  | ok a => exact ⟨a, rfl, h⟩

theorem of_mapError_ok {ε ε' α : Type} {x : Except ε α} {f : ε → ε'} {a : α}
    (h : x.mapError f = .ok a) : x = .ok a := by
  cases x with
  | error e => cases h
  | ok a => exact congrArg _ (Except.ok.inj h)

theorem exists_above {cs cs' : List Component} (h : isAfter cs cs' = true) :
    ∃ above below, cs = above ++ below ∧ List.Forall₂ (fun c c' => c.same c' = true) above cs' := by
  induction cs' generalizing cs with
  | nil => exact ⟨[], cs, rfl, .nil⟩
  | cons c' cs' ih =>
    cases cs with
    | nil => cases h
    | cons c cs =>
      obtain ⟨hc, hcs⟩ := (Bool.and_eq_true ..).mp h
      obtain ⟨above, below, rfl, hsame⟩ := ih hcs
      exact ⟨c :: above, below, rfl, .cons hc hsame⟩

theorem resolveWithin_below (h : resolveWithin fs root rel = .ok path) :
    ∃ base, fs.canonicalize root = .ok base ∧
    IsBelow os base path ∧ ∀ above, above <+: components os path → ¬ fs.isLink above := by
  obtain ⟨n, -, h⟩ := of_bind_ok h
  obtain ⟨base, hbase, h⟩ := of_bind_ok h
  obtain ⟨resolved, hresolved, h⟩ := of_bind_ok h
  split_ifs at h with hstarts hdir
  obtain rfl := Except.ok.inj h
  rw [Bool.not_eq_true', Bool.not_eq_false] at hstarts
  exact ⟨base, of_mapError_ok hbase, exists_above hstarts, fs.canonicalize_real _ _ (of_mapError_ok hresolved)⟩

theorem normalizeRel_of_resolveWithin (h : (resolveWithin fs root rel).isOk = true) :
    ∃ n, normalizeRel os rel = .ok n := by
  cases hn : normalizeRel os rel with
  | ok n => exact ⟨n, rfl⟩
  | error e =>
    rw [resolveWithin, hn] at h
    cases h

/-- The names of a listing come from the directory, and each of them passed the filter. -/
theorem listedName_of_mem {ns : List OsStr} (h : listDirs fs root rel = .ok (normalized, ns)) :
    normalizeRel os rel = .ok normalized ∧
      ∀ name ∈ ns, IsText name ∧ (resolveWithin fs root (childRel normalized name)).isOk =
        true := by
  obtain ⟨n, hn, h⟩ := of_bind_ok h
  obtain ⟨dir, -, h⟩ := of_bind_ok h
  obtain ⟨entries, -, h⟩ := of_bind_ok h
  obtain ⟨rfl, rfl⟩ := Prod.mk.inj (Except.ok.inj h)
  refine ⟨hn, fun name hname => ?_⟩
  obtain ⟨entry, -, hlisted⟩ :=
    List.mem_filterMap.mp (List.mem_mergeSort.mp (List.mem_of_mem_take hname))
  obtain ⟨raw, -, hraw⟩ := Option.bind_eq_some_iff.mp hlisted
  obtain ⟨name', hstr, hkept⟩ := Option.bind_eq_some_iff.mp hraw
  split_ifs at hkept with hdot hdir hok
  obtain rfl := Option.some.inj hkept
  obtain ⟨rfl, htext⟩ := isText_of_toStr hstr
  exact ⟨htext, by simpa using hok⟩

/-! ## The pieces together -/

/-- For every file system, root and relative path, the pieces agree unless the path hides a drive.
-/
theorem contained_iff (os : Platform) (fs : FileSystem os) (root : OsStr) (text : List Char) :
    Contained fs root (encode text) ↔ ¬ HidesDrive os (encode text) := by
  have htext : IsText (encode text) := ⟨text, rfl⟩
  have hparts : ∀ p ∈ parts os (encode text), IsText p := isText_of_mem_parts htext
  constructor
  · rintro h ⟨hrelative, hparent, hdrive⟩
    have hnormal := (normalizeRel_eq_ok hparts).mpr ⟨hrelative, hparent, rfl⟩
    have hnames := fun name hname => hparts name (mem_names.mp hname).1
    rw [(normalizeRel_joined (areNames hparent) hnames).mp (h.idempotent _ hnormal)] at hdrive
    cases hdrive
  · intro hhides
    refine ⟨fun _ => resolveWithin_below, normalizeRel_isOk hparts, fun normalized hnormal => ?_,
      fun normalized ns hlist name hname => ?_⟩
    · obtain ⟨hrelative, hparent, rfl⟩ := (normalizeRel_eq_ok hparts).mp hnormal
      have hnames := fun name hname => hparts name (mem_names.mp hname).1
      refine (normalizeRel_joined (areNames hparent) hnames).mpr ?_
      rw [← Bool.not_eq_true]
      exact fun hdrive => hhides ⟨hrelative, hparent, hdrive⟩
    · obtain ⟨hnormal, hlisted⟩ := listedName_of_mem hlist
      obtain ⟨hname, hok⟩ := hlisted name hname
      refine ⟨hok, fun hne => ?_⟩
      obtain ⟨child, hchild⟩ := normalizeRel_of_resolveWithin hok
      rwa [resolveWithin_congr ((normalizeRel_childRel htext hname hne hnormal hchild).trans hchild.symm)]

/-! ## A drive behind a dot -/

/-- A text as a path. -/
def bytes (text : String) : OsStr := encode text.toList

/-- The root is `C:\w`, which is the current directory of the drive too. -/
def driveTree : FileSystem .windows where
  canonicalize path :=
    if path = bytes "C:\\w" then .ok (bytes "\\\\?\\C:\\w")
    else if path = bytes "C:x" then .ok (bytes "\\\\?\\C:\\w\\x")
    else .error "not found"
  isDir _ := true
  readDir _ := .ok []
  isLink _ := False
  canonicalize_real _ _ _ _ _ := id

/-- `./C:x` is normalized to `C:x`, which is not accepted: the one is resolved, and cannot be
listed. -/
theorem drive_hidden :
    ¬ Contained driveTree (bytes "C:\\w") (bytes "./C:x") ∧
      normalizeRel .windows (bytes "./C:x") = .ok (bytes "C:x") ∧
      normalizeRel .windows (bytes "C:x") = .error .notRelative ∧
      resolveWithin driveTree (bytes "C:\\w") (bytes "./C:x") = .ok (bytes "\\\\?\\C:\\w\\x") ∧
      listDirs driveTree (bytes "C:\\w") (bytes "./C:x") = .error .notRelative := by
  have hnormal : normalizeRel .windows (bytes "./C:x") = .ok (bytes "C:x") := by decide +kernel
  have hagain : normalizeRel .windows (bytes "C:x") = .error .notRelative := by decide +kernel
  refine ⟨fun h => ?_, hnormal, hagain, by decide +kernel, by decide +kernel⟩
  exact nomatch hagain.symm.trans (h.idempotent _ hnormal)

/-- `/w/escape` is a link to `/etc`. -/
def linkTree : FileSystem .unix where
  canonicalize path :=
    if path = bytes "/w" then .ok (bytes "/w")
    else if path = bytes "/w/escape" then .ok (bytes "/etc")
    else .error "not found"
  isDir _ := true
  readDir _ := .ok [some (bytes "escape")]
  isLink above := above = components .unix (bytes "/w/escape")
  canonicalize_real path real h above habove hlink := by
    have hshort : (components .unix real).length = 2 := by
      split_ifs at h
      all_goals
        rw [← Except.ok.inj h]
        decide +kernel
    have hle := habove.length_le
    rw [hlink, hshort] at hle
    exact absurd hle (by decide +kernel)

example : resolveWithin linkTree (bytes "/w") (bytes "escape") = .error .escapes := by
  decide +kernel

/-- Parts that say nothing are left out, and a path above is refused. -/
example : normalizeRel .unix (bytes "./a//b/") = .ok (bytes "a/b") ∧
    normalizeRel .unix (bytes "a/../../b") = .error .notRelative := by decide +kernel

end Portty.Host.Workspace
