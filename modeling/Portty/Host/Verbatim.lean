import Mathlib.Data.List.DropRight
import Portty.Lib.Utf16

/-!
# Undoing the verbatim prefix (`verbatim` in `workspace.rs`)

* **Paths** are their UTF-16 units, which need not be well formed.
* `plain`: the plain spelling of a verbatim path.
* `Ordinary`: a component that Win32 takes as it is. `IsDevice` says by itself, on the units, which
  names open a device; the code reads the characters of a part of the component.
* `plain_exact`: what a plain spelling looks like, and that the prefix gives the input back.
-/

namespace Portty.Host.Verbatim

open Utf16

/-- A path of Windows as its code units. -/
abbrev Units := List UInt16

/-! ## The source -/

/-- The longest path without the prefix, for a directory. -/
def maxPlainDirUnits : Nat := 258

/-- `\` -/
def backslash : UInt16 := 0x5C

/-- `.` -/
def dot : UInt16 := 0x2E

/-- A blank. -/
def space : UInt16 := 0x20

/-- `:` -/
def colon : UInt16 := 0x3A

/-- `\\?\` -/
def verbatimPrefix : Units := [backslash, backslash, 0x3F, backslash]

/-- `UNC\` -/
def unc : Units := [0x55, 0x4E, 0x43, backslash]

/-- `<`, `>`, `:`, the double quote, `/`, the backslash, `|`, `?` and `*`. -/
def forbiddenInName : Units := [0x3C, 0x3E, 0x3A, 0x22, 0x2F, 0x5C, 0x7C, 0x3F, 0x2A]

/-- What no name has. -/
def forbidden (c : UInt16) : Bool := c < 0x20 || forbiddenInName.contains c

/-- What follows `COM` or `LPT` in the name of a port. -/
def portDigits : List Char := "0123456789¹²³".toList

/-- The stem of a name, in capitals, is that of a device. -/
def isDeviceStem (stem : List Char) : Bool :=
  (["CON", "PRN", "AUX", "NUL", "CONIN$", "CONOUT$"].map String.toList).contains stem ||
    ["COM", "LPT"].any fun port =>
      match stem.dropPrefix? port.toList with
      | some [digit] => portDigits.contains digit
      | _ => false

/-- The part before the first point names a device, such as `NUL`. -/
def isReservedDeviceName (part : Units) : Bool :=
  let stemEnd := part.findIdx (· == dot)
  let stem := lossy (part.take stemEnd)
  isDeviceStem ((stem.rdropWhile (· = ' ')).map Char.toUpper)

/-- A name that means the same with and without the prefix. -/
def componentOk (part : Units) : Bool :=
  match part.getLast? with
  | none => false
  | some last => if last = dot ∨ last = space then false else !part.any forbidden && !isReservedDeviceName part

/-- All names do, but for an empty one at the end. -/
def componentsOk : List Units → Bool
  | [] => true
  | part :: parts =>
    if part.isEmpty && parts.isEmpty then true
    else if !componentOk part then false
    else componentsOk parts

/-- `u8::is_ascii_alphabetic` -/
def isAsciiAlphabetic (u : UInt16) : Bool := (0x41 ≤ u && u ≤ 0x5A) || (0x61 ≤ u && u ≤ 0x7A)

/-- `server\share` and a path. -/
def plainShare (tail : Units) : Option Units :=
  match tail.splitOn backslash with
  | server :: share :: parts =>
    if !componentOk server || !componentOk share || !componentsOk parts then none
    else some (backslash :: backslash :: tail)
  | _ => none

/-- `C:\` and a path. -/
def plainDrive : Units → Option Units
  | letter :: second :: root :: tail =>
    if isAsciiAlphabetic letter && second == colon && root == backslash then
      if !tail.isEmpty && !componentsOk (tail.splitOn backslash) then none
      else some (letter :: second :: root :: tail)
    else none
  | _ => none

/-- The path without its verbatim prefix, where that means the same. -/
def plain (wide : Units) : Option Units :=
  (wide.dropPrefix? verbatimPrefix).bind fun rest =>
    let plain :=
      match rest.dropPrefix? unc with
      | some tail => plainShare tail
      | none => plainDrive rest
    plain.filter (·.length ≤ maxPlainDirUnits)

/-! ## What Win32 takes as it is -/

/-- An ASCII letter as a capital. -/
def upper (u : UInt16) : UInt16 := if 0x61 ≤ u ∧ u ≤ 0x7A then u - 0x20 else u

/-- The names of devices, in capitals. -/
def deviceNames : List Units :=
  (["CON", "PRN", "AUX", "NUL", "CONIN$", "CONOUT$"] ++
    ["COM", "LPT"].flatMap fun port => portDigits.map (port.push ·)).map fun name =>
      name.toList.map fun c => UInt16.ofNat c.toNat

/-- The name of a device in any case, with any extension, and with spaces before that. -/
def IsDevice (part : Units) : Prop :=
  ∃ stem spaces extension, part = stem ++ spaces ++ extension ∧ stem.map upper ∈ deviceNames ∧
    (∀ u ∈ spaces, u = space) ∧ ∀ u ∈ extension.head?, u = dot

/-- A character that Win32 treats specially. -/
def Special (u : UInt16) : Prop := u.toNat < 0x20 ∨ u ∈ forbiddenInName

/-- A name without any meaning of its own. -/
structure Ordinary (part : Units) : Prop where
  nonempty : part ≠ []
  not_dots : part ≠ [dot] ∧ part ≠ [dot, dot]
  last : ∀ u ∈ part.getLast?, u ≠ dot ∧ u ≠ space
  plain : ∀ u ∈ part, ¬ Special u
  not_device : ¬ IsDevice part

/-- The components with a separator between them, and perhaps one behind them. -/
def PathOf (components : List Units) (path : Units) : Prop :=
  path = [backslash].intercalate components ∨
    components ≠ [] ∧ path = [backslash].intercalate components ++ [backslash]

/-- An absolute path on a drive. -/
def IsDrivePath (p : Units) : Prop :=
  ∃ letter tail components, p = letter :: colon :: backslash :: tail ∧ isAsciiAlphabetic letter = true ∧
    PathOf components tail ∧ ∀ part ∈ components, Ordinary part

/-- A path with a server, a share and what is below it. -/
def IsUncPath (p : Units) : Prop :=
  ∃ tail server share components, p = backslash :: backslash :: tail ∧ PathOf (server :: share :: components) tail ∧
    ∀ part ∈ server :: share :: components, Ordinary part

/-- A path of the namespace of devices, `\\.\`, or a verbatim one, `\\?\`. -/
def IsDevicePath (p : Units) : Prop :=
  [backslash, backslash, dot, backslash] <+: p ∨ verbatimPrefix <+: p

/-! ## Names of devices -/

variable {part stem spaces extension tail wide p : Units} {parts components : List Units}
  {u : UInt16}

/-- A unit of a name of a device is a character by itself, no dot and no space, and its capital is
the same there. -/
theorem deviceNames_units :
    ∀ name ∈ deviceNames, ∀ u ∈ name, u.toNat < 0xBA ∧ u ≠ dot ∧ u ≠ space := by
  have hall : ∀ name ∈ deviceNames, name.all (fun u => u.toNat < 0xBA ∧ u ≠ dot ∧ u ≠ space) =
      true := by
    decide +kernel
  exact fun name hname u hu => of_decide_eq_true (List.all_eq_true.mp (hall name hname) u hu)

theorem deviceNames_stems :
    ∀ name ∈ deviceNames, isDeviceStem (name.map fun u => Char.ofNat u.toNat) = true := by
  decide +kernel

theorem toUpper_upper :
    ∀ n < 0xBA, (Char.ofNat n).toUpper = Char.ofNat (upper (UInt16.ofNat n)).toNat := by
  decide +kernel

theorem eq_of_ofNat_eq_space : ∀ n < 0xBA, Char.ofNat n = ' ' → n = 0x20 := by
  decide +kernel

theorem stem_units (h : stem.map upper ∈ deviceNames) (hu : u ∈ stem) :
    u.toNat < 0xBA ∧ u ≠ dot ∧ u ≠ space := by
  obtain ⟨hlt, hdot, hspace⟩ := deviceNames_units _ h _ (List.mem_map_of_mem hu)
  rw [upper] at hlt hdot hspace
  split_ifs at hlt hdot hspace with hlower
  · have hhigh : u.toNat ≤ 0x7A := hlower.2
    refine ⟨by omega, ?_, ?_⟩
    · rintro rfl
      exact absurd hlower.1 (by decide)
    · rintro rfl
      exact absurd hlower.1 (by decide)
  · exact ⟨hlt, hdot, hspace⟩

/-- The code takes the stem of a name up to the first dot, and drops the spaces behind it. -/
theorem isReservedDeviceName_of_isDevice (h : IsDevice part) :
    isReservedDeviceName part = true := by
  obtain ⟨stem, spaces, extension, rfl, hname, hspaces, hdot⟩ := h
  have hplain : ∀ u ∈ stem ++ spaces, u.toNat < 0xD800 ∧ u ≠ dot := by
    intro u hu
    rcases List.mem_append.mp hu with hu | hu
    · obtain ⟨hlt, hne, -⟩ := stem_units hname hu
      exact ⟨by omega, hne⟩
    · rw [hspaces u hu]
      decide
  have htake : (stem ++ spaces ++ extension).take ((stem ++ spaces ++ extension).findIdx (· == dot)) =
      stem ++ spaces := by
    have hne : ∀ u ∈ stem ++ spaces, (!(u == dot)) = true :=
      fun u hu => by simpa using (hplain u hu).2
    have hextension : extension.takeWhile (fun u => !(u == dot)) = [] := by
      cases extension with
      | nil => rfl
      | cons u extension => simp [hdot u rfl]
    have htake : ∀ text : Units, text.take (text.findIdx (· == dot)) =
        text.takeWhile (fun u => !(u == dot)) := by
      intro text
      rw [List.takeWhile_eq_take_findIdx_not]
      simp only [Bool.not_not]
    rw [htake, List.takeWhile_append_of_pos hne, hextension, List.append_nil]
  have hstem : ((stem ++ spaces).map fun u => Char.ofNat u.toNat).rdropWhile (· = ' ') =
      stem.map fun u => Char.ofNat u.toNat := by
    have hblank : ∀ c ∈ (spaces.map fun u => Char.ofNat u.toNat).reverse,
        decide (c = ' ') = true := by
      intro c hc
      obtain ⟨u, hu, rfl⟩ := List.mem_map.mp (List.mem_reverse.mp hc)
      rw [hspaces u hu]
      rfl
    rw [List.rdropWhile, List.map_append, List.reverse_append, List.dropWhile_append_of_pos hblank,
      ← List.rdropWhile, List.rdropWhile_eq_self_iff]
    intro hne hlast
    obtain ⟨u, hu, huc⟩ := List.mem_map.mp (List.getLast_mem hne)
    obtain ⟨hlt, -, hspace⟩ := stem_units hname hu
    rw [← huc, decide_eq_true_eq] at hlast
    exact hspace (UInt16.toNat_inj.mp (eq_of_ofNat_eq_space _ hlt hlast))
  have hupper : (stem.map fun u => Char.ofNat u.toNat).map Char.toUpper =
      (stem.map upper).map fun u => Char.ofNat u.toNat := by
    rw [List.map_map, List.map_map]
    refine List.map_congr_left fun u hu => ?_
    have := toUpper_upper u.toNat (stem_units hname hu).1
    rwa [UInt16.ofNat_toNat] at this
  rw [isReservedDeviceName, htake, lossy_of_plain fun u hu => (hplain u hu).1, hstem, hupper]
  exact deviceNames_stems _ hname

/-! ## Components -/

theorem special_iff : Special u ↔ forbidden u = true := by
  rw [Special, forbidden, Bool.or_eq_true, decide_eq_true_eq, List.contains_iff_mem,
    UInt16.lt_iff_toNat_lt]
  rfl

/-- The names that are checked are ordinary. -/
theorem ordinary_of_componentOk (h : componentOk part = true) : Ordinary part := by
  rw [componentOk] at h
  split at h
  · cases h
  · rename_i last hlast
    split_ifs at h with hend
    rw [Bool.and_eq_true, Bool.not_eq_true', Bool.not_eq_true', List.any_eq_false] at h
    obtain ⟨hplain, hreserved⟩ := h
    have hlast' : ∀ u ∈ part.getLast?, u ≠ dot ∧ u ≠ space := by
      intro u hu
      obtain rfl := Option.some.inj (hlast.symm.trans hu)
      exact not_or.mp hend
    refine ⟨?_, ⟨?_, ?_⟩, hlast', fun u hu hspecial => hplain u hu (special_iff.mp hspecial), fun hdevice => ?_⟩
    · rintro rfl
      cases hlast
    · rintro rfl
      exact (hlast' dot rfl).1 rfl
    · rintro rfl
      exact (hlast' dot rfl).1 rfl
    · rw [isReservedDeviceName_of_isDevice hdevice] at hreserved
      cases hreserved

/-- The parts are the names, up to an empty one at the end. -/
theorem exists_components (h : componentsOk parts = true) :
    ∃ components, (∀ part ∈ components, Ordinary part) ∧
      (parts = components ∨ parts = components ++ [[]]) := by
  induction parts with
  | nil => exact ⟨[], nofun, .inl rfl⟩
  | cons part parts ih =>
    rw [componentsOk] at h
    split_ifs at h with hend hok
    · obtain ⟨hpart, hparts⟩ := Bool.and_eq_true _ _ ▸ hend
      rw [List.isEmpty_iff.mp hpart, List.isEmpty_iff.mp hparts]
      exact ⟨[], nofun, .inr rfl⟩
    · obtain ⟨components, hordinary, hparts⟩ := ih h
      have hpart : Ordinary part := ordinary_of_componentOk (by simpa using hok)
      refine ⟨part :: components, List.forall_mem_cons.mpr ⟨hpart, hordinary⟩, ?_⟩
      rcases hparts with rfl | rfl
      · exact .inl rfl
      · exact .inr rfl

theorem intercalate_trailing (sep : Units) (hne : components ≠ []) :
    sep.intercalate (components ++ [[]]) = sep.intercalate components ++ sep := by
  induction components with
  | nil => exact absurd rfl hne
  | cons part components ih =>
    cases components with
    | nil => simp
    | cons part' components =>
      rw [List.cons_append, List.cons_append, List.intercalate_cons_cons, ← List.cons_append,
        ih (List.cons_ne_nil _ _), List.intercalate_cons_cons]
      simp only [List.append_assoc]

/-- The parts of a path, and its components. -/
theorem pathOf_of_splitOn (h : tail.splitOn backslash = components ∨ tail.splitOn backslash = components ++ [[]]) :
    PathOf components tail := by
  have htail : [backslash].intercalate (tail.splitOn backslash) = tail :=
    List.intercalate_splitOn backslash
  rcases h with h | h
  · rw [h] at htail
    exact .inl htail.symm
  · rw [h] at htail
    by_cases hne : components = []
    · subst hne
      exact .inl htail.symm
    · rw [intercalate_trailing _ hne] at htail
      exact .inr ⟨hne, htail.symm⟩

/-! ## The two shapes -/

theorem eq_of_dropPrefix? {text pre rest : Units} (h : text.dropPrefix? pre = some rest) :
    text = pre ++ rest := by
  obtain ⟨pre', rfl, hpre⟩ := List.dropPrefix?_eq_some_iff.mp h
  rw [eq_of_beq hpre]

/-- The plain form of a share is a path of the same share. -/
theorem isUncPath_of_plainShare (h : plainShare tail = some p) :
    p = backslash :: backslash :: tail ∧ IsUncPath p := by
  rw [plainShare] at h
  split at h
  · rename_i server share parts hparts
    split_ifs at h with hok
    obtain rfl := Option.some.inj h
    simp only [Bool.or_eq_true, Bool.not_eq_true', not_or, Bool.not_eq_false] at hok
    obtain ⟨⟨hserver, hshare⟩, hrest⟩ := hok
    obtain ⟨components, hordinary, hcomponents⟩ := exists_components hrest
    refine ⟨rfl, tail, server, share, components, rfl, pathOf_of_splitOn ?_, ?_⟩
    · rw [hparts]
      rcases hcomponents with rfl | rfl
      · exact .inl rfl
      · exact .inr rfl
    · exact List.forall_mem_cons.mpr ⟨ordinary_of_componentOk hserver,
        List.forall_mem_cons.mpr ⟨ordinary_of_componentOk hshare, hordinary⟩⟩
  · cases h

/-- The plain form of a drive is a path on the drive. -/
theorem isDrivePath_of_plainDrive {rest : Units} (h : plainDrive rest = some p) :
    p = rest ∧ IsDrivePath p := by
  rw [plainDrive.eq_def] at h
  split at h
  · rename_i letter second root tail
    split_ifs at h with hshape hok
    obtain rfl := Option.some.inj h
    simp only [Bool.and_eq_true, beq_iff_eq] at hshape
    obtain ⟨⟨hletter, rfl⟩, rfl⟩ := hshape
    refine ⟨rfl, ?_⟩
    cases tail with
    | nil => exact ⟨letter, [], [], rfl, hletter, .inl rfl, nofun⟩
    | cons u tail =>
      have hparts : componentsOk ((u :: tail).splitOn backslash) = true := by simpa using hok
      obtain ⟨components, hordinary, hcomponents⟩ := exists_components hparts
      exact ⟨letter, u :: tail, components, rfl, hletter, pathOf_of_splitOn hcomponents, hordinary⟩
  · cases h

theorem IsDrivePath.not_device (h : IsDrivePath p) : ¬ IsDevicePath p := by
  obtain ⟨letter, tail, -, rfl, hletter, -⟩ := h
  rintro (h | h)
  all_goals
    rw [← (List.cons_prefix_cons.mp h).1] at hletter
    exact absurd hletter (by decide)

/-- A server is neither `.` nor `?`. -/
theorem IsUncPath.not_device (h : IsUncPath p) : ¬ IsDevicePath p := by
  obtain ⟨tail, server, share, components, rfl, hpath, hordinary⟩ := h
  have hserver := hordinary server List.mem_cons_self
  obtain ⟨rest, rfl⟩ : ∃ rest, tail = server ++ backslash :: rest := by
    rcases hpath with rfl | ⟨-, rfl⟩
    · exact ⟨_, by rw [List.intercalate_cons_cons, List.append_assoc]; rfl⟩
    · exact ⟨_, by rw [List.intercalate_cons_cons, List.append_assoc, List.append_assoc]; rfl⟩
  have hspecial : ∀ u ∈ server, u ≠ backslash ∧ u ≠ 0x3F := by
    refine fun u hu => ⟨?_, ?_⟩
    all_goals
      rintro rfl
      exact hserver.plain _ hu (.inr (by decide))
  intro hdevice
  cases server with
  | nil => exact hserver.nonempty rfl
  | cons u server =>
    rcases hdevice with h | h
    · -- The server is the dot alone, since a backslash ends it.
      simp only [List.cons_append, List.cons_prefix_cons, true_and] at h
      obtain ⟨rfl, h⟩ := h
      cases server with
      | nil => exact hserver.not_dots.1 rfl
      | cons v server =>
        obtain ⟨rfl, -⟩ := List.cons_prefix_cons.mp h
        exact (hspecial _ (List.mem_cons_of_mem _ List.mem_cons_self)).1 rfl
    · simp only [verbatimPrefix, List.cons_append, List.cons_prefix_cons, true_and] at h
      exact (hspecial _ List.mem_cons_self).2 h.1.symm

/-- A path that has a plain spelling: it is the plain spelling of a drive or of a share behind the
prefix. -/
theorem plain_exact (h : plain wide = some p) :
    (IsDrivePath p ∧ wide = verbatimPrefix ++ p ∨
      IsUncPath p ∧ ∃ tail, p = backslash :: backslash :: tail ∧
        wide = verbatimPrefix ++ unc ++ tail) ∧
      p.length ≤ maxPlainDirUnits ∧ ¬ IsDevicePath p := by
  obtain ⟨rest, hrest, h⟩ := Option.bind_eq_some_iff.mp h
  obtain ⟨hplain, hlength⟩ := Option.filter_eq_some_iff.mp h
  obtain rfl := eq_of_dropPrefix? hrest
  split at hplain
  · rename_i tail htail
    obtain rfl := eq_of_dropPrefix? htail
    obtain ⟨rfl, hunc⟩ := isUncPath_of_plainShare hplain
    exact ⟨.inr ⟨hunc, tail, rfl, (List.append_assoc _ _ _).symm⟩, of_decide_eq_true hlength, hunc.not_device⟩
  · obtain ⟨rfl, hdrive⟩ := isDrivePath_of_plainDrive hplain
    exact ⟨.inl ⟨hdrive, rfl⟩, of_decide_eq_true hlength, hdrive.not_device⟩

/-- The units of a text of ASCII. -/
def units (text : String) : Units := text.toList.map fun c => UInt16.ofNat c.toNat

theorem plain_exact_share :
    plain (units "\\\\?\\UNC\\server\\share\\x") = some (units "\\\\server\\share\\x") ∧
      ¬ IsDevicePath (units "\\\\server\\share\\x") := by
  have h : plain (units "\\\\?\\UNC\\server\\share\\x") = some (units "\\\\server\\share\\x") := by
    decide +kernel
  exact ⟨h, (plain_exact h).2.2⟩

/-- A device keeps its prefix, with any extension. -/
example : plain (units "\\\\?\\C:\\w\\con .txt") = none := by decide +kernel

end Portty.Host.Verbatim
