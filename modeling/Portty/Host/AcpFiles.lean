import Mathlib.Data.List.TakeWhile
import Portty.Lib.FileTree
import Portty.Lib.Utf8Encode

/-!
# Files of the agent (`sandboxed_acp_path` and its callers, `session.rs`)

An agent reads and writes text files by absolute paths. They are resolved first, with all symbolic
links, and have to be below the resolved directory of the session. A file that is written may be
missing; then its directory is resolved.

* `sandboxedAcpPath_spec`: what is allowed is below the root, without links, and there, or a place
  in a directory.
* `sandboxed_path`: and this is where a call with the path leads.
* `read_stays_inside`, `write_stays_inside`: what is read and written.

The paths are those of Unix. The files are not changed by others between the check and the use.
-/

namespace Portty.Host.AcpFiles

open OsPath FileTree

/-- The content of a file. -/
abbrev Bytes := List UInt8

/-- The longest file that is read or written. -/
def maxAcpTextFileBytes : Nat := 4 * 1024 * 1024

/-- The files, and what the system calls need besides them. -/
structure System where
  tree : Tree
  cwd : List Name
  cwd_dir : tree.node cwd = some .dir
  /-- How many links a path may have. -/
  links : Nat
  /-- What the system says is the size of a directory. -/
  dirLen : List Name → Nat

/-! ## System calls -/

namespace System

variable (sys : System)

/-- The place that a path leads to, all links followed. An empty path leads nowhere. -/
def resolve (create : Bool) (path : OsStr) : Except FileTree.Error (List Name) :=
  if path = [] then .error .notFound
  else sys.tree.walk create sys.links (if isAbsolute .unix path then [] else sys.cwd) (steps path)

/-- That place as a path. -/
def canonicalize (path : OsStr) : Except FileTree.Error OsStr := (sys.resolve false path).map pathOf

/-- `symlink_metadata`: a link at the end is not followed. -/
def symlinkMetadata (path : OsStr) : Except FileTree.Error Node :=
  match (steps path).getLast? with
  | some (.name n) => do
    let dir ← sys.tree.walk false sys.links (if isAbsolute .unix path then [] else sys.cwd) (steps path).dropLast
    if sys.tree.node dir ≠ some .dir then throw .notADirectory
    match sys.tree.node (dir ++ [n]) with
    | none => throw .notFound
    | some x => return x
  | _ => do
    let p ← sys.resolve false path
    match sys.tree.node p with
    | none => throw .notFound
    | some x => return x

/-- `metadata(path)?.len()` -/
def len (path : OsStr) : Except FileTree.Error Nat := do
  let p ← sys.resolve false path
  match sys.tree.node p with
  | some (.file content) => return content.length
  | _ => return sys.dirLen p

/-- The content of the file that the path leads to. -/
def read (path : OsStr) : Except FileTree.Error Bytes := do
  let p ← sys.resolve false path
  match sys.tree.node p with
  | some (.file content) => return content
  | _ => throw .isADirectory

/-- `std::fs::write` -/
def write (path : OsStr) (content : Bytes) : Except FileTree.Error System := do
  let dest ← sys.resolve true path
  if hne : dest ≠ [] then
    if h : sys.tree.Place dest.dropLast (dest.getLast hne) then
      return { sys with
        tree := Tree.put h content
        cwd_dir := by
          show Function.update _ _ _ _ = _
          rw [Function.update_of_ne]
          · exact sys.cwd_dir
          · rintro he
            exact h.not_dir (he ▸ sys.cwd_dir) }
    else throw .isADirectory
  else throw .isADirectory

end System

/-! ## The source -/

/-- The details of an error that the agent is told. -/
inductive Data where
  | message (text : String)
  /-- `"ACP file access is restricted to {}"` -/
  | restrictedTo (root : OsStr)
  deriving DecidableEq, Repr

/-- A call fails, or a file is not UTF-8. -/
inductive IoError where
  | os (e : FileTree.Error)
  | invalidUtf8
  deriving DecidableEq, Repr

/-- The errors that the agent is told. -/
inductive AcpError where
  | invalidParams (data : Data)
  | internal (e : IoError)
  deriving DecidableEq, Repr

/-- A part that names no other file. -/
def isHere (part : OsStr) : Bool := part = [] || part = [dot]

/-- `Path::parent` of an absolute path. -/
def parent (path : OsStr) : Option OsStr :=
  match (parts .unix path).reverse.dropWhile isHere with
  | [] => none
  | _ :: above =>
    match above.dropWhile isHere with
    | [] => some [slash]
    | above => some ([slash].intercalate above.reverse)

/-- The last component, if it is a name. -/
def fileName (path : OsStr) : Option Name :=
  match (components .unix path).getLast? with
  | some (.normal name) => some name
  | _ => none

/-- The branch of `sandboxed_acp_path` for a file that is missing. -/
def missingLeaf (sys : System) (requested : OsStr) : Except AcpError OsStr :=
  match parent requested with
  | none => .error (.invalidParams (.message "ACP file path has no parent directory"))
  | some parent =>
    match sys.canonicalize parent with
    | .error e => .error (.internal (.os e))
    | .ok parent =>
      match fileName requested with
      | none => .error (.invalidParams (.message "ACP file path has no file name"))
      | some name =>
        let resolved := join .unix parent name
        match sys.symlinkMetadata resolved with
        | .ok _ => .error (.invalidParams (.message "ACP file path is a symlink to a missing target"))
        | .error _ => .ok resolved

/-- What the request leads to, which may be missing only where a file is written. -/
def resolved (sys : System) (requested : OsStr) (allowMissingLeaf : Bool) : Except AcpError OsStr :=
  match sys.canonicalize requested with
  | .ok path => .ok path
  | .error e => if allowMissingLeaf ∧ e = .notFound then missingLeaf sys requested else .error (.internal (.os e))

/-- The path that is used instead of the requested one: resolved, and below the resolved
workspace. -/
def sandboxedAcpPath (sys : System) (workspace requested : OsStr) (allowMissingLeaf : Bool) :
    Except AcpError OsStr :=
  if !isAbsolute .unix requested then .error (.invalidParams (.message "ACP file path must be absolute"))
  else
    match sys.canonicalize workspace with
    | .error e => .error (.internal (.os e))
    | .ok root =>
      match resolved sys requested allowMissingLeaf with
      | .error e => .error e
      | .ok resolved =>
        if !startsWith .unix resolved root then .error (.invalidParams (.restrictedTo root)) else .ok resolved

/-- `split_inclusive('\n')` -/
def splitInclusive : Bytes → List Bytes
  | [] => []
  | b :: rest =>
    if b = 0x0A then [b] :: splitInclusive rest
    else
      match splitInclusive rest with
      | [] => [[b]]
      | piece :: pieces => (b :: piece) :: pieces

/-- Lines from `line` on (counted from 1), at most `limit` of them. -/
def select (content : Bytes) (line limit : Option UInt32) : Bytes :=
  let chunks := (splitInclusive content).drop (max ((line.map UInt32.toNat).getD 1) 1 - 1)
  match limit with
  | some limit => (chunks.take limit.toNat).flatten
  | none => chunks.flatten

/-- The path is checked, then the length, then the text. -/
def readAcpTextFile (sys : System) (workspace path : OsStr) (line limit : Option UInt32) : Except AcpError Bytes := do
  let path ← sandboxedAcpPath sys workspace path false
  match sys.len path with
  | .error e => throw (.internal (.os e))
  | .ok len =>
    if maxAcpTextFileBytes < len then throw (.invalidParams (.message "file exceeds Portty's 4194304 byte ACP read limit"))
    match sys.read path with
    | .error e => throw (.internal (.os e))
    | .ok content =>
      match Utf8.fromUtf8 content with
      | .error _ => throw (.internal .invalidUtf8)
      | .ok _ => return select content line limit

/-- The length is checked, then the path. -/
def writeAcpTextFile (sys : System) (workspace path : OsStr) (content : Bytes) :
    Except AcpError System :=
  if maxAcpTextFileBytes < content.length then
    .error (.invalidParams (.message "content exceeds Portty's 4194304 byte ACP write limit"))
  else do
    let path ← sandboxedAcpPath sys workspace path true
    match sys.write path content with
    | .error e => throw (.internal (.os e))
    | .ok sys => return sys

/-! ## Paths without links -/

variable {sys sys' : System} {path workspace requested root : OsStr} {names p q r : List Name}
  {n : Name} {create allow : Bool}

theorem isAbsolute_pathOf (names : List Name) : isAbsolute .unix (pathOf names) = true := rfl

theorem pathOf_ne_nil (names : List Name) : pathOf names ≠ [] := List.cons_ne_nil _ _

theorem resolve_pathOf (h : sys.tree.Real names) :
    sys.resolve create (pathOf names) = .ok names := by
  rw [System.resolve, if_neg (pathOf_ne_nil names), isAbsolute_pathOf]
  exact Tree.walk_names h

theorem resolve_new (hdir : sys.tree.node p = some .dir) (hn : Legal n)
    (hnone : sys.tree.node (p ++ [n]) = none) :
    sys.resolve true (pathOf (p ++ [n])) = .ok (p ++ [n]) := by
  rw [System.resolve, if_neg (pathOf_ne_nil _), isAbsolute_pathOf]
  exact (Tree.walk_new hdir hn hnone).trans (if_pos rfl)

theorem resolve_found (h : sys.resolve create path = .ok p) : sys.tree.Found create p := by
  rw [System.resolve] at h
  split at h
  · cases h
  · refine Tree.walk_found ?_ (fun n => legal_of_mem_steps) h
    split
    · exact Tree.real_root
    · exact Tree.Real.of_dir sys.cwd_dir

theorem resolve_real (h : sys.resolve false path = .ok p) : sys.tree.Real p :=
  (resolve_found h).resolve_right fun hnew => nomatch hnew.1

theorem canonicalize_eq_ok (h : sys.canonicalize path = .ok root) :
    ∃ r, sys.resolve false path = .ok r ∧ root = pathOf r := by
  rw [System.canonicalize] at h
  cases hr : sys.resolve false path with
  | error e =>
    rw [hr] at h
    cases h
  | ok r =>
    rw [hr] at h
    exact ⟨r, rfl, (Except.ok.inj h).symm⟩

theorem isAfter_names (p q : List Name) :
    isAfter (p.map .normal) (q.map .normal) = true ↔ q <+: p := by
  induction q generalizing p with
  | nil => cases p <;> simp [isAfter]
  | cons m q ih =>
    cases p with
    | nil => simp [isAfter]
    | cons n p =>
      rw [List.map_cons, List.map_cons, isAfter, Bool.and_eq_true, ih, List.cons_prefix_cons]
      simp [Component.same, eq_comm]

theorem startsWith_pathOf (hp : ∀ n ∈ p, Legal n) (hq : ∀ n ∈ q, Legal n) :
    startsWith .unix (pathOf p) (pathOf q) = true ↔ q <+: p := by
  rw [startsWith, components_pathOf hp, components_pathOf hq, isAfter, Bool.and_eq_true,
    isAfter_names]
  exact and_iff_right rfl

theorem Legal.head (h : Legal n) : n.head?.any (isSepByte .unix) = false := by
  cases n with
  | nil => exact absurd rfl h.ne_nil
  | cons b n => exact h.no_sep b List.mem_cons_self

theorem pathOf_singleton (n : Name) : pathOf [n] = slash :: n := by
  rw [pathOf, List.intercalate_singleton]

/-- The path of an entry in a directory. -/
theorem pathOf_concat (hp : p ≠ []) (n : Name) : pathOf (p ++ [n]) = pathOf p ++ slash :: n := by
  rw [pathOf, pathOf, List.cons_append]
  congr 1
  induction p with
  | nil => exact absurd rfl hp
  | cons m p ih =>
    cases p with
    | nil =>
      rw [List.singleton_append, List.intercalate_cons_cons, List.intercalate_singleton,
        List.intercalate_singleton, List.append_assoc]
      rfl
    | cons m' p =>
      rw [List.cons_append, List.cons_append, List.intercalate_cons_cons,
        List.intercalate_cons_cons, ← List.cons_append, ih (List.cons_ne_nil _ _),
        List.append_assoc, List.append_assoc, List.append_assoc]

theorem getLast?_pathOf (hn : Legal n) : (pathOf (p ++ [n])).getLast? = n.getLast? := by
  by_cases hp : p = []
  · rw [hp, List.nil_append, pathOf_singleton]
    exact List.getLast?_append_of_ne_nil [slash] hn.ne_nil
  · rw [pathOf_concat hp, List.append_cons]
    exact List.getLast?_append_of_ne_nil _ hn.ne_nil

/-- Joining a name leads to the entry. -/
theorem join_pathOf (hp : ∀ m ∈ p, Legal m) (hn : Legal n) :
    join .unix (pathOf p) n = pathOf (p ++ [n]) := by
  have hroot : hasRoot .unix n = false := by
    rw [hasRoot, hasPhysicalRoot, afterPrefix]
    exact (Bool.or_false _).trans (Legal.head hn)
  have hjoin : join .unix (pathOf p) n =
      if (pathOf p).getLast?.any (!isSepByte .unix ·) then pathOf p ++ slash :: n else pathOf p ++ n := by
    simp only [join, isAbsolute, hroot, prefixVerbatim, parsePrefix, Option.isSome_none,
      Option.any_none, Bool.or_false, Bool.false_and, Bool.not_false, Bool.and_true, mainSep]
    rfl
  rw [hjoin]
  cases p using List.reverseRecOn with
  | nil => exact (pathOf_singleton n).symm
  | append_singleton p m =>
    have hm := hp m (List.mem_append_right _ (List.mem_singleton.mpr rfl))
    have hlast : (pathOf (p ++ [m])).getLast?.any (!isSepByte .unix ·) = true := by
      rw [getLast?_pathOf hm, List.getLast?_eq_some_getLast hm.ne_nil]
      simpa using hm.no_sep _ (List.getLast_mem hm.ne_nil)
    rw [if_pos hlast, ← pathOf_concat (List.append_ne_nil_of_right_ne_nil _ (List.cons_ne_nil _ _))]

/-! ## The missing leaf -/

theorem not_here {part : OsStr} (h : isHere part = false) : part ≠ [] ∧ part ≠ [dot] := by
  rwa [isHere, Bool.or_eq_false_iff, decide_eq_false_iff_not, decide_eq_false_iff_not] at h

theorem parse_here {part : OsStr} (h : isHere part = true) :
    parseSingleComponent false part = none := by
  rw [isHere, Bool.or_eq_true, decide_eq_true_iff, decide_eq_true_iff] at h
  rcases h with rfl | rfl <;> rfl

/-- A path in pieces: its parent, its last part, and parts that name no other file. -/
theorem exists_parts {par : OsStr} (h : parent path = some par) :
    ∃ above here last tail, parts .unix path = above ++ here ++ last :: tail ∧
      (∀ x ∈ here ++ tail, isHere x = true) ∧
      isHere last = false ∧ par = if above = [] then [slash] else [slash].intercalate above := by
  have hsplit := List.takeWhile_append_dropWhile (p := isHere) (l := (parts .unix path).reverse)
  rw [parent] at h
  cases hdrop : (parts .unix path).reverse.dropWhile isHere with
  | nil =>
    rw [hdrop] at h
    cases h
  | cons last rest =>
    rw [hdrop] at h hsplit
    have hsplit' := List.takeWhile_append_dropWhile (p := isHere) (l := rest)
    have hlast : isHere last = false := by
      have hhead := List.head_dropWhile_not isHere (l := (parts .unix path).reverse) (by rw [hdrop]; exact List.cons_ne_nil _ _)
      simpa [hdrop] using hhead
    refine ⟨(rest.dropWhile isHere).reverse, (rest.takeWhile isHere).reverse, last,
      ((parts .unix path).reverse.takeWhile isHere).reverse, ?_, fun x hx => ?_, hlast, ?_⟩
    · have hparts := congrArg List.reverse hsplit
      rw [List.reverse_reverse, List.reverse_append, List.reverse_cons, List.append_assoc,
        List.singleton_append] at hparts
      rw [← List.reverse_append, hsplit', hparts]
    · rcases List.mem_append.mp hx with hx | hx
      · exact List.mem_takeWhile_imp (List.mem_reverse.mp hx)
      · exact List.mem_takeWhile_imp (List.mem_reverse.mp hx)
    · dsimp only at h
      split at h
      next hnil =>
        rw [hnil, List.reverse_nil, if_pos rfl]
        exact (Option.some.inj h).symm
      next hne =>
        rw [if_neg (fun hnil => hne (List.reverse_eq_nil_iff.mp hnil))]
        exact (Option.some.inj h).symm

theorem components_absolute (h : isAbsolute .unix path = true) :
    ∃ rest, path = slash :: rest ∧ components .unix path =
      .rootDir :: (parts .unix path).filterMap (parseSingleComponent false) := by
  cases path with
  | nil => cases h
  | cons b rest =>
    obtain rfl : b = slash := by
      simpa [isAbsolute, hasRoot, hasPhysicalRoot, afterPrefix, parsePrefix, isSepByte] using h
    have hparts : parts .unix (slash :: rest) = [] :: parts .unix rest := by
      rw [← List.nil_append (slash :: rest), parts_append (isSepByte_slash .unix), parts_nil,
        List.singleton_append]
    refine ⟨rest, rfl, ?_⟩
    rw [hparts]
    rfl

/-- The name of a path is its last part that is not `.`. -/
theorem fileName_eq {front tail : List OsStr} {last : OsStr} (habs : isAbsolute .unix path = true)
    (hparts : parts .unix path = front ++ last :: tail) (htail : ∀ x ∈ tail, isHere x = true)
    (hlast : isHere last = false) (h : fileName path = some n) : last = n ∧ Legal n := by
  obtain ⟨-, -, hcomponents⟩ := components_absolute habs
  obtain ⟨hnil, hdot⟩ := not_here hlast
  have hrest : tail.filterMap (parseSingleComponent false) = [] :=
    List.filterMap_eq_nil_iff.mpr fun x hx => parse_here (htail x hx)
  have hmem : last ∈ parts .unix path := hparts ▸ List.mem_append_right _ List.mem_cons_self
  rw [fileName, hcomponents, hparts, List.filterMap_append] at h
  by_cases hdots : last = [dot, dot]
  · have hparse : parseSingleComponent false last = some .parentDir := by rw [hdots]; rfl
    rw [List.filterMap_cons_some hparse, hrest, ← List.cons_append, List.getLast?_concat] at h
    cases h
  · have hparse : parseSingleComponent false last = some (.normal last) := by
      rw [parseSingleComponent, if_neg hdot, if_neg hdots, if_neg hnil]
    rw [List.filterMap_cons_some hparse, hrest, ← List.cons_append, List.getLast?_concat] at h
    obtain rfl := Option.some.inj h
    exact ⟨rfl, hnil, hdot, hdots, not_sep_of_mem_parts hmem⟩

/-- What is below a directory, if there is nothing on the way. -/
theorem symlinkMetadata_pathOf (hdir : sys.tree.node p = some .dir) {x : Node}
    (hx : sys.tree.node (p ++ [n]) = some x) :
    sys.symlinkMetadata (pathOf (p ++ [n])) = .ok x := by
  have hreal : sys.tree.Real p := Tree.Real.of_dir hdir
  have hlegal : ∀ m ∈ p ++ [n], Legal m := Tree.legal_of_node (by rw [hx]; exact nofun)
  have hsteps : steps (pathOf (p ++ [n])) = (.here :: p.map .name) ++ [.name n] := by
    rw [steps_pathOf hlegal, if_neg (List.append_ne_nil_of_right_ne_nil _ (List.cons_ne_nil _ _)),
      List.map_append]
    rfl
  have hwalk : sys.tree.walk false sys.links [] (.here :: p.map .name) = .ok p := by
    obtain ⟨follow, hwalk⟩ := sys.tree.walk_eq false sys.links
    have hgo : sys.tree.go false follow [] (p.map .name ++ []) = sys.tree.go false follow ([] ++ p) [] := Tree.go_names hreal
    rw [List.append_nil] at hgo
    rw [hwalk, Tree.go_here sys.tree.root]
    exact hgo
  rw [System.symlinkMetadata, hsteps, List.getLast?_concat, List.dropLast_concat, isAbsolute_pathOf]
  simp only [if_true, hwalk]
  simp [hdir, hx, bind, Except.bind, pure, Except.pure]

/-- Where something more is missing, what is resolved is a directory. -/
theorem dir_of_missing (habs : isAbsolute .unix path = true)
    (hmissing : sys.resolve false path = .error .notFound)
    {above rest : List OsStr} {last : OsStr} {tail : List OsStr}
    (hparts : parts .unix path = above ++ rest ++ last :: tail)
    (habove : above ≠ []) (hp : sys.resolve false ([slash].intercalate above) = .ok p) :
    sys.tree.node p = some .dir := by
  obtain ⟨more, rfl, -⟩ := components_absolute habs
  have hsep : ∀ x ∈ above, ∀ b ∈ x, isSepByte .unix b = false := fun x hx =>
    not_sep_of_mem_parts (hparts ▸ List.mem_append_left _ (List.mem_append_left _ hx))
  have habs' : isAbsolute .unix ([slash].intercalate above) = true := by
    cases above with
    | nil => exact absurd rfl habove
    | cons x xs =>
      have hhead : parts .unix (slash :: more) = [] :: parts .unix more := by
        rw [← List.nil_append (slash :: more), parts_append (isSepByte_slash .unix), parts_nil,
          List.singleton_append]
      rw [hhead] at hparts
      obtain rfl : [] = x := (List.cons.inj hparts).1
      cases xs with
      | nil =>
        rw [System.resolve, if_pos List.intercalate_singleton] at hp
        cases hp
      | cons y ys =>
        rw [List.intercalate_cons_cons]
        rfl
  have hne : [slash].intercalate above ≠ [] := fun hnil => by
    rw [hnil] at habs'
    cases habs'
  rw [System.resolve, if_neg hne, habs', steps, parts_joined habove hsep] at hp
  rw [System.resolve, if_neg (List.cons_ne_nil _ _), habs, steps, hparts, List.append_assoc,
    List.map_append] at hmissing
  obtain ⟨links, hwalk⟩ := Tree.walk_append ((rest ++ last :: tail).map stepOf) hp
  rw [if_pos rfl] at hmissing hwalk
  rw [hmissing] at hwalk
  by_contra hdir
  obtain ⟨follow, hgo⟩ := sys.tree.walk_eq false links
  rw [hgo] at hwalk
  cases hsteps : (rest ++ last :: tail).map stepOf with
  | nil => exact absurd (List.map_eq_nil_iff.mp hsteps) (List.append_ne_nil_of_right_ne_nil _ (List.cons_ne_nil _ _))
  | cons step s =>
    rw [hsteps, Tree.go.eq_def] at hwalk
    dsimp only at hwalk
    rw [if_pos hdir] at hwalk
    cases hwalk

/-- A missing file: its directory is there, and there is nothing of its name in it. -/
theorem missingLeaf_spec (habs : isAbsolute .unix requested = true)
    (hmissing : sys.resolve false requested = .error .notFound)
    (h : missingLeaf sys requested = .ok path) :
    ∃ p n, path = pathOf (p ++ [n]) ∧ sys.tree.node p = some .dir ∧ Legal n ∧
      sys.tree.node (p ++ [n]) = none := by
  rw [missingLeaf] at h
  split at h
  · cases h
  next par hpar =>
  split at h
  · cases h
  next root hroot =>
  split at h
  · cases h
  next n hn =>
  obtain ⟨p, hp, rfl⟩ := canonicalize_eq_ok hroot
  obtain ⟨above, here, last, tail, hparts, hhere, hlast, hpareq⟩ := exists_parts hpar
  have hreal := resolve_real hp
  obtain ⟨rfl, hlegal⟩ :=
    fileName_eq habs hparts (fun x hx => hhere x (List.mem_append_right _ hx)) hlast hn
  have hdir : sys.tree.node p = some .dir := by
    by_cases habove : above = []
    · rw [if_pos habove] at hpareq
      have hroot : sys.resolve false par = .ok [] := by
        rw [hpareq]
        exact resolve_pathOf Tree.real_root
      rw [Except.ok.inj (hp.symm.trans hroot)]
      exact sys.tree.root
    · rw [if_neg habove] at hpareq
      exact dir_of_missing habs hmissing hparts habove (hpareq ▸ hp)
  rw [join_pathOf (Tree.legal_of_node hreal.ne_none) hlegal] at h
  dsimp only at h
  split at h
  · cases h
  next e he =>
  refine ⟨p, last, (Except.ok.inj h).symm, hdir, hlegal, ?_⟩
  by_contra hne
  obtain ⟨x, hx⟩ := Option.ne_none_iff_exists'.mp hne
  rw [symlinkMetadata_pathOf hdir hx] at he
  cases he

/-! ## The sandbox -/

/-- A file or directory below the root, or a place for a file in a directory below it. -/
inductive Allowed (sys : System) (requested : OsStr) (allow : Bool) (r p : List Name) : Prop
  | there (h : sys.resolve false requested = .ok p)
  | missing (h : allow = true) (hmissing : sys.resolve false requested = .error .notFound) (d : List Name) (n : Name)
      (hp : p = d ++ [n]) (hr : r <+: d) (hdir : sys.tree.node d = some .dir) (hn : Legal n) (hnone : sys.tree.node p = none)

/-- What is allowed is the file itself, inside of the workspace. -/
theorem sandboxedAcpPath_spec (h : sandboxedAcpPath sys workspace requested allow = .ok path) :
    ∃ r p, sys.resolve false workspace = .ok r ∧ path = pathOf p ∧ r <+: p ∧
      Allowed sys requested allow r p := by
  rw [sandboxedAcpPath] at h
  split at h
  · cases h
  next habs =>
  have habs : isAbsolute .unix requested = true := by simpa using habs
  split at h
  · cases h
  next root hroot =>
  obtain ⟨r, hr, rfl⟩ := canonicalize_eq_ok hroot
  have hrlegal := Tree.legal_of_node (resolve_real hr).ne_none
  split at h
  · cases h
  next resolved hresolved =>
  split at h
  · cases h
  next hstarts =>
  obtain rfl := Except.ok.inj h
  have hstarts : startsWith .unix resolved (pathOf r) = true := by simpa using hstarts
  rw [AcpFiles.resolved] at hresolved
  split at hresolved
  next path hpath =>
    obtain ⟨p, hp, rfl⟩ := canonicalize_eq_ok hpath
    obtain rfl := Except.ok.inj hresolved
    exact ⟨r, p, hr, rfl, (startsWith_pathOf (Tree.legal_of_node (resolve_real hp).ne_none) hrlegal).mp hstarts, .there hp⟩
  next e he =>
    split at hresolved
    next hallow =>
      obtain ⟨hallow, rfl⟩ := hallow
      have hmissing : sys.resolve false requested = .error .notFound := by
        rw [System.canonicalize] at he
        cases hreq : sys.resolve false requested with
        | ok p => rw [hreq] at he; cases he
        | error e => rw [hreq] at he; rw [Except.error.inj he]
      obtain ⟨d, n, rfl, hdir, hn, hnone⟩ := missingLeaf_spec habs hmissing hresolved
      have hplegal : ∀ m ∈ d ++ [n], Legal m := fun m hm =>
        (List.mem_append.mp hm).elim (Tree.legal_of_node (Tree.Real.of_dir hdir).ne_none m) fun hm =>
          List.mem_singleton.mp hm ▸ hn
      have hprefix := (startsWith_pathOf hplegal hrlegal).mp hstarts
      refine ⟨r, d ++ [n], hr, rfl, hprefix, .missing hallow hmissing d n rfl ?_ hdir hn hnone⟩
      refine (List.prefix_concat_iff.mp hprefix).resolve_left fun he => ?_
      exact (resolve_real hr).ne_none (he ▸ hnone)
    · cases hresolved

/-- An allowed path leads where it says. -/
theorem Allowed.resolve {r : List Name} (h : Allowed sys requested allow r p) :
    sys.resolve true (pathOf p) = .ok p := by
  cases h with
  | there h => exact resolve_pathOf (resolve_real h)
  | missing hallow hmissing d n hp hr hdir hn hnone =>
    subst hp
    exact resolve_new hdir hn hnone

/-! ## Reading and writing -/

/-- The lines with their ends are the content. -/
theorem flatten_splitInclusive (content : Bytes) : (splitInclusive content).flatten = content := by
  induction content with
  | nil => rfl
  | cons b rest ih =>
    rw [splitInclusive]
    split
    · rw [List.flatten_cons, ih, List.singleton_append]
    · split
      next hnil =>
        rw [hnil] at ih
        rw [← ih]
        rfl
      next piece pieces hpieces =>
        rw [hpieces, List.flatten_cons] at ih
        rw [List.flatten_cons, List.cons_append, ih]

/-- The lines that are asked for are a piece of the content. -/
theorem select_infix (content : Bytes) (line limit : Option UInt32) :
    select content line limit <:+: content := by
  have hdrop : ∀ k, ((splitInclusive content).drop k).flatten <:+ content := fun k => by
    conv_rhs => rw [← flatten_splitInclusive content, ← List.take_append_drop k (splitInclusive content), List.flatten_append]
    exact List.suffix_append _ _
  have htake : ∀ (pieces : List Bytes) k, (pieces.take k).flatten <+: pieces.flatten := fun pieces k => by
    conv_rhs => rw [← List.take_append_drop k pieces, List.flatten_append]
    exact List.prefix_append _ _
  cases limit with
  | none => exact (hdrop _).isInfix
  | some limit => exact (htake _ _).isInfix.trans (hdrop _).isInfix

theorem select_all (content : Bytes) : select content none none = content :=
  flatten_splitInclusive content

/-- The files of the examples. The session is in `/w`, with the directory `/w/d`, a link `/w/l` to
it and a link `/w/o` out of it; `/e` is a link to `/w`, and `/s` is a file that is not of the
session. -/
def workRows : List Row :=
  [⟨[], [0x77], .dir⟩, ⟨[[0x77]], [0x64], .dir⟩,
    ⟨[[0x77], [0x64]], [0x61], .file [0x62, 0x0A, 0x63]⟩, ⟨[[0x77]], [0x6C], .link [0x64]⟩,
    ⟨[[0x77]], [0x6F], .link [slash, 0x73]⟩, ⟨[], [0x65], .link [0x77]⟩, ⟨[], [0x73], .file [0x73]⟩]

/-- The workspace `/e` is a link to the directory `/w`. -/
def workSystem : System where
  tree := .ofRows workRows (by decide +kernel)
  cwd := []
  cwd_dir := rfl
  links := 40
  dirLen _ := 4096

/-- `/e` -/
def pathE : OsStr := pathOf [[0x65]]

/-- `/w/l/a`, an old file, and `/w/l/n`, which is not there. -/
def pathOld : OsStr := pathOf [[0x77], [0x6C], [0x61]]

/-- `/w/l/n`, of which `n` is missing. -/
def pathNew : OsStr := pathOf [[0x77], [0x6C], [0x6E]]

/-- What is allowed is below the resolved directory of the session, with no link on the way, and a
call with the path leads there: to what the request names, or to a missing file in a directory that
is below the root too. -/
theorem sandboxed_path (sys : System) (workspace requested path : OsStr) (allow : Bool)
    (h : sandboxedAcpPath sys workspace requested allow = .ok path) :
    ∃ r p, sys.resolve false workspace = .ok r ∧ path = pathOf p ∧ r <+: p ∧
      sys.resolve true path = .ok p ∧
      (sys.resolve false requested = .ok p ∧ sys.tree.Real p ∧ sys.resolve false path = .ok p ∨
        allow = true ∧ sys.resolve false requested = .error .notFound ∧ sys.tree.node p = none ∧
          ∃ d n, p = d ++ [n] ∧ r <+: d ∧ sys.tree.node d = some .dir) := by
  obtain ⟨r, p, hr, rfl, hprefix, hallowed⟩ := sandboxedAcpPath_spec h
  refine ⟨r, p, hr, rfl, hprefix, hallowed.resolve, ?_⟩
  cases hallowed with
  | there h => exact .inl ⟨h, resolve_real h, resolve_pathOf (resolve_real h)⟩
  | missing hallow hmissing d n hp hr hdir hn hnone => exact .inr ⟨hallow, hmissing, hnone, d, n, hp, hr, hdir⟩

/-- A file that is not there yet, by way of the link: it is to be in `/w/d`. -/
theorem sandboxed_path_new :
    ∃ r p, workSystem.resolve false pathE = .ok r ∧
      pathOf [[0x77], [0x64], [0x6E]] = pathOf p ∧ r <+: p ∧
      workSystem.resolve true (pathOf [[0x77], [0x64], [0x6E]]) = .ok p ∧
      (workSystem.resolve false pathNew = .ok p ∧ workSystem.tree.Real p ∧
          workSystem.resolve false (pathOf [[0x77], [0x64], [0x6E]]) = .ok p ∨
        true = true ∧ workSystem.resolve false pathNew = .error .notFound ∧
          workSystem.tree.node p = none ∧
          ∃ d n, p = d ++ [n] ∧ r <+: d ∧ workSystem.tree.node d = some .dir) :=
  sandboxed_path workSystem pathE pathNew _ true (by decide +kernel)

/-- The link out of the directory is refused, and so is the file itself. -/
example : [pathOf [[0x77], [0x6F]], pathOf [[0x65], [dot, dot], [0x73]]].map
    (sandboxedAcpPath workSystem pathE · true) =
      List.replicate 2 (.error (.invalidParams (.restrictedTo (pathOf [[0x77]])))) := by
  decide +kernel

/-- What is read is a file below the resolved directory of the session, no longer than the bound:
the lines that are asked for. -/
theorem read_stays_inside (sys : System) (workspace path : OsStr) (line limit : Option UInt32)
    (selected : Bytes)
    (h : readAcpTextFile sys workspace path line limit = .ok selected) :
    ∃ r p content, sys.resolve false workspace = .ok r ∧ r <+: p ∧ sys.resolve false path = .ok p ∧
      sys.tree.node p = some (.file content) ∧ content.length ≤ maxAcpTextFileBytes ∧
        selected = select content line limit ∧
      selected <:+: content ∧ (line = none → limit = none → selected = content) := by
  rw [readAcpTextFile] at h
  cases hpath : sandboxedAcpPath sys workspace path false with
  | error e => rw [hpath] at h; cases h
  | ok resolved =>
    rw [hpath] at h
    obtain ⟨r, p, hr, rfl, hprefix, hallowed⟩ := sandboxedAcpPath_spec hpath
    cases hallowed with
    | missing hallow => cases hallow
    | there hp =>
      have hself : sys.resolve false (pathOf p) = .ok p := resolve_pathOf (resolve_real hp)
      refine ⟨r, p, ?_⟩
      simp only [bind, Except.bind, System.len, System.read, hself] at h
      split at h
      · cases h
      next len hlen =>
      split at h
      · cases h
      next hle =>
      split at h
      · cases h
      next content hcontent =>
      split at h
      · cases h
      split at hcontent
      next bytes hnode =>
        obtain rfl := Except.ok.inj hcontent
        rw [hnode] at hlen
        have hlen : bytes.length = len := Except.ok.inj hlen
        obtain rfl := Except.ok.inj h
        refine ⟨bytes, hr, hprefix, hp, hnode, by omega, rfl, select_infix bytes line limit, ?_⟩
        rintro rfl rfl
        exact select_all bytes
      · cases hcontent

/-- The second line of `/w/d/a`. -/
theorem read_stays_inside_line :
    ∃ r p content, workSystem.resolve false pathE = .ok r ∧ r <+: p ∧
      workSystem.resolve false pathOld = .ok p ∧ workSystem.tree.node p = some (.file content) ∧
      content.length ≤ maxAcpTextFileBytes ∧ [0x63] = select content (some 2) (some 1) ∧
        [0x63] <:+: content ∧
      (some (2 : UInt32) = none → some (1 : UInt32) = none → [0x63] = content) :=
  read_stays_inside workSystem pathE pathOld (some 2) (some 1) [0x63] (by decide +kernel)

/-- A write that succeeds changes one file. -/
theorem write_eq_ok {content : Bytes} (h : sys.write path content = .ok sys')
    (hp : sys.resolve true path = .ok p) :
    ∃ d n, p = d ++ [n] ∧ sys.tree.Place d n ∧ ∀ q,
      sys'.tree.node q = if q = p then some (.file content) else sys.tree.node q := by
  rw [System.write, hp] at h
  simp only [bind, Except.bind, pure, Except.pure] at h
  split at h
  next hne =>
    split at h
    next hplace =>
      refine ⟨p.dropLast, p.getLast hne, (List.dropLast_append_getLast hne).symm, hplace, fun q => ?_⟩
      rw [← Except.ok.inj h]
      show Function.update _ _ _ q = _
      rw [Function.update_apply, List.dropLast_append_getLast hne]
    · cases h
  · cases h

/-- A write changes one file, below the resolved directory of the session: what the path names, or a
new one in a directory that is there. -/
theorem write_stays_inside (sys sys' : System) (workspace path : OsStr) (content : Bytes)
    (h : writeAcpTextFile sys workspace path content = .ok sys') :
    ∃ r p, sys.resolve false workspace = .ok r ∧ r <+: p ∧
      (sys.resolve false path = .ok p ∧ (∃ old, sys.tree.node p = some (.file old)) ∨
        sys.resolve false path = .error .notFound ∧ sys.tree.node p = none ∧ ∃ d n, p = d ++ [n] ∧
          r <+: d ∧
          sys.tree.node d = some .dir) ∧
      content.length ≤ maxAcpTextFileBytes ∧
      ∀ q, sys'.tree.node q = if q = p then some (.file content) else sys.tree.node q := by
  rw [writeAcpTextFile] at h
  split at h
  · cases h
  next hlen =>
  cases hpath : sandboxedAcpPath sys workspace path true with
  | error e => rw [hpath] at h; cases h
  | ok resolved =>
    rw [hpath] at h
    obtain ⟨r, p, hr, rfl, hprefix, hallowed⟩ := sandboxedAcpPath_spec hpath
    simp only [bind, Except.bind] at h
    split at h
    · cases h
    next written hwrite =>
    obtain rfl := Except.ok.inj h
    obtain ⟨d, n, hp, hplace, hnodes⟩ := write_eq_ok hwrite hallowed.resolve
    refine ⟨r, p, hr, hprefix, ?_, Nat.le_of_not_lt hlen, hnodes⟩
    cases hallowed with
    | there hreq =>
      obtain ⟨x, hx, hlink⟩ := resolve_real hreq
      refine .inl ⟨hreq, ?_⟩
      cases x with
      | dir => exact absurd (hp ▸ hx) hplace.not_dir
      | link target => exact absurd rfl (hlink target)
      | file old => exact ⟨old, hx⟩
    | missing hallow hmissing d n hp hr hdir hn hnone => exact .inr ⟨hmissing, hnone, d, n, hp, hr, hdir⟩

/-- With the new file `/w/d/n`. -/
def writtenSystem : System :=
  ((writeAcpTextFile workSystem pathE pathNew [0x62]).toOption).getD workSystem

theorem ok_getD {e : Except AcpError System} (h : e.toOption.isSome = true) :
    e = .ok (e.toOption.getD workSystem) := by
  cases e with
  | error => cases h
  | ok sys => rfl

theorem write_stays_inside_new : ∃ r p, workSystem.resolve false pathE = .ok r ∧ r <+: p ∧
    (workSystem.resolve false pathNew = .ok p ∧
        (∃ old, workSystem.tree.node p = some (.file old)) ∨
      workSystem.resolve false pathNew = .error .notFound ∧ workSystem.tree.node p = none ∧
        ∃ d n, p = d ++ [n] ∧ r <+: d ∧ workSystem.tree.node d = some .dir) ∧
    [0x62].length ≤ maxAcpTextFileBytes ∧
    ∀ q, writtenSystem.tree.node q =
      if q = p then some (.file [0x62]) else workSystem.tree.node q :=
  write_stays_inside workSystem writtenSystem pathE pathNew [0x62] (ok_getD (by decide +kernel))

/-- The other files are as they were, and the new one is in `/w/d`. -/
example :
    [[[0x77], [0x64], [0x6E]], [[0x77], [0x64], [0x61]], [[0x73]]].map writtenSystem.tree.node =
    [some (.file [0x62]), some (.file [0x62, 0x0A, 0x63]), some (.file [0x73])] := by
  decide +kernel

end Portty.Host.AcpFiles
