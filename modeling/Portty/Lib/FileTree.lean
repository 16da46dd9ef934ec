import Mathlib.Data.List.Induction
import Mathlib.Logic.Function.Basic
import Mathlib.Tactic.SplitIfs
import Portty.Lib.OsPath

/-!
# Trees of files with symbolic links

A path is resolved from the root, part by part (`Tree.walk`). A symbolic link is replaced by its
target, as often as the system allows. Where a file is to be created, the last part may be missing.

* `Tree.walk_real`: what a path resolves to is there, and is not a link.
* `Tree.walk_names`: a path without links resolves to itself.
* `steps_pathOf`, `components_pathOf`: how such a path is read.
* `Tree.put`: one file is written.
* `Tree.ofRows`: a tree from a table of its files.
-/

namespace FileTree

open OsPath

/-- The name of an entry. -/
abbrev Name := OsStr

/-- What an entry is. -/
inductive Node where
  | dir
  | file (content : List UInt8)
  | link (target : OsStr)
  deriving DecidableEq

/-- Why a path leads nowhere. -/
inductive Error where
  | notFound
  | notADirectory
  | isADirectory
  | loop
  deriving DecidableEq, Repr

/-- What can be the name of a file. -/
structure Legal (name : Name) : Prop where
  ne_nil : name ≠ []
  ne_dot : name ≠ [dot]
  ne_dots : name ≠ [dot, dot]
  no_sep : ∀ b ∈ name, isSepByte .unix b = false

/-- A file is named by the names on the way to it from the root. -/
structure Tree where
  node : List Name → Option Node
  root : node [] = some .dir
  above : ∀ p n, node (p ++ [n]) ≠ none → node p = some .dir
  legal : ∀ p n, node (p ++ [n]) ≠ none → Legal n

/-- What a part of a path says. -/
inductive Step where
  | here
  | up
  | name (n : Name)
  deriving DecidableEq

/-- What a part of a path means. -/
def stepOf (part : OsStr) : Step :=
  if part = [] ∨ part = [dot] then .here else if part = [dot, dot] then .up else .name part

/-- The parts of a path. -/
def steps (path : OsStr) : List Step := (parts .unix path).map stepOf

/-- The path with these names. -/
def pathOf (names : List Name) : OsStr := slash :: [slash].intercalate names

namespace Tree

variable (t : Tree)

/-- The steps from a directory; a link is followed by `follow`. With `create`, the last name may be
missing. -/
def go (create : Bool) (follow : List Name → List Step → Except Error (List Name)) :
    List Name → List Step → Except Error (List Name)
  | cur, [] => .ok cur
  | cur, step :: rest =>
    if t.node cur ≠ some .dir then .error .notADirectory
    else
      match step with
      | .here => go create follow cur rest
      | .up => go create follow cur.dropLast rest
      | .name n =>
        match t.node (cur ++ [n]) with
        | none => if create && rest = [] then .ok (cur ++ [n]) else .error .notFound
        | some (.link target) =>
          if target = [] then .error .notFound
          else follow (if isAbsolute .unix target then [] else cur) (steps target ++ rest)
        | some _ => go create follow (cur ++ [n]) rest

/-- `links` are followed at most. -/
def walk (create : Bool) : Nat → List Name → List Step → Except Error (List Name)
  | 0 => t.go create fun _ _ => .error .loop
  | links + 1 => t.go create (walk create links)

/-- What is there, and is not a link. -/
def Real (p : List Name) : Prop := ∃ x, t.node p = some x ∧ ∀ target, x ≠ .link target

/-- A file can be at `p`, or is there. -/
structure Place (p : List Name) (n : Name) : Prop where
  dir : t.node p = some .dir
  legal : Legal n
  not_dir : t.node (p ++ [n]) ≠ some .dir

instance (name : Name) : Decidable (Legal name) :=
  decidable_of_iff (name ≠ [] ∧ name ≠ [dot] ∧ name ≠ [dot, dot] ∧ name.all (fun b => !isSepByte .unix b) = true)
    ⟨fun ⟨h, h', h'', hb⟩ => ⟨h, h', h'', by simpa using hb⟩, fun ⟨h, h', h'', hb⟩ => ⟨h, h', h'', by simpa using hb⟩⟩

instance (p : List Name) (n : Name) : Decidable (t.Place p n) :=
  decidable_of_iff (t.node p = some .dir ∧ Legal n ∧ t.node (p ++ [n]) ≠ some .dir)
    ⟨fun ⟨h, h', h''⟩ => ⟨h, h', h''⟩, fun ⟨h, h', h''⟩ => ⟨h, h', h''⟩⟩

/-- The file gets the content. -/
def put {t : Tree} {p : List Name} {n : Name} (h : t.Place p n) (content : List UInt8) : Tree where
  node := Function.update t.node (p ++ [n]) (some (.file content))
  root := by
    rw [Function.update_of_ne (List.append_ne_nil_of_right_ne_nil _ (List.cons_ne_nil _ _)).symm]
    exact t.root
  above q m hq := by
    by_cases he : q ++ [m] = p ++ [n]
    · obtain ⟨rfl, -⟩ := List.append_inj' he rfl
      rw [Function.update_of_ne (fun h => absurd (congrArg List.length h) (by simp))]
      exact h.dir
    · rw [Function.update_of_ne he] at hq
      have hdir := t.above q m hq
      rwa [Function.update_of_ne]
      rintro rfl
      exact h.not_dir hdir
  legal q m hq := by
    by_cases he : q ++ [m] = p ++ [n]
    · obtain ⟨-, hm⟩ := List.append_inj' he rfl
      exact (List.singleton_inj.mp hm) ▸ h.legal
    · rw [Function.update_of_ne he] at hq
      exact t.legal q m hq

end Tree

/-- A file in a directory. -/
structure Row where
  dir : List Name
  name : Name
  node : Node

/-- The path of an entry. -/
def Row.path (row : Row) : List Name := row.dir ++ [row.name]

/-- What a table has at a place. -/
def nodeOf (rows : List Row) (p : List Name) : Option Node :=
  if p = [] then some .dir else (rows.find? (·.path = p)).map (·.node)

theorem exists_row {rows : List Row} {p : List Name} {n : Name}
    (h : nodeOf rows (p ++ [n]) ≠ none) :
    ∃ row ∈ rows, row.dir = p ∧ row.name = n := by
  rw [nodeOf, if_neg (List.append_ne_nil_of_right_ne_nil _ (List.cons_ne_nil _ _))] at h
  obtain ⟨x, hx⟩ := Option.ne_none_iff_exists'.mp h
  obtain ⟨row, hrow, -⟩ := Option.map_eq_some_iff.mp hx
  have hpath : row.dir ++ [row.name] = p ++ [n] := by simpa [Row.path] using List.find?_some hrow
  obtain ⟨hdir, hname⟩ := List.append_inj' hpath rfl
  exact ⟨row, List.mem_of_find?_eq_some hrow, hdir, List.singleton_inj.mp hname⟩

/-- The tree of a table in which every file is in a directory of the table. -/
def Tree.ofRows (rows : List Row)
    (h : ∀ row ∈ rows, Legal row.name ∧ nodeOf rows row.dir = some .dir) : Tree where
  node := nodeOf rows
  root := if_pos rfl
  above p n hp := by
    obtain ⟨row, hrow, rfl, -⟩ := exists_row hp
    exact (h row hrow).2
  legal p n hp := by
    obtain ⟨row, hrow, -, rfl⟩ := exists_row hp
    exact (h row hrow).1

/-! ## Parts of a path -/

variable {path : OsStr} {names rest : List Name} {n : Name} {t : Tree} {cur p q : List Name}
  {create : Bool} {links : Nat}
  {follow : List Name → List Step → Except Error (List Name)} {s : List Step}

theorem legal_of_mem_steps (h : .name n ∈ steps path) : Legal n := by
  obtain ⟨part, hpart, he⟩ := List.mem_map.mp h
  rw [stepOf] at he
  split_ifs at he with hhere hup
  obtain rfl := Step.name.inj he
  push Not at hhere
  exact ⟨hhere.1, hhere.2, hup, not_sep_of_mem_parts hpart⟩

theorem Legal.stepOf (h : Legal n) : stepOf n = .name n := by
  rw [FileTree.stepOf, if_neg (not_or.mpr ⟨h.ne_nil, h.ne_dot⟩), if_neg h.ne_dots]

theorem parts_pathOf (h : ∀ n ∈ names, Legal n) :
    parts .unix (pathOf names) = [] :: if names = [] then [[]] else names := by
  have hcons : pathOf names = [] ++ slash :: [slash].intercalate names := rfl
  rw [hcons, parts_append (isSepByte_slash .unix), parts_nil, List.singleton_append]
  congr 1
  split_ifs with hnil
  · rw [hnil]
    rfl
  · exact parts_joined hnil fun n hn => (h n hn).no_sep

/-- Steps to no other place. -/
theorem steps_pathOf (h : ∀ n ∈ names, Legal n) :
    steps (pathOf names) = .here :: if names = [] then [.here] else names.map .name := by
  rw [steps, parts_pathOf h, List.map_cons]
  congr 1
  split_ifs with hnil
  · rfl
  · exact List.map_congr_left fun n hn => (h n hn).stepOf

/-- The path of an entry has its names as parts. -/
theorem components_pathOf (h : ∀ n ∈ names, Legal n) :
    components .unix (pathOf names) = .rootDir :: names.map .normal := by
  have hbody : components .unix (pathOf names) =
      .rootDir :: (parts .unix ([slash].intercalate names)).filterMap (parseSingleComponent false) := rfl
  have hparts : parts .unix ([slash].intercalate names) = if names = [] then [[]] else names := by
    have hcons := parts_pathOf h
    have hpath : pathOf names = [] ++ slash :: [slash].intercalate names := rfl
    rw [hpath, parts_append (isSepByte_slash .unix), parts_nil, List.singleton_append] at hcons
    exact List.tail_eq_of_cons_eq hcons
  rw [hbody, hparts]
  congr 1
  split_ifs with hnil
  · rw [hnil]
    rfl
  · rw [← List.filterMap_eq_map]
    refine List.filterMap_congr fun n hn => ?_
    rw [parseSingleComponent, if_neg (h n hn).ne_dot, if_neg (h n hn).ne_dots,
      if_neg (h n hn).ne_nil]
    rfl

/-! ## Resolving -/

theorem Tree.dir_of_above (h : t.node (p ++ q) ≠ none) (hq : q ≠ []) : t.node p = some .dir := by
  induction q using List.reverseRecOn with
  | nil => exact absurd rfl hq
  | append_singleton q m ih =>
    rw [← List.append_assoc] at h
    have hdir := t.above (p ++ q) m h
    by_cases hnil : q = []
    · rwa [hnil, List.append_nil] at hdir
    · exact ih (by rw [hdir]; exact nofun) hnil

theorem Tree.legal_of_node (h : t.node p ≠ none) : ∀ n ∈ p, Legal n := by
  induction p using List.reverseRecOn with
  | nil => exact fun n hn => (List.not_mem_nil hn).elim
  | append_singleton p m ih =>
    intro n hn
    rcases List.mem_append.mp hn with hn | hn
    · exact ih (by rw [t.above p m h]; exact nofun) n hn
    · exact List.mem_singleton.mp hn ▸ t.legal p m h

theorem Tree.Real.ne_none (h : t.Real p) : t.node p ≠ none := by
  obtain ⟨x, hx, -⟩ := h
  rw [hx]
  exact nofun

theorem Tree.real_root : t.Real [] := ⟨_, t.root, nofun⟩

theorem Tree.Real.of_dir (h : t.node p = some .dir) : t.Real p := ⟨_, h, nofun⟩

/-- Names that are no links are gone along. -/
theorem Tree.go_names (h : t.Real (cur ++ names)) :
    t.go create follow cur (names.map .name ++ s) = t.go create follow (cur ++ names) s := by
  induction names generalizing cur with
  | nil => rw [List.append_nil]; rfl
  | cons n names ih =>
    have hdir : t.node cur = some .dir := Tree.dir_of_above h.ne_none (List.cons_ne_nil _ _)
    rw [List.append_cons] at h
    have hnext : ∃ x, t.node (cur ++ [n]) = some x ∧ ∀ target, x ≠ .link target := by
      by_cases hnil : names = []
      · rw [hnil, List.append_nil] at h
        exact h
      · exact Tree.Real.of_dir (Tree.dir_of_above h.ne_none hnil)
    obtain ⟨x, hx, hlink⟩ := hnext
    rw [List.append_cons, ← ih h, List.map_cons, List.cons_append, Tree.go,
      if_neg (not_not.mpr hdir)]
    simp only [hx]

theorem Tree.walk_zero (t : Tree) (create : Bool) :
    t.walk create 0 = t.go create fun _ _ => .error .loop := rfl

theorem Tree.walk_succ (t : Tree) (create : Bool) (links : Nat) :
    t.walk create (links + 1) = t.go create (t.walk create links) := rfl

theorem Tree.walk_eq (t : Tree) (create : Bool) (links : Nat) :
    ∃ follow, t.walk create links = t.go create follow := by
  cases links with
  | zero => exact ⟨_, rfl⟩
  | succ links => exact ⟨_, rfl⟩

theorem Tree.go_here (hdir : t.node cur = some .dir) :
    t.go create follow cur (.here :: s) = t.go create follow cur s := by
  rw [Tree.go, if_neg (not_not.mpr hdir)]

/-- A path without links resolves to itself. -/
theorem Tree.walk_names (h : t.Real names) :
    t.walk create links [] (steps (pathOf names)) = .ok names := by
  obtain ⟨follow, hwalk⟩ := t.walk_eq create links
  rw [hwalk, steps_pathOf (Tree.legal_of_node h.ne_none), Tree.go_here t.root]
  split_ifs with hnil
  · rw [Tree.go_here t.root, hnil]
    rfl
  · have hgo : t.go create follow [] (names.map .name ++ []) = t.go create follow ([] ++ names) [] := Tree.go_names h
    rwa [List.append_nil] at hgo

/-- A name that is not there, in a directory. -/
theorem Tree.walk_new (hdir : t.node p = some .dir) (hn : Legal n)
    (hnone : t.node (p ++ [n]) = none) :
    t.walk create links [] (steps (pathOf (p ++ [n]))) =
      if create then .ok (p ++ [n]) else .error .notFound := by
  obtain ⟨follow, hwalk⟩ := t.walk_eq create links
  have hreal : t.Real ([] ++ p) := Tree.Real.of_dir hdir
  have hlegal : ∀ m ∈ p ++ [n], Legal m := fun m hm =>
    (List.mem_append.mp hm).elim (Tree.legal_of_node hreal.ne_none m) fun hm => List.mem_singleton.mp hm ▸ hn
  rw [hwalk, steps_pathOf hlegal, Tree.go_here t.root,
    if_neg (List.append_ne_nil_of_right_ne_nil _ (List.cons_ne_nil _ _)), List.map_append,
    Tree.go_names hreal, List.nil_append, List.map_singleton, Tree.go, if_neg (not_not.mpr hdir)]
  simp only [hnone]
  cases create <;> rfl

/-- What is resolved to: something that is there, or a place for a file. -/
def Tree.Found (t : Tree) (create : Bool) (q : List Name) : Prop :=
  t.Real q ∨ create = true ∧ t.node q = none ∧ ∃ p n, q = p ++ [n] ∧ t.node p = some .dir ∧ Legal n

/-- A walk ends at an entry that is there, or is about to be made. -/
theorem Tree.go_found (hfollow : ∀ cur s, t.Real cur → (∀ n, .name n ∈ s → Legal n) → follow cur s = .ok q → t.Found create q)
    (hcur : t.Real cur) (hs : ∀ n, .name n ∈ s → Legal n) (h : t.go create follow cur s = .ok q) :
    t.Found create q := by
  induction s generalizing cur with
  | nil => exact .inl (Except.ok.inj h ▸ hcur)
  | cons step s ih =>
    have hrest : ∀ n, .name n ∈ s → Legal n := fun n hn => hs n (List.mem_cons_of_mem _ hn)
    rw [Tree.go.eq_def] at h
    dsimp only at h
    split at h
    · cases h
    next hdir =>
    have hdir := not_not.mp hdir
    cases step with
    | here => exact ih hcur hrest h
    | up =>
      refine ih ?_ hrest h
      by_cases hnil : cur = []
      · rw [hnil]
        exact Tree.real_root
      · refine Tree.Real.of_dir (Tree.dir_of_above (q := [cur.getLast hnil]) ?_ (List.cons_ne_nil _ _))
        rw [List.dropLast_append_getLast hnil, hdir]
        exact nofun
    | name n =>
      dsimp only at h
      split at h
      next hnone =>
        split at h
        next hlast => exact .inr ⟨(Bool.and_eq_true_iff.mp hlast).1, Except.ok.inj h ▸ hnone, cur, n,
          (Except.ok.inj h).symm, hdir, hs n List.mem_cons_self⟩
        · cases h
      next target hlink =>
        split at h
        · cases h
        · refine hfollow _ _ ?_ ?_ h
          · split_ifs
            · exact Tree.real_root
            · exact hcur
          · intro m hm
            exact (List.mem_append.mp hm).elim legal_of_mem_steps (hrest m)
      next x hnot hx => exact ih ⟨x, hx, hnot⟩ hrest h

theorem Tree.walk_found (hcur : t.Real cur) (hs : ∀ n, .name n ∈ s → Legal n)
    (h : t.walk create links cur s = .ok q) :
    t.Found create q := by
  induction links generalizing cur s with
  | zero =>
    refine Tree.go_found ?_ hcur hs h
    intro _ _ _ _ hloop
    cases hloop
  | succ links ih => exact Tree.go_found (fun _ _ hcur hs h => ih hcur hs h) hcur hs h

/-- A walk along two paths is a walk along the first, and on from there. -/
theorem Tree.go_append {s' : List Step}
    (hfollow : ∀ cur s, follow cur s = .ok p → ∃ links, follow cur (s ++ s') = t.walk false links p s')
    (hwalk : t.walk false links = t.go false follow) (h : t.go false follow cur s = .ok p) :
    ∃ links, t.go false follow cur (s ++ s') = t.walk false links p s' := by
  induction s generalizing cur with
  | nil =>
    obtain rfl := Except.ok.inj h
    exact ⟨links, by rw [hwalk]; rfl⟩
  | cons step s ih =>
    rw [Tree.go.eq_def] at h
    dsimp only at h
    split at h
    · cases h
    next hdir =>
    rw [List.cons_append, Tree.go.eq_def]
    dsimp only
    rw [if_neg hdir]
    cases step with
    | here => exact ih h
    | up => exact ih h
    | name n =>
      dsimp only at h ⊢
      split at h
      next hnone =>
        split at h
        next hlast => cases (Bool.and_eq_true_iff.mp hlast).1
        · cases h
      next target hlink =>
        split at h
        · cases h
        next hne =>
          obtain ⟨links', hfollow⟩ := hfollow _ _ h
          rw [List.append_assoc] at hfollow
          exact ⟨links', by rw [if_neg hne, hfollow]⟩
      next x hnot hx =>
        exact ih h

/-- The other steps are gone from where the first ones lead. -/
theorem Tree.walk_append (s' : List Step) (h : t.walk false links cur s = .ok p) :
    ∃ links', t.walk false links cur (s ++ s') = t.walk false links' p s' := by
  induction links generalizing cur s with
  | zero =>
    refine Tree.go_append ?_ (t.walk_zero false) h
    intro _ _ hloop
    cases hloop
  | succ links ih => exact Tree.go_append (fun _ _ h => ih h) (t.walk_succ false links) h

end FileTree
