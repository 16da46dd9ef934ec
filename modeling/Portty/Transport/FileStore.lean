import Portty.Lib.Directory
import Portty.Transport.CredentialStore

/-!
# The records as files (`FileCredentialStore`, `credential_store.rs` and `secure.rs`)

A write stages the bytes under a temporary name, syncs them, renames the file to the record and
syncs the directory. Each of these calls can fail, and the process can be stopped before each of
them.

* `Now`: the records are whole, and one of them may have another value than at the start of an
  operation.
* `write_wp`, `remove_wp`, `read_wp`: what an operation leaves, and what it leaves where it is
  stopped.

The directory is there and its own entry is durable. No other process changes it.
-/

namespace Portty.FileStore

open Calls Calls.Prog Directory

/-- Names are lists of characters. -/
abbrev Text := List Char

/-- The content of a record. -/
abbrev Bytes := List UInt8

/-- They differ in what is synced, and in what a rename does. -/
inductive Platform where
  | unix
  | apple
  | windows
  deriving DecidableEq, Repr

variable {E α β : Type}

/-- Why an operation has failed. -/
inductive Failure (E : Type) where
  | invalidName
  | os (e : Directory.Error E)
  | notDurable (name : Text) (e : Directory.Error E)
  | notRemoved (name : Text) (e : Directory.Error E)

/-- The text of an error; the last two say that the operation is to be done again. -/
def Failure.message (display : Directory.Error E → Text) : Failure E → Text
  | .invalidName => "credential record name must be one path component".toList
  | .os e => display e
  | .notDurable name e =>
    "wrote ".toList ++ name ++ " but could not make it durable (".toList ++ display e ++ "); a crash could lose it - retry".toList
  | .notRemoved name e =>
    "removed ".toList ++ name ++ " but could not make the deletion durable (".toList ++ display e ++
      "); the record may return after a crash - retry the revocation".toList

/-- Code that makes calls of the operating system. -/
abbrev Sys (E α : Type) := Prog (Call Text UInt8) (Call.Res E) α

/-- A call that ends with a value or with an error of the operating system. -/
abbrev Io (E α : Type) := Sys E (Except (Directory.Error E) α)

/-- `path.exists()`, by which a missing record is told. -/
def stat (path : Text) : Sys E Bool := call (.stat path) ret

/-- The name is removed. -/
def removeFile (path : Text) : Io E Unit := call (.unlink path) ret

/-- A file of this name must not be there. -/
def createNew (path : Text) : Io E Nat := call (.create path) ret

/-- All bytes are written, or the call fails. -/
def writeAll (file : Nat) (bytes : Bytes) : Io E Unit := call (.write file bytes) ret

/-- The content of the file is made durable. -/
def syncAll (file : Nat) : Io E Unit := call (.fsync file) ret

/-- The name gets the new file; `through` is a rename that is durable itself. -/
def rename (tmp path : Text) (through : Bool) : Io E Unit := call (.rename tmp path through) ret

/-- The names are made durable. -/
def syncDir : Io E Unit := call .syncDir ret

/-- A link at the end is refused. -/
def openNoFollow (path : Text) : Io E Nat := call (.openFile path) ret

/-- The whole content. -/
def readToEnd (file : Nat) : Io E Bytes := call (.read file) ret

/-- Access rights, or the mark that excludes a file from backups. -/
def setAttribute : Io E Unit := call .other ret

/-- The operator `?`. -/
def andThen (m : Io E α) (f : α → Sys E (Except (Failure E) β)) : Sys E (Except (Failure E) β) := do
  match ← m with
  | .error e => return .error (.os e)
  | .ok a => f a

/-- `FileCredentialStore::path`, in the directory. -/
def path (name : Text) : Except (Failure E) Text :=
  if name = [] ∨ name = ".".toList ∨ name = "..".toList ∨ '/' ∈ name ∨ '\\' ∈ name then .error .invalidName else .ok name

/-- `Path::file_stem` -/
def fileStem (name : Text) : Text :=
  match name.reverse.dropWhile (· ≠ '.') with
  | [] | [_] => name
  | _ :: before => before.reverse

/-- `with_extension(format!("credential.tmp-{}", temp_suffix()))` -/
def tempName (path suffix : Text) : Text := fileStem path ++ ".credential.tmp-".toList ++ suffix

/-! ## Operations -/

/-- `f.write_all(bytes)?; f.sync_all()?` -/
def writeSynced (file : Nat) (bytes : Bytes) : Sys E (Except (Directory.Error E) Unit) := do
  match ← writeAll file bytes with
  | .error e => return .error e
  | .ok () => syncAll file

/-- A file that only the owner can read, made anew, written and synced. -/
def writeOwnerOnly (platform : Platform) (path : Text) (bytes : Bytes) : Sys E (Except (Directory.Error E) Unit) := do
  let _ ← removeFile path
  match ← createNew path with
  | .error e => return .error e
  | .ok file =>
    -- the access list, before any byte is in the file
    let restricted ← if platform = .windows then setAttribute else ret (.ok ())
    match restricted with
    | .error e =>
      let _ ← removeFile path
      return .error e
    | .ok () =>
      writeSynced file bytes

/-- Only Apple has backups that can be told. -/
def excludeFromBackup (platform : Platform) : Io E Unit :=
  if platform = .apple then setAttribute else ret (.ok ())

/-- On Windows the rename itself is durable if it has to be. -/
def replaceDurably (platform : Platform) (tmp path : Text) (durability : Durability) : Io E Unit :=
  rename tmp path (platform = .windows ∧ durability = .required)

/-- Windows syncs no directories. -/
def syncParent (platform : Platform) : Io E Unit :=
  if platform = .windows then ret (.ok ()) else syncDir

/-- If a step of the staging fails, the temporary file is removed. -/
def orRemove (tmp : Text) (m : Io E Unit) (next : Sys E (Except (Failure E) Unit)) :
    Sys E (Except (Failure E) Unit) := do
  match ← m with
  | .error e =>
    let _ ← removeFile tmp
    return .error (.os e)
  | .ok () => next

/-- A temporary file is written, synced and renamed; then the directory is synced if the write has
to be durable. -/
def write (platform : Platform) (name : Text) (bytes : Bytes) (durability : Durability)
    (suffix : Text) :
    Sys E (Except (Failure E) Unit) :=
  match path name with
  | .error e => return .error e
  | .ok path =>
    -- `prepare_secret_dir`
    andThen setAttribute fun _ =>
      let tmp := tempName path suffix
      orRemove tmp (writeOwnerOnly platform tmp bytes) <|
        orRemove tmp (excludeFromBackup platform) <|
          orRemove tmp (replaceDurably platform tmp path durability) do
            match durability, ← syncParent platform with
            | .required, .error e => return .error (.notDurable name e)
            | _, _ => return .ok ()

/-- The record is removed and the directory synced; a record that is missing is fine. -/
def remove (platform : Platform) (name : Text) : Sys E (Except (Failure E) Unit) :=
  match path name with
  | .error e => return .error e
  | .ok path => do
    match ← removeFile path with
    | .ok () =>
      match ← syncParent platform with
      | .error e => return .error (.notRemoved name e)
      | .ok () => return .ok ()
    | .error .notFound => return .ok ()
    | .error e => return .error (.os e)

/-- The rest of `read`, of a file that is there. -/
def readFile (platform : Platform) (path : Text) : Sys E (Except (Failure E) (Option Bytes)) :=
  andThen (openNoFollow path) fun file =>
    -- `restrict_open_file_to_current_user`
    andThen setAttribute fun _ =>
      andThen (excludeFromBackup platform) fun _ =>
        andThen (readToEnd file) fun bytes => return .ok (some bytes)

/-- The content of the record, or nothing if it is missing. -/
def read (platform : Platform) (name : Text) : Sys E (Except (Failure E) (Option Bytes)) :=
  match path name with
  | .error e => return .error e
  | .ok path => do
    if ← stat path then readFile platform path else return .ok none

/-! ## Names -/

/-- No temporary file has the name. -/
def Plain (name : Text) : Prop := ¬ ".credential.tmp-".toList <:+: name

instance : DecidablePred Plain := fun name => inferInstanceAs (Decidable (¬ _ <:+: name))

theorem not_plain_tempName (path suffix : Text) : ¬ Plain (tempName path suffix) :=
  fun h => h ⟨fileStem path, suffix, rfl⟩

/-! ## What an operation leaves -/

variable {d₀ d d' : Dir Text UInt8} {name p tmp : Text} {bytes : Bytes} {v v' : View UInt8}
  {c : Call Text UInt8}
  {platform : Platform} {durability : Durability}

/-- The records are whole. `p` has the view `v`, and the others what they had in `d₀`. -/
structure Now (p : Text) (v : View UInt8) (d₀ d : Dir Text UInt8) : Prop where
  whole : ∀ n, Plain n → d.Whole n
  own : d.view p = v
  others : ∀ n, Plain n → n ≠ p → d.view n = d₀.view n

/-- All of it is durable. -/
structure Settled (p : Text) (v : View UInt8) (d₀ d : Dir Text UInt8) : Prop where
  whole : ∀ n, Plain n → d.Whole n
  own : d.view p = v.settle
  others : ∀ n, Plain n → n ≠ p → d.view n = (d₀.view n).settle

theorem Now.frame (h : Now p v d₀ d) (hp : Plain p) (hf : Frame Plain d d') : Now p v d₀ d' where
  whole n hn := hf.whole hn (h.whole n hn)
  own := (hf.view hp (h.whole p hp)).trans h.own
  others n hn hne := (hf.view hn (h.whole n hn)).trans (h.others n hn hne)

theorem Now.step (h : Now p v d₀ d) (hp : Plain p) (hc : Spares Plain d c) (o : Outcome E UInt8) :
    Now p v d₀ (Dir.step c o d).2 := h.frame hp (hc.frame o)

theorem Now.settled (h : Now p v d₀ d) : Settled p v d₀ d.sync where
  whole n hn := (h.whole n hn).sync
  own := by rw [Dir.view_sync, h.own]
  others n hn hne := by rw [Dir.view_sync, h.others n hn hne]

/-- The record gets another value. -/
theorem Now.put (h : Now p v d₀ d) (hp : Plain p) {i : Option Nat}
    (hi : ∀ file, i = some file → ∃ x, d.nodes[file]? = some x ∧ x.synced = true) :
    Now p (v.put (d.content i)) d₀ (d.put p i) where
  whole n hn := by
    by_cases hne : n = p
    · subst hne
      exact (h.whole n hn).put hi
    · exact (Frame.put (P := (· ≠ p)) (fun h => h rfl) i).whole hne (h.whole n hn)
  own := by rw [Dir.view_put_self, h.own]
  others n hn hne := by
    rw [(Frame.put (P := (· ≠ p)) (fun h => h rfl) i).view hne (h.whole n hn), h.others n hn hne]

theorem Now.putThrough (h : Now p v d₀ d) {i : Option Nat}
    (hi : ∀ file, i = some file → ∃ x, d.nodes[file]? = some x ∧ x.synced = true) :
    Now p ⟨d.content i, []⟩ d₀ (d.putThrough p i) where
  whole n hn := by
    by_cases hne : n = p
    · subst hne
      exact Dir.Whole.putThrough hi
    · exact (Frame.putThrough (P := (· ≠ p)) (fun h => h rfl) i).whole hne (h.whole n hn)
  own := by rw [Dir.view_putThrough_self]
  others n hn hne := by
    rw [(Frame.putThrough (P := (· ≠ p)) (fun h => h rfl) i).view hne (h.whole n hn),
      h.others n hn hne]

/-- The temporary file is written and synced. -/
def Staged (tmp : Text) (bytes : Bytes) (d : Dir Text UInt8) : Prop :=
  ∃ file, (d.entries tmp).now = some file ∧ d.nodes[file]? = some ⟨bytes, true⟩

/-! ## Staging -/

/-- The file is written and synced, and no record is touched. -/
theorem writeSynced_wp {file : Nat} (h : Now p v d₀ d) (hp : Plain p)
    (hnow : (d.entries tmp).now = some file)
    (hnode : d.nodes[file]? = some ⟨[], false⟩) :
    (writeSynced (E := E) file bytes).wp Dir.step (Now p v d₀)
      (fun r d' => Now p v d₀ d' ∧ (r = .ok () → Staged tmp bytes d')) d := by
  refine ⟨h, fun o => ?_⟩
  have h₁ := h.step hp (c := .write file bytes) ⟨_, hnode, rfl⟩ o
  dsimp only [Prog.bind]
  cases hr : (Dir.step (.write file bytes) o d).1 with
  | error e => exact ⟨h₁, nofun⟩
  | ok =>
    have hwrite := write_ok hnode hr
    rw [hwrite] at h₁ ⊢
    have hnode₁ := Dir.getElem?_setNode hnode ⟨[] ++ bytes, false⟩
    refine ⟨h₁, fun o' => ⟨h₁.step hp (c := .fsync file) ⟨_, hnode₁, rfl⟩ o', fun hok => ?_⟩⟩
    have hsync := fsync_ok hnode₁ hok
    rw [hsync]
    exact ⟨file, hnow, Dir.getElem?_setNode hnode₁ ⟨bytes, true⟩⟩

/-- The new bytes are in a file of another name. -/
theorem writeOwnerOnly_wp (h : Now p v d₀ d) (hp : Plain p) (ht : ¬ Plain tmp) :
    (writeOwnerOnly (E := E) platform tmp bytes).wp Dir.step (Now p v d₀)
      (fun r d' => Now p v d₀ d' ∧ (r = .ok () → Staged tmp bytes d')) d := by
  refine ⟨h, fun o₁ => ?_⟩
  have h₁ := h.step hp (c := .unlink tmp) ht o₁
  refine ⟨h₁, fun o₂ => ?_⟩
  have h₂ := h₁.step hp (c := .create tmp) ht o₂
  dsimp only [Prog.bind]
  cases hr : (Dir.step (.create tmp) o₂ (Dir.step (.unlink tmp) o₁ d).2).1 with
  | error e => exact ⟨h₂, nofun⟩
  | ok file =>
    obtain ⟨hnow, hnode⟩ := create_ok hr
    generalize (Dir.step (.create tmp) o₂ (Dir.step (.unlink tmp) o₁ d).2).2 = d₂ at h₂ hnow hnode
    by_cases hw : platform = .windows
    · simp only [if_pos hw]
      refine ⟨h₂, fun o₃ => ?_⟩
      dsimp only [Prog.bind]
      cases hr₃ : (Dir.step .other o₃ d₂).1 with
      | error e => exact ⟨h₂, fun o₄ => ⟨h₂.step hp (c := .unlink tmp) ht o₄, nofun⟩⟩
      | ok => exact writeSynced_wp h₂ hp hnow hnode
    · simp only [if_neg hw, ret_bind]
      exact writeSynced_wp h₂ hp hnow hnode

/-! ## Writing -/

/-- Where a write is stopped, or fails: the record is as before, or it is the new one and a power
loss can take it back. -/
def Left (p : Text) (v : View UInt8) (bytes : Bytes) (d₀ d : Dir Text UInt8) : Prop :=
  Now p v d₀ d ∨ Now p (v.put (some bytes)) d₀ d

/-- Where a write has succeeded. -/
def Wrote (durability : Durability) (p : Text) (v : View UInt8) (bytes : Bytes)
    (d₀ d : Dir Text UInt8) : Prop :=
  Settled p (v.put (some bytes)) d₀ d ∨ Now p ⟨some bytes, []⟩ d₀ d ∨
    durability = .bestEffort ∧ Now p (v.put (some bytes)) d₀ d

theorem Left.step (h : Left p v bytes d₀ d) (hp : Plain p) (hc : Spares Plain d c)
    (o : Outcome E UInt8) :
    Left p v bytes d₀ (Dir.step c o d).2 := h.imp (·.step hp hc o) (·.step hp hc o)

/-- The record has the new bytes at once, or stays. -/
theorem rename_spec (h : Now p v d₀ d) (hp : Plain p) (ht : ¬ Plain tmp) (hs : Staged tmp bytes d)
    (through : Bool)
    (o : Outcome E UInt8) :
    match (Dir.step (.rename tmp p through) o d).1 with
    | .ok () => Now p (if through then ⟨some bytes, []⟩ else v.put (some bytes)) d₀ (Dir.step (.rename tmp p through) o d).2
    | .error _ => Left p v bytes d₀ (Dir.step (.rename tmp p through) o d).2 := by
  obtain ⟨file, hnow, hnode⟩ := hs
  have hsynced : ∀ i, some file = some i → ∃ x, d.nodes[i]? = some x ∧ x.synced = true := by
    rintro i ⟨⟩
    exact ⟨_, hnode, rfl⟩
  have hput : Now p (v.put (some bytes)) d₀ ((d.put p (some file)).put tmp none) := by
    have hnew := h.put hp hsynced
    rw [Dir.content_synced hnode] at hnew
    exact hnew.frame hp (Frame.put ht none)
  have hthrough : Now p ⟨some bytes, []⟩ d₀ ((d.putThrough p (some file)).putThrough tmp none) := by
    have hnew := h.putThrough hsynced
    rw [Dir.content_synced hnode] at hnew
    exact hnew.frame hp (Frame.putThrough ht none)
  rw [Dir.step, hnow]
  cases o with
  | ok =>
    cases through with
    | true => exact hthrough
    | false => exact hput
  | failed e => exact .inl h
  | failedAfter e left => exact .inr hput

/-- A step of the staging that only sets attributes or does nothing. -/
theorem excludeFromBackup_wp {I : Dir Text UInt8 → Prop} (h : I d) :
    (excludeFromBackup (E := E) platform).wp Dir.step I (fun _ d' => d' = d) d := by
  rw [excludeFromBackup]
  split
  · exact ⟨h, fun _ => rfl⟩
  · rfl

theorem syncParent_wp {I : Dir Text UInt8 → Prop} (h : platform ≠ .windows → I d) :
    (syncParent (E := E) platform).wp Dir.step I
      (fun r d' => d' = d ∧ (r = .ok () ↔ platform = .windows) ∨ platform ≠ .windows ∧ r = .ok () ∧ d' = d.sync) d := by
  rw [syncParent]
  split
  next hw => exact .inl ⟨rfl, fun _ => hw, fun _ => rfl⟩
  next hw =>
    refine ⟨h hw, fun o => ?_⟩
    cases o with
    | ok => exact .inr ⟨hw, rfl, rfl⟩
    | failed e | failedAfter e left => exact .inl ⟨rfl, nofun, fun h => absurd h hw⟩

theorem orRemove_wp {I : Dir Text UInt8 → Prop} {m : Io E Unit}
    {next : Sys E (Except (Failure E) Unit)}
    {Q : Except (Failure E) Unit → Dir Text UInt8 → Prop}
    (h : m.wp Dir.step I (fun r d' => match r with
      | .ok () => next.wp Dir.step I Q d'
      | .error e => I d' ∧ ∀ o, Q (.error (.os e)) (Dir.step (E := E) (.unlink tmp) o d').2) d) :
    (orRemove tmp m next).wp Dir.step I Q d := by
  rw [orRemove, wp_bind]
  refine h.mono (fun _ hi => hi) fun r d' hr => ?_
  cases r with
  | ok => exact hr
  | error e => exact hr

theorem path_eq_ok {path : Text} (h : FileStore.path (E := E) name = .ok path) : path = name := by
  rw [FileStore.path] at h
  split at h
  · cases h
  · exact (Except.ok.inj h).symm

/-- Wherever a write is stopped, the record is the old one or the new one. -/
theorem write_wp (platform : Platform) (bytes : Bytes) (durability : Durability)
    (hw : ∀ n, Plain n → d.Whole n)
    (hp : Plain name) (suffix : Text) :
    (write (E := E) platform name bytes durability suffix).wp Dir.step (Left name (d.view name) bytes d)
      (fun r d' => match r with
        | .ok () => Wrote durability name (d.view name) bytes d d'
        | .error _ => Left name (d.view name) bytes d d') d := by
  have h : Now name (d.view name) d d := ⟨hw, rfl, fun _ _ _ => rfl⟩
  rw [write]
  cases hpath : FileStore.path (E := E) name with
  | error e => exact .inl h
  | ok path =>
    obtain rfl := path_eq_ok hpath
    refine ⟨.inl h, fun o => ?_⟩
    cases o with
    | failed e | failedAfter e left => exact .inl h
    | ok =>
      have ht := not_plain_tempName path suffix
      refine orRemove_wp ((writeOwnerOnly_wp h hp ht).mono (fun _ => .inl) fun r d₁ ⟨h₁, hstaged⟩ => ?_)
      cases r with
      | error e => exact ⟨.inl h₁, fun o => .inl (h₁.step hp (c := .unlink _) ht o)⟩
      | ok =>
        refine orRemove_wp ((excludeFromBackup_wp (.inl h₁)).mono (fun _ hi => hi) fun r d₂ hsame => ?_)
        subst hsame
        cases r with
        | error e => exact ⟨.inl h₁, fun o => .inl (h₁.step hp (c := .unlink _) ht o)⟩
        | ok =>
          refine orRemove_wp ⟨.inl h₁, fun o => ?_⟩
          have hren :=
            rename_spec h₁ hp ht (hstaged rfl) (platform = .windows ∧ durability = .required) o
          generalize Dir.step (Call.rename _ path _) o d₂ = res at hren ⊢
          obtain ⟨r, d₃⟩ := res
          cases r with
          | error e => exact ⟨hren, fun o => hren.step hp (c := .unlink _) ht o⟩
          | ok =>
            have hnow : Now path (if platform = .windows ∧ durability = .required then ⟨some bytes,
              []⟩ else (d.view path).put (some bytes)) d d₃ := by
              simpa using hren
            refine wp_bind.mpr ((syncParent_wp fun hw => ?_).mono (fun _ hi => hi) ?_)
            · rw [if_neg fun hb => hw hb.1] at hnow
              exact .inr hnow
            · rintro r d₄ (⟨rfl, hok⟩ | ⟨hw, rfl, rfl⟩)
              · cases durability with
                | bestEffort => exact .inr (.inr ⟨rfl, by simpa using hnow⟩)
                | required =>
                  cases r with
                  | ok =>
                    rw [if_pos ⟨hok.mp rfl, rfl⟩] at hnow
                    exact .inr (.inl hnow)
                  | error e =>
                    rw [if_neg fun hb => nomatch hok.mpr hb.1] at hnow
                    exact .inr hnow
              · rw [if_neg fun hb => hw hb.1] at hnow
                cases durability <;> exact .inl hnow.settled

/-! ## Removing and reading -/

/-- Where a removal is stopped, or fails. -/
def RemoveLeft (p : Text) (v : View UInt8) (d₀ d : Dir Text UInt8) : Prop :=
    Now p v d₀ d ∨ v.now ≠ none ∧ Now p (v.put none) d₀ d

/-- Where a removal has succeeded. That there was no record is no reason to sync the directory. -/
def Removed (platform : Platform) (p : Text) (v : View UInt8) (d₀ d : Dir Text UInt8) : Prop :=
  v.now = none ∧ Now p v d₀ d ∨
    v.now ≠ none ∧ if platform = .windows then Now p (v.put none) d₀ d else Settled p (v.put none) d₀ d

theorem now_eq_none : (d.view p).now = none ↔ (d.entries p).now = none := by
  rw [Dir.view, Dir.content, Option.map_eq_none_iff]

theorem unlink_spec (h : Now p v d₀ d) (hp : Plain p) (o : Outcome E UInt8) :
    match (Dir.step (.unlink p) o d).1 with
    | .ok () => v.now ≠ none ∧ Now p (v.put none) d₀ (Dir.step (.unlink p) o d).2
    | .error .notFound => v.now = none ∧ (Dir.step (.unlink p) o d).2 = d
    | .error _ => RemoveLeft p v d₀ (Dir.step (.unlink p) o d).2 := by
  have hput : Now p (v.put none) d₀ (d.put p none) := h.put (i := none) hp nofun
  rw [Dir.step]
  by_cases hnow : (d.entries p).now = none
  · rw [if_pos hnow]
    exact ⟨h.own ▸ now_eq_none.mpr hnow, rfl⟩
  · have hv : v.now ≠ none := fun hv => hnow (now_eq_none.mp (h.own ▸ hv))
    rw [if_neg hnow]
    cases o with
    | ok => exact ⟨hv, hput⟩
    | failed e => exact .inl h
    | failedAfter e left => exact .inr ⟨hv, hput⟩

/-- Wherever a removal is stopped, the record is there or not. -/
theorem remove_wp (platform : Platform) (hw : ∀ n, Plain n → d.Whole n) (hp : Plain name) :
    (remove (E := E) platform name).wp Dir.step (RemoveLeft name (d.view name) d)
      (fun r d' => match r with
        | .ok () => Removed platform name (d.view name) d d'
        | .error _ => RemoveLeft name (d.view name) d d') d := by
  have h : Now name (d.view name) d d := ⟨hw, rfl, fun _ _ _ => rfl⟩
  rw [remove]
  cases hpath : FileStore.path (E := E) name with
  | error e => exact .inl h
  | ok path =>
    obtain rfl := path_eq_ok hpath
    refine ⟨.inl h, fun o => ?_⟩
    have hunlink := unlink_spec h hp o
    generalize Dir.step (Call.unlink path) o d = res at hunlink ⊢
    obtain ⟨r, d₁⟩ := res
    dsimp only [Prog.bind]
    cases r with
    | error e =>
      cases e with
      | notFound => exact .inl ⟨hunlink.1, hunlink.2 ▸ h⟩
      | alreadyExists | other e => exact hunlink
    | ok =>
      obtain ⟨hv, hnow⟩ := hunlink
      refine wp_bind.mpr ((syncParent_wp fun _ => .inr ⟨hv, hnow⟩).mono (fun _ hi => hi) ?_)
      rintro r d₂ (⟨rfl, hok⟩ | ⟨hwin, rfl, rfl⟩)
      · cases r with
        | ok => exact .inr ⟨hv, by rw [if_pos (hok.mp rfl)]; exact hnow⟩
        | error e => exact .inr ⟨hv, hnow⟩
      · exact .inr ⟨hv, by rw [if_neg hwin]; exact hnow.settled⟩

theorem andThen_wp {I : Dir Text UInt8 → Prop} {m : Io E α} {f : α → Sys E (Except (Failure E) β)}
    {Q : Except (Failure E) β → Dir Text UInt8 → Prop}
    (h : m.wp Dir.step I (fun r d' => match r with
      | .ok a => (f a).wp Dir.step I Q d'
      | .error e => Q (.error (.os e)) d') d) : (andThen m f).wp Dir.step I Q d := by
  rw [andThen, wp_bind]
  refine h.mono (fun _ hi => hi) fun r d' hr => ?_
  cases r with
  | ok a => exact hr
  | error e => exact hr

theorem openNoFollow_wp (d : Dir Text UInt8) (path : Text) :
    (openNoFollow (E := E) path).wp Dir.step (· = d)
      (fun r d' => d' = d ∧ ∀ file, r = .ok file → (d.entries path).now = some file) d := by
  refine ⟨rfl, fun o => ?_⟩
  rw [wp_ret, Dir.step]
  split
  · exact ⟨rfl, fun _ h => by cases h⟩
  next file hnow =>
    refine ⟨rfl, fun i hi => ?_⟩
    cases o with
    | ok => rw [hnow, Except.ok.inj hi]
    | failed e | failedAfter e left => cases hi

theorem readToEnd_wp (d : Dir Text UInt8) (file : Nat) :
    (readToEnd (E := E) file).wp Dir.step (· = d) (fun r d' => d' = d ∧ ∀ b, r = .ok b → d.bytesOf file = b) d := by
  refine ⟨rfl, fun o => ⟨rfl, fun b hb => ?_⟩⟩
  cases o with
  | ok => exact Except.ok.inj hb
  | failed e | failedAfter e left => cases hb

/-- Reading changes nothing. -/
theorem readFile_wp (d : Dir Text UInt8) (path : Text) :
    (readFile (E := E) platform path).wp Dir.step (· = d)
      (fun r d' => d' = d ∧ ∀ c, r = .ok c → c ≠ none ∧ (d.view path).now = c) d := by
  refine andThen_wp ((openNoFollow_wp d path).mono (fun _ hi => hi) ?_)
  rintro (e | file) _ ⟨rfl, hfile⟩
  · exact ⟨rfl, fun _ h => by cases h⟩
  refine andThen_wp ⟨rfl, fun o => ?_⟩
  rw [wp_ret]
  split
  · refine andThen_wp ((excludeFromBackup_wp (I := fun d' => d' = _) rfl).mono (fun _ hi => hi) ?_)
    rintro (e | _) _ rfl
    · exact ⟨rfl, fun _ h => by cases h⟩
    refine andThen_wp ((readToEnd_wp _ file).mono (fun _ hi => hi) ?_)
    rintro (e | bytes) _ ⟨rfl, hbytes⟩
    · exact ⟨rfl, fun _ h => by cases h⟩
    refine ⟨rfl, fun c hc => ?_⟩
    rw [Dir.view, hfile file rfl, ← Except.ok.inj hc, ← hbytes bytes rfl]
    exact ⟨Option.some_ne_none _, rfl⟩
  · exact ⟨rfl, fun _ h => by cases h⟩

/-- A read changes nothing, and what it finds is the record. -/
theorem read_wp (platform : Platform) (d : Dir Text UInt8) (name : Text) :
    (read (E := E) platform name).wp Dir.step (· = d)
      (fun r d' => d' = d ∧ ∀ b, r = .ok (some b) → (d.view name).now = some b) d := by
  rw [read]
  cases hpath : FileStore.path (E := E) name with
  | error e => exact ⟨rfl, nofun⟩
  | ok path =>
    obtain rfl := path_eq_ok hpath
    refine ⟨rfl, fun o => ?_⟩
    dsimp only [Prog.bind]
    split
    · exact (readFile_wp d path).mono (fun _ hi => hi) fun r d' ⟨hd, hr⟩ => ⟨hd, fun b hb => (hr _ hb).2⟩
    · exact ⟨rfl, nofun⟩

/-- A read that finds no record is right, where it could look for it. -/
theorem read_none {os : List (Outcome E UInt8)}
    (h : ((read platform name).exec Dir.step (.ok :: os) d).1 = some (.ok none)) :
    (d.view name).now = none := by
  rw [read] at h
  cases hpath : FileStore.path (E := E) name with
  | error e =>
    rw [hpath] at h
    cases h
  | ok path =>
    obtain rfl := path_eq_ok hpath
    rw [hpath] at h
    by_contra hne
    have hfound : (d.entries path).now.isSome = true :=
      Option.isSome_iff_ne_none.mpr fun hnow => hne (now_eq_none.mpr hnow)
    have hstat : (Dir.step (E := E) (.stat path) .ok d).1 = true := hfound
    have hfile : ((if (Dir.step (E := E) (.stat path) .ok d).1 then readFile platform path else ret (.ok none)).exec Dir.step os d).1 =
      some (.ok none) := h
    rw [if_pos hstat] at hfile
    exact ((readFile_wp d path).ended hfile).2 none rfl |>.1 rfl

end Portty.FileStore
