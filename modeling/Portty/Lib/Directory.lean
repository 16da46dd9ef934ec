import Mathlib.Logic.Function.Basic
import Mathlib.Tactic.SplitIfs
import Portty.Lib.Calls

/-!
# A directory whose entries a power loss can take back

An entry names a file, or none. Until the directory is synced, a power loss can bring back each of
the values that an entry had (`Entry.past`), for each entry on its own. The bytes of a file that was
not synced can be anything after it.

* `Dir.step`: the calls, with their outcomes.
* `Dir.view`: what a name has, and what it may have after a power loss, as bytes; `Dir.Whole`: these
  files are synced.
* `Spares`: a call that is about other names and files that are not synced; `Dir.view_step`: it
  keeps the view.
* `Dir.view_rename`, `Dir.view_unlink`, `Dir.view_syncDir`: what the others do.
-/

namespace Directory

open Calls

variable {N α E : Type}

/-- A file: its bytes, and whether they were synced. -/
structure Node (α : Type) where
  bytes : List α
  synced : Bool

/-- What a name stands for, and what a power loss can bring back instead. -/
structure Entry where
  now : Option Nat
  past : List (Option Nat)

/-- A file is named by its place in `nodes`. -/
structure Dir (N α : Type) where
  nodes : List (Node α)
  entries : N → Entry

/-- The errors that the code tells apart, and the others. -/
inductive Error (E : Type) where
  | notFound
  | alreadyExists
  | other (e : E)
  deriving DecidableEq, Repr

/-- A call can fail before or after its effect. What a failed write or sync leaves in the file is
`left`. -/
inductive Outcome (E α : Type) where
  | ok
  | failed (e : E)
  | failedAfter (e : E) (left : List α)

/-- The calls on a directory and on its files. -/
inductive Call (N α : Type) where
  | stat (n : N)
  | unlink (n : N)
  | create (n : N)
  | write (file : Nat) (bytes : List α)
  | fsync (file : Nat)
  /-- `through`: it does not end before it is durable. -/
  | rename (n m : N) (through : Bool)
  | syncDir
  | openFile (n : N)
  | read (file : Nat)
  /-- A call that changes neither names nor bytes. -/
  | other

variable (E) in
/-- What a call answers. -/
@[reducible] def Call.Res : Call N α → Type
  | .stat _ => Bool
  | .create _ | .openFile _ => Except (Error E) Nat
  | .read _ => Except (Error E) (List α)
  | .unlink _ | .write .. | .fsync _ | .rename .. | .syncDir | .other => Except (Error E) Unit

/-- Whether the call fails, and with what. -/
def Outcome.reply {γ : Type} (c : γ) : Outcome E α → Except (Error E) γ
  | .ok => .ok c
  | .failed e | .failedAfter e _ => .error (.other e)

/-- The call succeeds. -/
def Outcome.isOk : Outcome E α → Bool
  | .ok => true
  | .failed _ | .failedAfter .. => false

/-- Whether the call has its effect. -/
def Outcome.acts : Outcome E α → Bool
  | .ok | .failedAfter .. => true
  | .failed _ => false

namespace Dir

variable (d : Dir N α)

/-- What is on the disk afterwards: of each entry one of its values, of a file that was not synced
any bytes. -/
def powerLoss (pick : N → Nat) (torn : Nat → List α) : Dir N α where
  nodes := d.nodes.mapIdx fun file x => if x.synced then x else ⟨torn file, true⟩
  entries n := ⟨(((d.entries n).now :: (d.entries n).past)[pick n]?).getD (d.entries n).now, []⟩

/-- Every entry is durable. -/
def sync : Dir N α := { d with entries := fun n => ⟨(d.entries n).now, []⟩ }

variable [DecidableEq N]

/-- The name has this file, or none, from now on. -/
def put (n : N) (i : Option Nat) : Dir N α :=
  { d with entries := Function.update d.entries n ⟨i, (d.entries n).now :: (d.entries n).past⟩ }

/-- The entry is durable. -/
def putThrough (n : N) (i : Option Nat) : Dir N α :=
  { d with entries := Function.update d.entries n ⟨i, []⟩ }

/-- The file has these bytes. -/
def setNode (file : Nat) (x : Node α) : Dir N α := { d with nodes := d.nodes.set file x }

/-- The bytes of a file. -/
def bytesOf (file : Nat) : List α := (d.nodes[file]?.map Node.bytes).getD []

/-- What a call answers and leaves, given its outcome. -/
def step : (c : Call N α) → Outcome E α → Dir N α → Call.Res E c × Dir N α
  | .stat n, o, d => (o.isOk && (d.entries n).now.isSome, d)
  | .unlink n, o, d =>
    if (d.entries n).now = none then (.error .notFound, d)
    else (o.reply (), if o.acts then d.put n none else d)
  | .create n, o, d =>
    if (d.entries n).now ≠ none then (.error .alreadyExists, d)
    else (o.reply d.nodes.length,
      if o.acts then { d.put n (some d.nodes.length) with nodes := d.nodes ++ [⟨[], false⟩] } else d)
  | .write file bytes, o, d =>
    (o.reply (), match o with
      | .ok => d.setNode file ⟨d.bytesOf file ++ bytes, false⟩
      | .failed _ => d
      | .failedAfter _ left => d.setNode file ⟨left, false⟩)
  | .fsync file, o, d =>
    (o.reply (), match o with
      | .ok => d.setNode file ⟨d.bytesOf file, true⟩
      | .failed _ => d
      | .failedAfter _ left => d.setNode file ⟨left, false⟩)
  | .rename n m through, o, d =>
    match (d.entries n).now with
    | none => (.error .notFound, d)
    | some file => (o.reply (),
      if o.isOk && through then (d.putThrough m (some file)).putThrough n none
      else if o.acts then (d.put m (some file)).put n none else d)
  | .syncDir, o, d => (o.reply (), if o.isOk then d.sync else d)
  | .openFile n, o, d =>
    match (d.entries n).now with
    | none => (.error .notFound, d)
    | some file => (o.reply file, d)
  | .read file, o, d => (o.reply (d.bytesOf file), d)
  | .other, o, d => (o.reply (), d)

end Dir

/-! ## Views -/

/-- A name with the bytes that it stands for. -/
structure View (α : Type) where
  now : Option (List α)
  past : List (Option (List α))

/-- Every value that the name may have after a power loss. -/
def View.values (v : View α) : List (Option (List α)) := v.now :: v.past

/-- A new value, which a power loss can take back. -/
def View.put (v : View α) (c : Option (List α)) : View α := ⟨c, v.values⟩

/-- The value is durable now. -/
def View.settle (v : View α) : View α := ⟨v.now, []⟩

namespace Dir

variable (d : Dir N α) (n : N)

/-- The bytes under an entry. -/
def content (i : Option Nat) : Option (List α) := i.map d.bytesOf

/-- What a reader can see under a name, now and after a crash. -/
def view : View α := ⟨d.content (d.entries n).now, (d.entries n).past.map d.content⟩

/-- The files that the name stands for or may stand for are synced. -/
def Whole : Prop := ∀ file, some file ∈ (d.entries n).now :: (d.entries n).past → ∃ x, d.nodes[file]? = some x ∧ x.synced = true

end Dir

variable {d d' : Dir N α} {n m : N} {file : Nat} {x : Node α}

theorem Dir.bytesOf_eq (h : d.nodes[file]? = some x) : d.bytesOf file = x.bytes := by
  rw [Dir.bytesOf, h]
  rfl

/-- The view depends on the entry and its files. -/
theorem Dir.view_congr (he : d'.entries n = d.entries n)
    (hn : ∀ file, some file ∈ (d.entries n).now :: (d.entries n).past → d'.nodes[file]? = d.nodes[file]?) :
    d'.view n = d.view n := by
  have hc : ∀ i ∈ (d.entries n).now :: (d.entries n).past, d'.content i = d.content i := by
    intro i hi
    cases i with
    | none => rfl
    | some file => exact congrArg some (by rw [Dir.bytesOf, Dir.bytesOf, hn file hi])
  rw [Dir.view, Dir.view, he, hc _ List.mem_cons_self]
  congr 1
  exact List.map_congr_left fun i hi => hc i (List.mem_cons_of_mem _ hi)

theorem Dir.Whole.congr (h : d.Whole n) (he : d'.entries n = d.entries n)
    (hn : ∀ file, some file ∈ (d.entries n).now :: (d.entries n).past → d'.nodes[file]? = d.nodes[file]?) :
    d'.Whole n := by
  intro file hfile
  rw [he] at hfile
  rw [hn file hfile]
  exact h file hfile

/-! ## Calls about other names -/

/-- The call is about names without `P` and files that are not synced. -/
def Spares (P : N → Prop) (d : Dir N α) : Call N α → Prop
  | .unlink n | .create n => ¬ P n
  | .write file _ | .fsync file => ∃ x, d.nodes[file]? = some x ∧ x.synced = false
  | .rename .. | .syncDir => False
  | .stat _ | .openFile _ | .read _ | .other => True

/-- The entries with `P` and the synced files are the same. -/
structure Frame (P : N → Prop) (d d' : Dir N α) : Prop where
  entries : ∀ n, P n → d'.entries n = d.entries n
  nodes : ∀ (file : Nat) (x : Node α), d.nodes[file]? = some x → x.synced = true → d'.nodes[file]? = some x

variable {P : N → Prop} {c : Call N α}

theorem Frame.refl (d : Dir N α) : Frame P d d := ⟨fun _ _ => rfl, fun _ _ h _ => h⟩

theorem Frame.setNode (h : ∃ x, d.nodes[file]? = some x ∧ x.synced = false) (y : Node α) :
    Frame P d (d.setNode file y) := by
  refine ⟨fun _ _ => rfl, fun i x hx hs => ?_⟩
  obtain ⟨z, hz, hu⟩ := h
  have hne : file ≠ i := by
    rintro rfl
    rw [Option.some.inj (hz.symm.trans hx), hs] at hu
    cases hu
  exact (List.getElem?_set_ne hne).trans hx

theorem Frame.nodes_eq (h : Frame P d d') (hw : d.Whole n)
    (hfile : some file ∈ (d.entries n).now :: (d.entries n).past) :
    d'.nodes[file]? = d.nodes[file]? := by
  obtain ⟨x, hx, hs⟩ := hw file hfile
  rw [hx, h.nodes file x hx hs]

theorem Frame.view (h : Frame P d d') (hn : P n) (hw : d.Whole n) : d'.view n = d.view n :=
  Dir.view_congr (h.entries n hn) fun _ => h.nodes_eq hw

theorem Frame.whole (h : Frame P d d') (hn : P n) (hw : d.Whole n) : d'.Whole n :=
  hw.congr (h.entries n hn) fun _ => h.nodes_eq hw

variable [DecidableEq N]

theorem Frame.put (hn : ¬ P n) (i : Option Nat) : Frame P d (d.put n i) :=
  ⟨fun m hm => Function.update_of_ne (fun he : m = n => hn (he ▸ hm)) _ _, fun _ _ h _ => h⟩

/-- A call that spares a name leaves it as it is, whatever its outcome. -/
theorem Spares.frame (h : Spares P d c) (o : Outcome E α) : Frame P d (Dir.step c o d).2 := by
  cases c with
  | stat | read | other => exact Frame.refl d
  | rename | syncDir => exact h.elim
  | openFile n =>
    rw [Dir.step]
    split <;> exact Frame.refl d
  | unlink n =>
    rw [Dir.step]
    split_ifs
    · exact Frame.refl d
    · exact Frame.put h none
    · exact Frame.refl d
  | create n =>
    rw [Dir.step]
    split_ifs
    · exact Frame.refl d
    · refine ⟨(Frame.put h _).entries, fun file x hx _ => ?_⟩
      exact List.getElem?_append_left (List.getElem?_eq_some_iff.mp hx).1 ▸ hx
    · exact Frame.refl d
  | write file bytes | fsync file =>
    cases o with
    | ok => exact Frame.setNode h _
    | failed e => exact Frame.refl d
    | failedAfter e left => exact Frame.setNode h _

/-! ## A new file -/

theorem create_ok {o : Outcome E α} (h : (Dir.step (.create n) o d).1 = .ok file) :
    ((Dir.step (.create n) o d).2.entries n).now = some file ∧
      (Dir.step (.create n) o d).2.nodes[file]? = some ⟨[], false⟩ := by
  by_cases hnow : (d.entries n).now ≠ none
  · rw [Dir.step, if_pos hnow] at h
    cases h
  · rw [Dir.step, if_neg hnow] at h ⊢
    cases o with
    | ok =>
      obtain rfl := Except.ok.inj h
      have hentry : (d.put n (some d.nodes.length)).entries n = ⟨some d.nodes.length, _⟩ :=
        Function.update_self ..
      exact ⟨congrArg Entry.now hentry, List.getElem?_concat_length⟩
    | failed e | failedAfter e left => cases h

theorem write_ok {o : Outcome E α} {bytes : List α} (hx : d.nodes[file]? = some x)
    (h : (Dir.step (.write file bytes) o d).1 = .ok ()) :
    (Dir.step (.write file bytes) o d).2 = d.setNode file ⟨x.bytes ++ bytes, false⟩ := by
  cases o with
  | ok => rw [← Dir.bytesOf_eq hx]; rfl
  | failed e | failedAfter e left => cases h

theorem fsync_ok {o : Outcome E α} (hx : d.nodes[file]? = some x)
    (h : (Dir.step (.fsync file) o d).1 = .ok ()) :
    (Dir.step (.fsync file) o d).2 = d.setNode file ⟨x.bytes, true⟩ := by
  cases o with
  | ok => rw [← Dir.bytesOf_eq hx]; rfl
  | failed e | failedAfter e left => cases h

omit [DecidableEq N] in
theorem Dir.getElem?_setNode (h : d.nodes[file]? = some x) (y : Node α) :
    (d.setNode file y).nodes[file]? = some y :=
  List.getElem?_set_self (List.getElem?_eq_some_iff.mp h).1

/-! ## Renaming, unlinking and syncing -/

omit [DecidableEq N] in
theorem Dir.content_synced (h : d.nodes[file]? = some x) : d.content (some file) = some x.bytes :=
  congrArg some (Dir.bytesOf_eq h)

theorem Dir.view_put_self (d : Dir N α) (n : N) (i : Option Nat) :
    (d.put n i).view n = (d.view n).put (d.content i) := by
  have he : (d.put n i).entries n = ⟨i, (d.entries n).now :: (d.entries n).past⟩ :=
    Function.update_self ..
  rw [Dir.view, he]
  rfl

theorem Dir.view_putThrough_self (d : Dir N α) (n : N) (i : Option Nat) :
    (d.putThrough n i).view n = ⟨d.content i, []⟩ := by
  have he : (d.putThrough n i).entries n = ⟨i, []⟩ := Function.update_self ..
  rw [Dir.view, he]
  rfl

theorem Dir.Whole.put (h : d.Whole n) {i : Option Nat}
    (hi : ∀ file, i = some file → ∃ x, d.nodes[file]? = some x ∧ x.synced = true) :
    (d.put n i).Whole n := by
  have he : (d.put n i).entries n = ⟨i, (d.entries n).now :: (d.entries n).past⟩ :=
    Function.update_self ..
  intro file hfile
  rw [he] at hfile
  rcases List.mem_cons.mp hfile with rfl | hfile
  · exact hi file rfl
  · exact h file hfile

theorem Dir.Whole.putThrough {i : Option Nat}
    (hi : ∀ file, i = some file → ∃ x, d.nodes[file]? = some x ∧ x.synced = true) :
    (d.putThrough n i).Whole n := by
  have he : (d.putThrough n i).entries n = ⟨i, []⟩ := Function.update_self ..
  intro file hfile
  rw [he] at hfile
  exact hi file (List.mem_singleton.mp hfile).symm

theorem Frame.putThrough (hn : ¬ P n) (i : Option Nat) : Frame P d (d.putThrough n i) :=
  ⟨fun m hm => Function.update_of_ne (fun he : m = n => hn (he ▸ hm)) _ _, fun _ _ h _ => h⟩

omit [DecidableEq N] in
theorem Dir.view_sync (d : Dir N α) (n : N) : d.sync.view n = (d.view n).settle := rfl

omit [DecidableEq N] in
theorem Dir.Whole.sync (h : d.Whole n) : d.sync.Whole n := fun file hfile =>
  h file (List.mem_singleton.mp hfile ▸ List.mem_cons_self)

/-! ## Power loss -/

omit [DecidableEq N] in
theorem Dir.nodes_powerLoss (d : Dir N α) (pick : N → Nat) (torn : Nat → List α)
    (h : d.nodes[file]? = some x)
    (hs : x.synced = true) :
    (d.powerLoss pick torn).nodes[file]? = some x := by
  rw [Dir.powerLoss, List.getElem?_mapIdx, h]
  simp [hs]

omit [DecidableEq N] in
theorem Dir.picked_mem (d : Dir N α) (pick : N → Nat) (n : N) :
    (((d.entries n).now :: (d.entries n).past)[pick n]?).getD (d.entries n).now ∈ (d.entries n).now :: (d.entries n).past := by
  cases hget : ((d.entries n).now :: (d.entries n).past)[pick n]? with
  | none => exact List.mem_cons_self
  | some i => exact List.mem_of_getElem? hget

omit [DecidableEq N] in
/-- A whole name has one of its values, with all of its bytes. -/
theorem Dir.view_powerLoss (h : d.Whole n) (pick : N → Nat) (torn : Nat → List α) :
    ∃ c ∈ (d.view n).values, (d.powerLoss pick torn).view n = ⟨c, []⟩ := by
  have hmem := d.picked_mem pick n
  generalize hi : (((d.entries n).now :: (d.entries n).past)[pick n]?).getD (d.entries n).now = i at hmem
  have hview : (d.powerLoss pick torn).view n = ⟨(d.powerLoss pick torn).content i, []⟩ := by
    rw [← hi]
    rfl
  refine ⟨d.content i, List.mem_map_of_mem (f := d.content) hmem, ?_⟩
  rw [hview]
  congr 1
  cases i with
  | none => rfl
  | some file =>
    obtain ⟨x, hx, hs⟩ := h file hmem
    rw [Dir.content_synced hx, Dir.content_synced (d.nodes_powerLoss pick torn hx hs)]

omit [DecidableEq N] in
/-- Each of the values may be what a power loss leaves. -/
theorem Dir.exists_powerLoss (h : d.Whole n) (torn : Nat → List α) {v : Option (List α)}
    (hv : v ∈ (d.view n).values) :
    ∃ pick : N → Nat, ((d.powerLoss pick torn).view n).now = v := by
  obtain ⟨i, hi, rfl⟩ :=
    List.mem_map.mp (show v ∈ ((d.entries n).now :: (d.entries n).past).map d.content from hv)
  obtain ⟨k, hk⟩ := List.mem_iff_getElem?.mp hi
  refine ⟨fun _ => k, ?_⟩
  have hpick : ((d.powerLoss (fun _ => k) torn).entries n).now = i := by
    show (((d.entries n).now :: (d.entries n).past)[k]?).getD _ = i
    rw [hk, Option.getD_some]
  rw [Dir.view, hpick]
  cases i with
  | none => rfl
  | some file =>
    obtain ⟨x, hx, hs⟩ := h file hi
    rw [Dir.content_synced hx, Dir.content_synced (d.nodes_powerLoss _ torn hx hs)]

omit [DecidableEq N] in
theorem Dir.Whole.powerLoss (h : d.Whole n) (pick : N → Nat) (torn : Nat → List α) :
    (d.powerLoss pick torn).Whole n := by
  intro file hfile
  have hmem := d.picked_mem pick n
  obtain ⟨x, hx, hs⟩ := h file (List.mem_singleton.mp hfile ▸ hmem)
  exact ⟨x, d.nodes_powerLoss pick torn hx hs, hs⟩

end Directory
