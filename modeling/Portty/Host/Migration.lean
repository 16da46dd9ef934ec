import Mathlib.Logic.Function.Basic
import Portty.Lib.Run

/-!
# The move of the credentials out of the roaming profile (`host/src/main.rs`)

Every start of the host runs `migrate_credentials_off_roaming` and then uses the local directory: it
loads the identity, which it creates when none is there, and the records of the peers. Each step of
the migration can fail (`Faults`); the start goes on after it.

`migration_keeps`: where a start whose migration fails goes no further, the host runs only with the
records it had in the roaming directory, and a start without failures completes the move.
`credentials_stranded`: after a failure the same start creates another identity, and the grace
record is never moved.

A directory is a function from the names of the records. The host does not write the records between
the starts, and a record that was written in part is read as it is.
-/

namespace Portty.Host.Migration

/-- The records of the credentials. -/
inductive Record where
  | identity
  | peers
  | lastHost
  | pairState
  | revocations
  | grace
  deriving DecidableEq, Repr

/-- What a record has. -/
abbrev Bytes := List UInt8

/-- The records of a directory. -/
abbrev Dir := Record → Option Bytes

/-- The steps of a start that fail. -/
structure Faults where
  /-- `prepare_secret_dir` -/
  prepare : Bool := false
  read : Record → Bool := fun _ => false
  /-- `write_owner_only` leaves no file, or the first bytes of it. -/
  write : Record → Option (Option Nat) := fun _ => none
  /-- The copy cannot be read, or does not match. -/
  verify : Record → Bool := fun _ => false
  remove : Record → Bool := fun _ => false
  /-- The new identity cannot be written, and the start ends. -/
  create : Bool := false

/-- A start of the host. -/
structure Start where
  faults : Faults := {}
  /-- The identity that `Identity::generate` makes. -/
  generated : Bytes

/-- What a start has loaded, and the roaming directory at this time. -/
structure Load where
  roaming : Dir
  loaded : Dir

/-- Both directories, and what each start has loaded. -/
structure World where
  roaming : Dir
  localDir : Dir := fun _ => none
  loads : List Load := []

namespace World

variable (w : World) (f : Faults)

/-- One record of the loop: whether it was moved or was not there. -/
def moveRecord (r : Record) : Bool × World :=
  match w.roaming r with
  | none => (true, w)
  | some bytes =>
    if f.read r then (false, w)
    else
      match f.write r with
      | some left => (false, { w with localDir := Function.update w.localDir r (left.map bytes.take) })
      | none =>
        let w := { w with localDir := Function.update w.localDir r (some bytes) }
        if f.verify r then (false, w)
        else (true, if f.remove r then w else { w with roaming := Function.update w.roaming r none })

/-- The loop: whether all were moved. -/
def moveRecords : List Record → World → Bool × World
  | [], w => (true, w)
  | r :: rs, w =>
    let (moved, w) := w.moveRecord f r
    let (movedRest, w) := moveRecords rs w
    (moved && movedRest, w)

/-- The records that are moved before the identity. -/
def records : List Record := [.peers, .lastHost, .pairState, .revocations]

/-- The roaming directory has an identity, and the local one has none. -/
def due : Bool := (w.roaming .identity).isSome && (w.localDir .identity).isNone

/-- The identity goes last, and only if all others were moved. -/
def migrateCredentialsOffRoaming : World :=
  if !w.due || f.prepare then w
  else
    let (movedAll, w) := moveRecords f records w
    if movedAll then (w.moveRecord f .identity).2 else w

/-- `Identity::load_or_create` and `PeerStore::load` -/
def load (create : Bool) (generated : Bytes) : World :=
  match w.localDir .identity with
  | some _ => { w with loads := w.loads ++ [⟨w.roaming, w.localDir⟩] }
  | none =>
    if create then w
    else
      let w := { w with localDir := Function.update w.localDir .identity (some generated) }
      { w with loads := w.loads ++ [⟨w.roaming, w.localDir⟩] }

/-- A start of the host. -/
def start (s : Start) : World :=
  (w.migrateCredentialsOffRoaming s.faults).load s.faults.create s.generated

end World

/-! ## What is kept -/

/-- The host does not run under another identity while the roaming directory has the original one,
and does not load the peers without their revocations. -/
def Kept (original : Dir) (l : Load) : Prop :=
  (l.roaming .identity = original .identity → l.loaded .identity = original .identity) ∧
    (l.loaded .peers ≠ none → l.loaded .revocations = original .revocations)

/-- No step of a start fails. -/
def Faultless (f : Faults) : Prop :=
  f.prepare = false ∧ (∀ r, f.read r = false) ∧ (∀ r, f.write r = none) ∧ (∀ r, f.verify r = false) ∧
    (∀ r, f.remove r = false) ∧ f.create = false

/-- Every record is copied. -/
def Copies (w : World) (f : Faults) : Prop :=
  f.prepare = false ∧
    (∀ r ∈ World.records, w.roaming r ≠ none → f.read r = false ∧ f.write r = none ∧ f.verify r = false) ∧
    f.read .identity = false ∧ f.write .identity = none

/-- The start ends with no identity in the local directory. -/
def Ends (f : Faults) : Prop := f.create = true ∧ ∀ left ∈ f.write .identity, left = none

/-- A start that has to migrate copies every record, or ends. -/
def Meets (w : World) (s : Start) : Prop := w.due = true → Copies w s.faults ∨ Ends s.faults

/-! ## The records on the way -/

variable {original : Dir} {w : World} {f : Faults} {r r' : Record}

/-- The record is where it was, or it was moved. -/
def Safe (original : Dir) (w : World) (r : Record) : Prop :=
  (w.roaming r = original r ∧ (original r = none → w.localDir r = none)) ∨
    (w.roaming r = none ∧ w.localDir r = original r)

/-- What moving a record does. -/
inductive Moves (w : World) (f : Faults) (r : Record) : Bool → World → Prop
  | absent (hr : w.roaming r = none) : Moves w f r true w
  | unread (bytes : Bytes) (hr : w.roaming r = some bytes) (h : f.read r = true) : Moves w f r false w
  | unwritten (bytes : Bytes) (hr : w.roaming r = some bytes) (left : Option Nat) (h : f.write r = some left) :
    Moves w f r false { w with localDir := Function.update w.localDir r (left.map bytes.take) }
  | unverified (bytes : Bytes) (hr : w.roaming r = some bytes) (h : f.verify r = true) :
    Moves w f r false { w with localDir := Function.update w.localDir r (some bytes) }
  | copied (bytes : Bytes) (hr : w.roaming r = some bytes) :
    Moves w f r true { w with localDir := Function.update w.localDir r (some bytes) }
  | moved (bytes : Bytes) (hr : w.roaming r = some bytes) :
    Moves w f r true
      { w with
        localDir := Function.update w.localDir r (some bytes)
        roaming := Function.update w.roaming r none }

/-- The ways in which the move of a record can go. -/
theorem moveRecord_moves (w : World) (f : Faults) (r : Record) :
    Moves w f r (w.moveRecord f r).1 (w.moveRecord f r).2 := by
  unfold World.moveRecord
  split
  · exact .absent (by assumption)
  · rename_i bytes hr
    split
    · exact .unread bytes hr (by assumption)
    · split
      · exact .unwritten bytes hr _ (by assumption)
      · dsimp only
        split
        · exact .unverified bytes hr (by assumption)
        · dsimp only
          split
          · exact .copied bytes hr
          · exact .moved bytes hr

theorem Safe.original_eq (h : Safe original w r) {bytes : Bytes} (hr : w.roaming r = some bytes) :
    original r = some bytes := by
  rcases h with ⟨he, -⟩ | ⟨hn, -⟩
  · rw [← he, hr]
  · rw [hn] at hr
    cases hr

/-- The copy in the roaming directory is still there. -/
theorem Safe.of_roaming {w' : World} (h : Safe original w r) {bytes : Bytes}
    (hr : w.roaming r = some bytes)
    (hr' : w'.roaming = w.roaming) : Safe original w' r := by
  have horig := h.original_eq hr
  refine .inl ⟨?_, fun hn => ?_⟩
  · rw [hr', hr, horig]
  · rw [hn] at horig
    cases horig

/-- A record that is moved is safe, and is there if it was moved. -/
theorem Safe.moves {w' : World} {moved : Bool} (h : Safe original w r) (hm : Moves w f r moved w') :
    Safe original w' r ∧ (moved = true → w'.localDir r = original r) := by
  cases hm with
  | absent hr =>
    refine ⟨h, fun _ => ?_⟩
    rcases h with ⟨he, hl⟩ | ⟨-, hl⟩
    · rw [hr] at he
      rw [hl he.symm, he]
    · exact hl
  | unread bytes hr => exact ⟨h, nofun⟩
  | unwritten bytes hr => exact ⟨h.of_roaming hr rfl, nofun⟩
  | unverified bytes hr => exact ⟨h.of_roaming hr rfl, nofun⟩
  | copied bytes hr =>
    refine ⟨h.of_roaming hr rfl, fun _ => ?_⟩
    rw [h.original_eq hr]
    exact Function.update_self ..
  | moved bytes hr =>
    have hl : Function.update w.localDir r (some bytes) r = original r := by
      rw [Function.update_self, h.original_eq hr]
    exact ⟨.inr ⟨Function.update_self .., hl⟩, fun _ => hl⟩

/-- The other records stay. -/
theorem Moves.other {w' : World} {moved : Bool} (hm : Moves w f r moved w') (hne : r' ≠ r) :
    w'.roaming r' = w.roaming r' ∧ w'.localDir r' = w.localDir r' := by
  cases hm with
  | absent | unread => exact ⟨rfl, rfl⟩
  | unwritten | unverified | copied => exact ⟨rfl, Function.update_of_ne hne _ _⟩
  | moved => exact ⟨Function.update_of_ne hne _ _, Function.update_of_ne hne _ _⟩

theorem Moves.loads {w' : World} {moved : Bool} (hm : Moves w f r moved w') :
    w'.loads = w.loads := by
  cases hm <;> rfl

theorem Safe.other {w' : World} {moved : Bool} (h : Safe original w r) (hm : Moves w f r' moved w')
    (hne : r ≠ r') : Safe original w' r := by
  obtain ⟨hr, hl⟩ := hm.other hne
  unfold Safe
  rw [hr, hl]
  exact h

/-- The record is copied when none of its steps fails. -/
theorem moveRecord_true (h : w.roaming r ≠ none → f.read r = false ∧ f.write r = none ∧ f.verify r = false) :
    (w.moveRecord f r).1 = true := by
  unfold World.moveRecord
  cases hr : w.roaming r with
  | none => rfl
  | some bytes =>
    obtain ⟨hread, hwrite, hverify⟩ := h (by rw [hr]; nofun)
    simp [hread, hwrite, hverify]

/-! ## All records -/

/-- What moving some records keeps. -/
structure Moving (original : Dir) (rs : List Record) (w w' : World) : Prop where
  safe : ∀ r, Safe original w r → Safe original w' r
  other : ∀ r ∉ rs, w'.roaming r = w.roaming r ∧ w'.localDir r = w.localDir r
  loads : w'.loads = w.loads

/-- Moving some records loses none, and leaves the others. -/
theorem moveRecords_moving (f : Faults) (rs : List Record) (w : World) :
    Moving original rs w (World.moveRecords f rs w).2 := by
  induction rs generalizing w with
  | nil => exact ⟨fun _ h => h, fun _ _ => ⟨rfl, rfl⟩, rfl⟩
  | cons r rs ih =>
    have hm := moveRecord_moves w f r
    obtain ⟨hsafe, hother, hloads⟩ := ih (w.moveRecord f r).2
    refine ⟨fun r' h => hsafe r' ?_, fun r' hr' => ?_, hloads.trans hm.loads⟩
    · by_cases hr : r' = r
      · subst hr
        exact (h.moves hm).1
      · exact h.other hm hr
    · rw [List.mem_cons, not_or] at hr'
      obtain ⟨hro, hlo⟩ := hother r' hr'.2
      obtain ⟨hro', hlo'⟩ := hm.other hr'.1
      exact ⟨hro.trans hro', hlo.trans hlo'⟩

/-- If all were moved, all are there. -/
theorem moveRecords_all {rs : List Record} (hnd : rs.Nodup) (hs : ∀ r ∈ rs, Safe original w r)
    (hall : (World.moveRecords f rs w).1 = true) :
    ∀ r ∈ rs, (World.moveRecords f rs w).2.localDir r = original r := by
  induction rs generalizing w with
  | nil => nofun
  | cons r rs ih =>
    obtain ⟨hr, hnd⟩ := List.nodup_cons.mp hnd
    have hm := moveRecord_moves w f r
    have hall : ((w.moveRecord f r).1 && (World.moveRecords f rs (w.moveRecord f r).2).1) = true :=
      hall
    rw [Bool.and_eq_true] at hall
    intro r' hr'
    rcases List.mem_cons.mp hr' with rfl | hr'
    · have hself := ((hs r' List.mem_cons_self).moves hm).2 hall.1
      have hmoving : Moving original rs _ _ := moveRecords_moving f rs (w.moveRecord f r').2
      exact (hmoving.other r' hr).2.trans hself
    · refine ih hnd (fun q hq => ?_) hall.2 r' hr'
      refine (hs q (List.mem_cons_of_mem _ hq)).other hm ?_
      rintro rfl
      exact hr hq

/-- All are moved when none of their steps fails. -/
theorem moveRecords_true {rs : List Record} (hnd : rs.Nodup)
    (h : ∀ r ∈ rs, w.roaming r ≠ none → f.read r = false ∧ f.write r = none ∧ f.verify r = false) :
    (World.moveRecords f rs w).1 = true := by
  induction rs generalizing w with
  | nil => rfl
  | cons r rs ih =>
    obtain ⟨hr, hnd⟩ := List.nodup_cons.mp hnd
    have hrest : (World.moveRecords f rs (w.moveRecord f r).2).1 = true := by
      refine ih hnd fun q hq hroam => h q (List.mem_cons_of_mem _ hq) ?_
      have hne : q ≠ r := by
        rintro rfl
        exact hr hq
      rwa [((moveRecord_moves w f r).other hne).1] at hroam
    show ((w.moveRecord f r).1 && (World.moveRecords f rs (w.moveRecord f r).2).1) = true
    rw [moveRecord_true (h r List.mem_cons_self), hrest]
    rfl

/-! ## Starts -/

/-- The migration has still to be done, and the host has not run. -/
structure Pending (original : Dir) (w : World) : Prop where
  identity : w.roaming .identity = original .identity
  no_identity : w.localDir .identity = none
  safe : ∀ r ∈ World.records, Safe original w r
  grace : w.localDir .grace = none
  loads : w.loads = []

/-- The local directory has the records. -/
structure Done (original : Dir) (w : World) : Prop where
  localDir : w.localDir = original
  loads : ∀ l ∈ w.loads, l.loaded = original

theorem done_of_records (hgrace : original .grace = none)
    (hall : ∀ r ∈ World.records, w.localDir r = original r)
    (hid : w.localDir .identity = original .identity) (hg : w.localDir .grace = none)
    (hl : w.loads = []) :
    Done original w := by
  refine ⟨?_, by simp [hl]⟩
  funext r
  cases r with
  | identity => exact hid
  | grace => rw [hg, hgrace]
  | peers | lastHost | pairState | revocations => exact hall _ (by decide)

theorem Pending.moveRecords (h : Pending original w) (f : Faults) :
    Pending original (World.moveRecords f World.records w).2 := by
  have hm : Moving original World.records w _ := moveRecords_moving f World.records w
  exact
    { identity := (hm.other .identity (by decide)).1.trans h.identity
      no_identity := (hm.other .identity (by decide)).2.trans h.no_identity
      safe := fun r hr => hm.safe r (h.safe r hr)
      grace := (hm.other .grace (by decide)).2.trans h.grace
      loads := hm.loads.trans h.loads }

/-- The identity is moved last: it is there afterwards, or it could not be read or written. -/
theorem Pending.moveIdentity {w' : World} {moved : Bool} (h : Pending original w)
    (hgrace : original .grace = none) (hid : original .identity ≠ none)
    (hall : ∀ r ∈ World.records, w.localDir r = original r) (hm : Moves w f .identity moved w') :
    Done original w' ∨ (f.read .identity = true ∧ w' = w) ∨
      ∃ left, f.write .identity = some left ∧ (left = none → Pending original w') := by
  have hrec : ∀ r ∈ World.records, w'.localDir r = original r := fun r hr =>
    (hm.other (by rintro rfl; exact absurd hr (by decide))).2.trans (hall r hr)
  have hg : w'.localDir .grace = none := (hm.other (by decide)).2.trans h.grace
  have hdone : w'.localDir .identity = original .identity → Done original w' := fun he =>
    done_of_records hgrace hrec he hg (hm.loads.trans h.loads)
  have horig : ∀ {bytes}, w.roaming .identity = some bytes → some bytes = original .identity :=
    fun hr => hr.symm.trans h.identity
  cases hm with
  | absent hr =>
    rw [h.identity] at hr
    exact absurd hr hid
  | unread bytes hr hread => exact .inr (.inl ⟨hread, rfl⟩)
  | unwritten bytes hr left hwrite =>
    refine .inr (.inr ⟨left, hwrite, ?_⟩)
    rintro rfl
    exact
      { identity := h.identity
        no_identity := Function.update_self Record.identity none w.localDir
        safe := fun r hr' => (h.safe r hr').other (.unwritten bytes hr none hwrite) (by
          rintro rfl
          exact absurd hr' (by decide))
        grace := hg
        loads := h.loads }
  | unverified bytes hr | copied bytes hr | moved bytes hr =>
    exact .inl (hdone ((Function.update_self Record.identity (some bytes) w.localDir).trans (horig hr)))

theorem Pending.due (h : Pending original w) (hid : original .identity ≠ none) : w.due = true := by
  unfold World.due
  rw [h.identity, h.no_identity]
  simpa [Option.isSome_iff_ne_none] using hid

/-- After the migration it is done, or has still to be done. -/
theorem Pending.migrate (h : Pending original w) (hgrace : original .grace = none)
    (hid : original .identity ≠ none) (hleft : ∀ left ∈ f.write .identity, left = none) :
    Pending original (w.migrateCredentialsOffRoaming f) ∨
      Done original (w.migrateCredentialsOffRoaming f) := by
  unfold World.migrateCredentialsOffRoaming
  rw [h.due hid]
  split
  · exact .inl h
  · dsimp only
    split
    · rename_i hall
      have hrec := moveRecords_all (by decide) h.safe hall
      have hm := moveRecord_moves (World.moveRecords f World.records w).2 f .identity
      rcases (h.moveRecords f).moveIdentity hgrace hid hrec hm with hd | ⟨-, he⟩ | ⟨left, hw, hp⟩
      · exact .inr hd
      · rw [he]
        exact .inl (h.moveRecords f)
      · exact .inl (hp (hleft left hw))
    · exact .inl (h.moveRecords f)

/-- Every record is copied, and with them the identity. -/
theorem Pending.migrate_done (h : Pending original w) (hgrace : original .grace = none)
    (hid : original .identity ≠ none) (hc : Copies w f) :
    Done original (w.migrateCredentialsOffRoaming f) := by
  obtain ⟨hprep, hcopy, hread, hwrite⟩ := hc
  have hall : (World.moveRecords f World.records w).1 = true := moveRecords_true (by decide) hcopy
  have hrec := moveRecords_all (by decide) h.safe hall
  have hm := moveRecord_moves (World.moveRecords f World.records w).2 f .identity
  unfold World.migrateCredentialsOffRoaming
  rw [h.due hid, hprep]
  simp only [Bool.not_true, Bool.or_self, Bool.false_eq_true, ite_false, hall, ite_true]
  rcases (h.moveRecords f).moveIdentity hgrace hid hrec hm with hd | ⟨hr, -⟩ | ⟨left, hw, -⟩
  · exact hd
  · rw [hread] at hr
    cases hr
  · rw [hwrite] at hw
    cases hw

theorem Done.load (h : Done original w) (hid : original .identity ≠ none) (create : Bool)
    (generated : Bytes) :
    Done original (w.load create generated) := by
  unfold World.load
  split
  · refine ⟨h.localDir, fun l hl => ?_⟩
    rcases List.mem_append.mp hl with hl | hl
    · exact h.loads l hl
    · rw [List.mem_singleton.mp hl]
      exact h.localDir
  · rename_i hn
    rw [h.localDir] at hn
    exact absurd hn hid

theorem Pending.load (h : Pending original w) (generated : Bytes) : w.load true generated = w := by
  unfold World.load
  rw [h.no_identity]
  rfl

theorem Done.migrate (h : Done original w) (hid : original .identity ≠ none) :
    w.migrateCredentialsOffRoaming f = w := by
  have hdue : w.due = false := by
    unfold World.due
    rw [h.localDir]
    cases horig : original .identity with
    | none => exact absurd horig hid
    | some bytes => simp
  unfold World.migrateCredentialsOffRoaming
  rw [hdue]
  rfl

/-- The migration is still due, or it is done. -/
def Inv (original : Dir) (w : World) : Prop := Pending original w ∨ Done original w

theorem Inv.start (h : Inv original w) (hgrace : original .grace = none)
    (hid : original .identity ≠ none)
    {s : Start} (hm : Meets w s) : Inv original (w.start s) := by
  unfold World.start
  rcases h with h | h
  · rcases hm (h.due hid) with hc | ⟨hcreate, hleft⟩
    · exact .inr ((h.migrate_done hgrace hid hc).load hid _ _)
    · rcases h.migrate hgrace hid hleft with hp | hd
      · rw [hcreate, hp.load]
        exact .inl hp
      · exact .inr (hd.load hid _ _)
  · rw [h.migrate hid]
    exact .inr (h.load hid _ _)

theorem Faultless.copies (h : Faultless f) : Copies w f :=
  ⟨h.1, fun r _ _ => ⟨h.2.1 r, h.2.2.1 r, h.2.2.2.1 r⟩, h.2.1 _, h.2.2.1 _⟩

/-- A start without failures completes the move. -/
theorem Inv.start_faultless (h : Inv original w) (hgrace : original .grace = none)
    (hid : original .identity ≠ none) {s : Start} (hs : Faultless s.faults) :
    Done original (w.start s) := by
  unfold World.start
  rcases h with h | h
  · exact (h.migrate_done hgrace hid hs.copies).load hid _ _
  · rw [h.migrate hid]
    exact h.load hid _ _

theorem Inv.kept (h : Inv original w) : ∀ l ∈ w.loads, Kept original l := by
  intro l hl
  rcases h with h | h
  · rw [h.loads] at hl
    cases hl
  · unfold Kept
    rw [h.loads l hl]
    exact ⟨fun _ => rfl, fun _ => rfl⟩

theorem pending_start (original : Dir) : Pending original { roaming := original } where
  identity := rfl
  no_identity := rfl
  safe := fun _ _ => .inl ⟨rfl, fun _ => rfl⟩
  grace := rfl
  loads := rfl

/-- Where the roaming directory has an identity and no grace record, and every start that has to
migrate copies all records or ends, the host runs only with its records, and a start without
failures has moved them. -/
theorem migration_keeps (original : Dir) (hid : original .identity ≠ none)
    (hgrace : original .grace = none)
    (starts : List Start) (h : Run.Along World.start Meets { roaming := original } starts) :
    let w := Run.run World.start { roaming := original } starts
    (∀ l ∈ w.loads, Kept original l) ∧ ∀ s, Faultless s.faults → (w.start s).localDir = original := by
  have hinv : Inv original (Run.run World.start { roaming := original } starts) :=
    h.induction (I := Inv original) (.inl (pending_start original)) fun _ _ hi hm => hi.start hgrace hid hm
  exact ⟨hinv.kept, fun s hs => (hinv.start_faultless hgrace hid hs).localDir⟩

/-- A directory with an identity, peers and revocations. -/
def profile : Dir
  | .identity => some [1]
  | .peers => some [2]
  | .revocations => some [3]
  | _ => none

/-- A start in which nothing fails. -/
def faultless : Faults := {}

theorem faultless_faultless : Faultless faultless :=
  ⟨rfl, fun _ => rfl, fun _ => rfl, fun _ => rfl, fun _ => rfl, rfl⟩

/-- The revocations cannot be read. -/
def unreadable : Faults := { read := fun r => r = .revocations }

/-- The first start cannot read the revocations nor create an identity, and ends; the second one
completes the move. -/
theorem migration_keeps_retry :
    let w := Run.run World.start { roaming := profile } [⟨{ unreadable with create := true }, [9]⟩]
    w.localDir .peers = some [2] ∧ w.localDir .revocations = none ∧ w.loads.length = 0 ∧
      (w.start ⟨faultless, [9]⟩).localDir = profile := by
  refine ⟨rfl, rfl, rfl, ?_⟩
  refine (migration_keeps profile nofun rfl [⟨{ unreadable with create := true }, [9]⟩] ?_).2 ⟨faultless, [9]⟩
    faultless_faultless
  refine ⟨fun _ => .inr ⟨rfl, ?_⟩, trivial⟩
  rintro left ⟨⟩

/-- One start cannot read the revocations. It has moved the peers, creates another identity and
loads the peers without the revocations; the next start, without failures, leaves it so. And where
no step fails the grace record is not moved. -/
theorem credentials_stranded :
    let w := Run.run World.start { roaming := profile } [⟨unreadable, [9]⟩]
    (∃ l ∈ w.loads, l.roaming .identity = profile .identity ∧ l.loaded .identity = some [9] ∧
      l.loaded .peers = some [2] ∧ l.loaded .revocations = none ∧ ¬ Kept profile l) ∧
    (w.start ⟨faultless, [9]⟩).localDir .identity = some [9] ∧
    (World.start { roaming := Function.update profile .grace (some [4]) } ⟨faultless, [9]⟩).localDir .grace =
      none := by
  refine ⟨⟨_, List.mem_singleton_self _, rfl, rfl, rfl, rfl, fun h => ?_⟩, rfl, rfl⟩
  exact absurd (h.1 rfl) (by decide)

end Portty.Host.Migration
