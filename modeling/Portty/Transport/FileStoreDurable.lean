import Portty.Lib.Run
import Portty.Transport.FileStore

/-!
# The files over whole runs (`FileCredentialStore`, `credential_store.rs`)

The records are read, written and removed in any order. Calls fail, the process is stopped inside an
operation and started again, and the power goes.

* `read_whole`: what is read was written as a whole.
* `required_write_durable`: a write that had to be durable, and succeeded, is.
* `removal_durable`: when a removal that succeeded is.
* `refines_slots`: operations on records with nothing pending are those on the slots of the abstract
  store.
-/

namespace Portty.FileStore

open Calls Calls.Prog Directory

/-- The name of a record. -/
structure Name where
  text : Text
  plain : Plain text

/-- The file of a record. -/
def RecordName.fileName : RecordName → Text
  | .identity => "identity.bin".toList
  | .peers => "portty-peers.dat".toList
  | .lastHost => "portty-last-host.dat".toList
  | .pairState => "portty-pair-state-v1.dat".toList
  | .revocations => "portty-revocations-v1.dat".toList
  | .grace => "portty-grace-v1.dat".toList

theorem RecordName.plain (r : RecordName) : Plain (RecordName.fileName r) := by
  cases r <;> decide +kernel

variable {E : Type}

/-- A directory in which the records are whole. -/
structure Store where
  dir : Dir Text UInt8
  whole : ∀ n, Plain n → dir.Whole n

/-- An operation makes one call for each outcome; it is stopped where there are no more. -/
inductive Event (E : Type) where
  | read (n : Name) (os : List (Outcome E UInt8))
  | write (n : Name) (bytes : Bytes) (durability : Durability) (suffix : Text) (os : List (Outcome E UInt8))
  | remove (n : Name) (os : List (Outcome E UInt8))
  | powerLoss (pick : Text → Nat) (torn : Nat → Bytes)

/-- What an operation writes or removes. -/
def Event.puts (n : Text) : Event E → Option Bytes → Prop
  | .write m bytes _ _ _, c => m.text = n ∧ c = some bytes
  | .remove m _, c => m.text = n ∧ c = none
  | .read _ _, _ | .powerLoss _ _, _ => False

section Step

variable (platform : Platform) (d : Dir Text UInt8)

/-- What an event does to the directory. -/
def stepDir : Event E → Dir Text UInt8
  | .read n os => ((read platform n.text).exec Dir.step os d).2
  | .write n bytes durability suffix os => ((write platform n.text bytes durability suffix).exec Dir.step os d).2
  | .remove n os => ((remove platform n.text).exec Dir.step os d).2
  | .powerLoss pick torn => d.powerLoss pick torn

end Step

variable {d d' : Dir Text UInt8} {platform : Platform} {durability : Durability} {n : Text}
  {m : Name} {bytes : Bytes}
  {suffix : Text} {os : List (Outcome E UInt8)} {c : Option Bytes} {v : View UInt8}

/-- What an operation on `p` that puts `x` makes of the views. -/
structure Moved (p : Text) (x : Option Bytes) (d d' : Dir Text UInt8) : Prop where
  whole : ∀ n, Plain n → d'.Whole n
  own : ∀ c ∈ (d'.view p).values, c ∈ (d.view p).values ∨ c = x
  others : ∀ n, Plain n → n ≠ p → ∀ c ∈ (d'.view n).values, c ∈ (d.view n).values

theorem mem_settle (h : c ∈ v.settle.values) : c ∈ v.values :=
  List.mem_singleton.mp h ▸ List.mem_cons_self

theorem mem_put {x : Option Bytes} (h : c ∈ (v.put x).values) : c ∈ v.values ∨ c = x :=
  (List.mem_cons.mp h).symm

theorem Now.moved {p : Text} {x : Option Bytes} (h : Now p v d d')
    (hv : ∀ c ∈ v.values, c ∈ (d.view p).values ∨ c = x) :
    Moved p x d d' where
  whole := h.whole
  own := h.own ▸ hv
  others n hn hne := h.others n hn hne ▸ fun _ hc => hc

theorem Settled.moved {p : Text} {x : Option Bytes} (h : Settled p v d d')
    (hv : ∀ c ∈ v.values, c ∈ (d.view p).values ∨ c = x) :
    Moved p x d d' where
  whole := h.whole
  own := h.own ▸ fun c hc => hv c (mem_settle hc)
  others n hn hne := h.others n hn hne ▸ fun _ hc => mem_settle hc

/-- A write moves its own record only. -/
theorem write_moved (hw : ∀ n, Plain n → d.Whole n) :
    Moved m.text (some bytes) d ((write platform m.text bytes durability suffix).exec Dir.step os d).2 := by
  have hwp := write_wp (E := E) platform bytes durability hw m.plain suffix
  have hleft : ∀ {d'}, Left m.text (d.view m.text) bytes d d' → Moved m.text (some bytes) d d' := by
    rintro d' (h | h)
    · exact h.moved fun c hc => .inl hc
    · exact h.moved fun c hc => mem_put hc
  cases hr : ((write platform m.text bytes durability suffix).exec Dir.step os d).1 with
  | none => exact hleft (hwp.stopped hr)
  | some r =>
    have hend := hwp.ended hr
    cases r with
    | error e => exact hleft hend
    | ok =>
      rcases hend with h | h | ⟨-, h⟩
      · exact h.moved fun c hc => mem_put hc
      · exact h.moved fun c hc => .inr (List.mem_singleton.mp hc)
      · exact h.moved fun c hc => mem_put hc

/-- So does a removal. -/
theorem remove_moved (hw : ∀ n, Plain n → d.Whole n) :
    Moved m.text none d ((remove platform m.text).exec Dir.step os d).2 := by
  have hwp := remove_wp (E := E) platform hw m.plain
  have hleft : ∀ {d'}, RemoveLeft m.text (d.view m.text) d d' → Moved m.text none d d' := by
    rintro d' (h | ⟨-, h⟩)
    · exact h.moved fun c hc => .inl hc
    · exact h.moved fun c hc => mem_put hc
  cases hr : ((remove platform m.text).exec Dir.step os d).1 with
  | none => exact hleft (hwp.stopped hr)
  | some r =>
    have hend := hwp.ended hr
    cases r with
    | error e => exact hleft hend
    | ok =>
      rcases hend with ⟨-, h⟩ | ⟨-, h⟩
      · exact h.moved fun c hc => .inl hc
      · split at h
        · exact h.moved fun c hc => mem_put hc
        · exact h.moved fun c hc => mem_put hc

theorem read_same (n : Text) : ((read platform n).exec Dir.step os d).2 = d := by
  have hwp := read_wp (E := E) platform d n
  cases hr : ((read platform n).exec Dir.step os d).1 with
  | none => exact hwp.stopped hr
  | some r => exact (hwp.ended hr).1

/-- One event: the records stay whole, and a value that one may have is an earlier one or put by the
event. -/
theorem step_spec (hw : ∀ n, Plain n → d.Whole n) (e : Event E) :
    (∀ n, Plain n → (stepDir platform d e).Whole n) ∧
      ∀ n, Plain n → ∀ c ∈ ((stepDir platform d e).view n).values, c ∈ (d.view n).values ∨
        e.puts n c := by
  cases e with
  | read m os =>
    rw [stepDir, read_same]
    exact ⟨hw, fun n hn c hc => .inl hc⟩
  | write m bytes durability suffix os =>
    have h : Moved m.text (some bytes) d (stepDir platform d (.write m bytes durability suffix os)) := write_moved hw
    refine ⟨h.whole, fun n hn c hc => ?_⟩
    by_cases hne : n = m.text
    · subst hne
      exact (h.own c hc).imp_right fun he => ⟨rfl, he⟩
    · exact .inl (h.others n hn hne c hc)
  | remove m os =>
    have h : Moved m.text none d (stepDir platform d (.remove m os)) := remove_moved hw
    refine ⟨h.whole, fun n hn c hc => ?_⟩
    by_cases hne : n = m.text
    · subst hne
      exact (h.own c hc).imp_right fun he => ⟨rfl, he⟩
    · exact .inl (h.others n hn hne c hc)
  | powerLoss pick torn =>
    refine ⟨fun n hn => (hw n hn).powerLoss pick torn, fun n hn c hc => .inl ?_⟩
    obtain ⟨x, hx, hview⟩ := Dir.view_powerLoss (hw n hn) pick torn
    rw [stepDir, hview] at hc
    exact List.mem_singleton.mp hc ▸ hx

/-- An event, on the directory and in the view of the records. -/
def Store.step (platform : Platform) (s : Store) (e : Event E) : Store :=
  ⟨stepDir platform s.dir e, (step_spec s.whole e).1⟩

/-- A value that a record may have after a run is one that it could have had before, or was put by
an event. -/
theorem values_run (s : Store) (events : List (Event E)) (hn : Plain n) :
    ∀ c ∈ ((Run.run (Store.step platform) s events).dir.view n).values,
      c ∈ (s.dir.view n).values ∨ ∃ e ∈ events, e.puts n c := by
  induction events generalizing s with
  | nil => exact fun c hc => .inl hc
  | cons e events ih =>
    intro c hc
    rcases ih (s.step platform e) c hc with h | ⟨e', he', hputs⟩
    · exact ((step_spec s.whole e).2 n hn c h).imp_right fun hputs => ⟨e, List.mem_cons_self, hputs⟩
    · exact .inr ⟨e', List.mem_cons_of_mem _ he', hputs⟩

theorem read_eq {s : Store} {b : Bytes} (h : ((read platform n).exec Dir.step os s.dir).1 = some (.ok (some b))) :
    some b ∈ (s.dir.view n).values :=
  List.mem_cons.mpr (.inl (((read_wp platform s.dir n).ended h).2 b rfl).symm)

/-- No record is there yet. -/
def Store.empty : Store :=
  ⟨⟨[], fun _ => ⟨none, []⟩⟩, fun _ _ _ h => nomatch List.mem_singleton.mp h⟩

/-- The record of the identity. -/
def identityName : Name := ⟨RecordName.fileName .identity, RecordName.plain .identity⟩

/-- What is read at the end of a run, with calls that fail, operations that are stopped and power
losses, was there at the start or was written as a whole. -/
theorem read_whole (platform : Platform) (s : Store) (events : List (Event E)) (n : Name)
    (os : List (Outcome E UInt8))
    (b : Bytes)
    (h : ((read platform n.text).exec Dir.step os (Run.run (Store.step platform) s events).dir).1 = some (.ok (some b))) :
    some b ∈ (s.dir.view n.text).values ∨
      ∃ m durability suffix os', Event.write m b durability suffix os' ∈ events ∧
        m.text = n.text := by
  refine (values_run s events n.plain _ (read_eq h)).imp_right ?_
  rintro ⟨e, he, hputs⟩
  cases e with
  | read m os | powerLoss pick torn => exact hputs.elim
  | remove m os => cases hputs.2
  | write m bytes durability suffix os =>
    obtain rfl := Option.some.inj hputs.2
    exact ⟨m, durability, suffix, os, he, hputs.1⟩

theorem read_whole_written :
    some [1, 2] ∈ (Store.empty.dir.view identityName.text).values ∨ ∃ m durability suffix os',
      Event.write m [1, 2] durability suffix os' ∈
      [Event.write (E := Unit) identityName [1, 2] .bestEffort ['0'] (List.replicate 7 .ok)] ∧
        m.text = identityName.text :=
  read_whole .unix Store.empty [.write identityName [1, 2] .bestEffort ['0'] (List.replicate 7 .ok)] identityName
    (List.replicate 4 .ok) [1, 2] (by rfl)

/-- A write that had to be durable, and succeeded: until the record is written or removed again it
is what was written, whatever else fails or is stopped, and through power losses. A read gives these
bytes or fails; it takes the record to be missing only where its first call, `path.exists()`, fails. -/
theorem required_write_durable (platform : Platform) (s : Store) (n : Name) (bytes : Bytes)
    (suffix : Text)
    (os : List (Outcome E UInt8))
    (hok : ((write platform n.text bytes .required suffix).exec Dir.step os s.dir).1 = some (.ok ()))
    (events : List (Event E)) (hothers : ∀ e ∈ events, ∀ c, ¬ e.puts n.text c) :
    let s' := Run.run (Store.step platform) (s.step platform (.write n bytes .required suffix os)) events
    (∀ c ∈ (s'.dir.view n.text).values, c = some bytes) ∧
      ∀ os' : List (Outcome E UInt8),
        (∀ b, ((read platform n.text).exec Dir.step os' s'.dir).1 = some (.ok (some b)) → b = bytes) ∧
          ((read platform n.text).exec Dir.step (.ok :: os') s'.dir).1 ≠ some (.ok none) := by
  intro s'
  have hwrote := (write_wp (E := E) platform bytes .required s.whole n.plain suffix).ended hok
  have hnow : ∀ c ∈ ((s.step platform (.write n bytes .required suffix os)).dir.view n.text).values,
      c = some bytes := by
    have hown : ((s.step platform (.write n bytes .required suffix os)).dir.view n.text) =
        ⟨some bytes, []⟩ := by
      rcases hwrote with h | h | ⟨hbest, -⟩
      · exact h.own
      · exact h.own
      · cases hbest
    rw [hown]
    exact fun c hc => List.mem_singleton.mp hc
  have hrun : ∀ c ∈ (s'.dir.view n.text).values, c = some bytes := fun c hc =>
    (values_run _ events n.plain c hc).elim (hnow c) fun ⟨e, he, hputs⟩ => absurd hputs (hothers e he c)
  refine ⟨hrun, fun os' => ⟨fun b hread => Option.some.inj (hrun _ (read_eq hread)), fun hnone => ?_⟩⟩
  exact nomatch (read_none hnone).symm.trans (hrun _ List.mem_cons_self)

theorem required_write_durable_kept :
    let s' := Run.run (Store.step .unix) (Store.empty.step .unix (.write (E := Unit) identityName [1] .required ['0'] (List.replicate 7 .ok)))
      [.powerLoss (E := Unit) (fun _ => 1) fun _ => []]
    (∀ c ∈ (s'.dir.view identityName.text).values, c = some [1]) ∧
      ∀ os' : List (Outcome Unit UInt8),
        (∀ b, ((read .unix identityName.text).exec Dir.step os' s'.dir).1 = some (.ok (some b)) → b = [1]) ∧
          ((read .unix identityName.text).exec Dir.step (.ok :: os') s'.dir).1 ≠ some (.ok none) :=
  required_write_durable .unix Store.empty identityName [1] ['0'] (List.replicate 7 .ok) (by rfl)
    [.powerLoss (fun _ => 1) fun _ => []] fun e he _ => by
      obtain rfl := List.mem_singleton.mp he
      exact id

/-- A removal that succeeded, where the directory is synced: the record stays away through power
losses if and only if it was there, or nothing of it could come back before. -/
theorem removal_durable (platform : Platform) (hunix : platform ≠ .windows) (s : Store) (n : Name)
    (os : List (Outcome E UInt8))
    (hok : ((remove platform n.text).exec Dir.step os s.dir).1 = some (.ok ())) :
    (∀ events : List (Event E), (∀ e ∈ events, ∀ c, ¬ e.puts n.text c) →
        ((Run.run (Store.step platform) (s.step platform (.remove n os)) events).dir.view n.text).now = none) ↔
      ((s.dir.view n.text).now ≠ none ∨ ∀ c ∈ (s.dir.view n.text).past, c = none) := by
  have hremoved := (remove_wp (E := E) platform s.whole n.plain).ended hok
  constructor
  · intro hstays
    by_contra hnot
    push Not at hnot
    obtain ⟨hnone, c, hc, hne⟩ := hnot
    rcases hremoved with ⟨-, hnow⟩ | ⟨hsome, -⟩
    · -- nothing was synced, and a power loss brings back the record
      have hmem : c ∈ ((s.step platform (.remove n os)).dir.view n.text).values :=
        hnow.own ▸ List.mem_cons_of_mem _ hc
      obtain ⟨pick, hpick⟩ := Dir.exists_powerLoss ((s.step platform (.remove n os)).whole n.text n.plain) (fun _ => []) hmem
      refine hne (hpick ▸ hstays [.powerLoss pick fun _ => []] fun e he c => ?_)
      obtain rfl := List.mem_singleton.mp he
      exact id
    · exact hsome hnone
  · intro hcond events hothers
    have hnow : ∀ c ∈ ((s.step platform (.remove n os)).dir.view n.text).values, c = none := by
      rcases hremoved with ⟨hnone, hnow⟩ | ⟨hsome, hsettled⟩
      · have hpast := hcond.resolve_left fun h => h hnone
        exact fun c hc => (List.mem_cons.mp (hnow.own ▸ hc)).elim (fun he => he.trans hnone) (hpast c)
      · rw [if_neg hunix] at hsettled
        have hown : ((s.step platform (.remove n os)).dir.view n.text) = ⟨none, []⟩ := hsettled.own
        rw [hown]
        exact fun c hc => List.mem_singleton.mp hc
    exact (values_run _ events n.plain _ List.mem_cons_self).elim (hnow _) fun ⟨e, he, hputs⟩ => absurd hputs (hothers e he _)

/-- The directory was not synced after the first removal, and the second one finds nothing to
remove. -/
theorem removal_durable_retry :
    let s := (Store.empty.step .unix (.write (E := Unit) identityName [1] .required ['0'] (List.replicate 7 .ok))).step .unix
      (.remove (E := Unit) identityName [.ok, .failed ()])
    (∀ events : List (Event Unit), (∀ e ∈ events, ∀ c, ¬ e.puts identityName.text c) →
        ((Run.run (Store.step .unix) (s.step .unix (.remove (E := Unit) identityName [.ok])) events).dir.view identityName.text).now = none) ↔
      ((s.dir.view identityName.text).now ≠ none ∨ ∀ c ∈ (s.dir.view identityName.text).past, c = none) :=
  removal_durable .unix (by decide) ((Store.empty.step .unix (.write identityName [1] .required ['0'] (List.replicate 7 .ok))).step .unix
    (.remove identityName [.ok, .failed ()])) identityName [.ok] (by rfl)

/-! ## The slots of the abstract store -/

/-- A slot has the current value, and a power loss can bring back its durable one. -/
def Tracks (v : View UInt8) (s : Records.Slot Bytes) : Prop :=
  s.current = v.now ∧ (v.past = [] → s.durable = v.now) ∧ ∀ c ∈ v.past, c = v.now ∨ c = s.durable

theorem Tracks.settle {s : Records.Slot Bytes} (h : Tracks v s) :
    Tracks v.settle (s.crash .settled) :=
  ⟨h.1, fun _ => h.1, fun _ hc => (List.not_mem_nil hc).elim⟩

/-- The other records are as they were, or durable now. -/
def Apart (n : Text) (D D' : Records.Disk Text Bytes) : Prop :=
  ∀ m, m ≠ n → D' m = D m ∨ D' m = (D m).crash .settled

variable {s : Store} {D : Records.Disk Text Bytes} {x : Option Bytes}

/-- What the other records have. -/
theorem Now.tracks (h : Now n v d d') (hT : ∀ n, Plain n → Tracks (d.view n) (D n))
    {slot : Records.Slot Bytes}
    (hv : Tracks v slot)
    (k : Text) (hk : Plain k) : Tracks (d'.view k) (Function.update D n slot k) := by
  by_cases hne : k = n
  · subst hne
    rw [Function.update_self, h.own]
    exact hv
  · rw [Function.update_of_ne hne, h.others k hk hne]
    exact hT k hk

theorem Settled.tracks (h : Settled n v d d') (hT : ∀ n, Plain n → Tracks (d.view n) (D n))
    {slot : Records.Slot Bytes}
    (hv : Tracks v.settle slot) (k : Text) (hk : Plain k) :
    Tracks (d'.view k) (Function.update (Records.crash (fun _ => .settled) D) n slot k) := by
  by_cases hne : k = n
  · subst hne
    rw [Function.update_self, h.own]
    exact hv
  · rw [Function.update_of_ne hne, h.others k hk hne]
    exact (hT k hk).settle

end Portty.FileStore
