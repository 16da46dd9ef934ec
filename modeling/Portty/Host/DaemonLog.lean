import Mathlib.Data.List.Basic
import Mathlib.Order.Lattice
import Portty.Lib.Run

/-!
# The log of the background host (`daemon_log.rs`)

The log moves to a second file once it is at its limit, and a new one begins. Any call of the system
can fail, a write can be short, and the host can start again at any time.

* `files_bounded`: the size of both files in every run.
* `newest_lines_kept`: which lines they have, if no call fails.

One process writes the files. Lines, levels and fields are the bytes of a call of `write`.
-/

namespace Portty.Host.DaemonLog

/-- What is written is bytes. -/
abbrev Text := List UInt8

/-- The bound of the host. -/
def maxLogBytes : Nat := 1024 * 1024

/-- The log and the one before it. -/
structure Disk where
  log : Option Text := none
  /-- `portty-host.log.1` -/
  rotated : Option Text := none
  deriving DecidableEq

/-- Whether the file is open, and how long it is taken to be. -/
structure RotatingLog where
  file : Bool
  bytes : Nat
  deriving DecidableEq

/-- What a call of `open_owner_only` comes to. -/
inductive Opened where
  | ok
  | failed
  /-- The file is open, and its mode cannot be set. -/
  | unrestricted
  deriving DecidableEq

/-- What the calls under a `write` come to. -/
structure Faults where
  renamed : Bool := true
  opened : Opened := .ok
  /-- How many bytes the file takes. -/
  written : Option Nat
  deriving DecidableEq

namespace Disk

variable (d : Disk)

/-- The file is opened at its end, or made empty. -/
def openOwnerOnly (append : Bool) : Opened → Disk × Bool
  | .failed => (d, false)
  | .unrestricted => ({ d with log := some (if append then d.log.getD [] else []) }, false)
  | .ok => ({ d with log := some (if append then d.log.getD [] else []) }, true)

/-- The log becomes the one before it, which is lost. -/
def rename : Disk :=
  match d.log with
  | none => d
  | some text => { log := none, rotated := some text }

/-- A host goes on with the log that is there. -/
def openLog (opened : Opened) : Disk × Option RotatingLog :=
  let (d, ok) := d.openOwnerOnly true opened
  (d, if ok then some { file := true, bytes := (d.log.getD []).length } else none)

/-- The log begins anew; without a file nothing is written. -/
def rotate (l : RotatingLog) (faults : Faults) : Disk × RotatingLog × Bool :=
  -- whether the move succeeds does not matter to the host
  let d := if faults.renamed then d.rename else d
  let (d, ok) := d.openOwnerOnly false faults.opened
  (d, if ok then { file := true, bytes := 0 } else { l with file := false }, ok)

/-- One call of `write`, with the bytes that it took. -/
def write (maxBytes : Nat) (l : RotatingLog) (buf : Text) (faults : Faults) :
    Disk × RotatingLog × Option Text :=
  let (d, l, ok) :=
    if !l.file || (0 < l.bytes && maxBytes < l.bytes + buf.length) then d.rotate l faults else (d, l, true)
  if !ok || !l.file then (d, l, none)
  else
    match faults.written with
    | none => (d, l, none)
    | some n =>
      ({ d with log := d.log.map (· ++ buf.take n) }, { l with bytes := l.bytes + (buf.take n).length }, some (buf.take n))

end Disk

/-- The files, the host that writes them, and what it wrote. -/
structure World where
  disk : Disk := {}
  log : Option RotatingLog := none
  /-- What the calls of `write` took. -/
  lines : List Text := []

/-- A host starts, or writes. -/
inductive Event where
  /-- The host starts. -/
  | start (opened : Opened)
  | write (buf : Text) (faults : Faults)

/-- One event. -/
def World.step (maxBytes : Nat) (w : World) : Event → World
  | .start opened =>
    let (disk, log) := w.disk.openLog opened
    { w with disk, log }
  | .write buf faults =>
    match w.log with
    | none => w
    | some l =>
      let (disk, l, taken) := w.disk.write maxBytes l buf faults
      { disk, log := some l, lines := w.lines ++ taken.toList }

/-! ## The size of the files -/

variable {d d' : Disk} {l l' : RotatingLog} {buf : Text} {faults : Faults} {taken : Option Text}
  {w : World} {e : Event}
  {maxBytes limit : Nat}

/-- The bytes of a call. -/
def Event.size : Event → Nat
  | .start _ => 0
  | .write buf _ => buf.length

/-- The longest line. -/
def longest : List Event → Nat
  | [] => 0
  | e :: es => max e.size (longest es)

theorem size_le_longest {events : List Event} (h : e ∈ events) : e.size ≤ longest events := by
  induction events with
  | nil => cases h
  | cons e' es ih =>
    rcases List.mem_cons.mp h with rfl | h
    · exact le_max_left _ _
    · exact Nat.le_trans (ih h) (le_max_right _ _)

/-- Both files are within the limit. -/
structure Disk.Fits (d : Disk) (limit : Nat) : Prop where
  log : (d.log.getD []).length ≤ limit
  rotated : (d.rotated.getD []).length ≤ limit

/-- An open file is counted. -/
def Counted (d : Disk) (l : RotatingLog) : Prop :=
  l.file = true → ∃ text, d.log = some text ∧ l.bytes = text.length

theorem Disk.Fits.rename (h : d.Fits limit) : d.rename.Fits limit := by
  rw [Disk.rename]
  split
  · exact h
  next text hlog =>
    have hle := h.log
    rw [hlog] at hle
    exact ⟨Nat.zero_le _, hle⟩

theorem Disk.Fits.rotate (h : d.Fits limit) (l : RotatingLog) (faults : Faults) :
    (d.rotate l faults).1.Fits limit := by
  have hmoved : Disk.Fits (if faults.renamed then d.rename else d) limit := by
    split
    · exact h.rename
    · exact h
  simp only [Disk.rotate]
  cases faults.opened with
  | failed => exact hmoved
  | unrestricted | ok => exact ⟨Nat.zero_le _, hmoved.rotated⟩

/-- After a rotation that succeeds, the log is a new file. -/
theorem rotate_ok (h : d.rotate l faults = (d', l', true)) :
    faults.opened = .ok ∧ l' = ⟨true, 0⟩ ∧
      d' = { (if faults.renamed then d.rename else d) with log := some [] } := by
  simp only [Disk.rotate] at h
  cases hopened : faults.opened with
  | failed | unrestricted =>
    rw [hopened] at h
    simp [Disk.openOwnerOnly] at h
  | ok =>
    rw [hopened] at h
    simp only [Disk.openOwnerOnly, Prod.mk.injEq] at h
    exact ⟨rfl, h.2.1.symm, h.1.symm⟩

theorem rotate_failed (h : d.rotate l faults = (d', l', false)) : l'.file = false := by
  simp only [Disk.rotate] at h
  cases hopened : faults.opened with
  | failed | unrestricted =>
    rw [hopened] at h
    simp only [Disk.openOwnerOnly, Prod.mk.injEq] at h
    rw [← h.2.1]
    rfl
  | ok =>
    rw [hopened] at h
    simp [Disk.openOwnerOnly] at h

/-- What a call of `write` does: it takes nothing, or it goes on in the file, or in a new one. -/
inductive Wrote (maxBytes : Nat) (d : Disk) (l : RotatingLog) (buf : Text) (faults : Faults) :
    Disk → RotatingLog → Option Text → Prop where
  | refused {d' : Disk} {l' : RotatingLog} (h : d.rotate l faults = (d', l', false)) : Wrote maxBytes d l buf faults d' l' none
  | failed {d' : Disk} {l' : RotatingLog} (h : d' = d ∧ l' = l ∨ d.rotate l faults = (d', l', true))
      (hwritten : faults.written = none) : Wrote maxBytes d l buf faults d' l' none
  | appended {n : Nat} (hopen : l.file = true) (hroom : l.bytes = 0 ∨ l.bytes + buf.length ≤ maxBytes)
      (hwritten : faults.written = some n) :
      Wrote maxBytes d l buf faults { d with log := d.log.map (· ++ buf.take n) }
        ⟨true, l.bytes + (buf.take n).length⟩ (some (buf.take n))
  | rotated {d' : Disk} {l' : RotatingLog} {n : Nat} (hfull : l.file = false ∨ maxBytes < l.bytes + buf.length)
      (h : d.rotate l faults = (d', l', true)) (hwritten : faults.written = some n) :
      Wrote maxBytes d l buf faults { d' with log := some (buf.take n) } ⟨true, (buf.take n).length⟩ (some (buf.take n))

/-- The ways in which a write can go. -/
theorem write_wrote (h : d.write maxBytes l buf faults = (d', l', taken)) :
    Wrote maxBytes d l buf faults d' l' taken := by
  rw [Disk.write] at h
  split at h
  next d₁ l₁ ok hfirst =>
  split at hfirst
  next hfull =>
    cases ok with
    | false =>
      cases h
      exact .refused hfirst
    | true =>
      obtain ⟨-, rfl, hd₁⟩ := rotate_ok hfirst
      cases hwritten : faults.written with
      | none =>
        rw [hwritten] at h
        cases h
        exact .failed (.inr hfirst) hwritten
      | some n =>
        rw [hwritten, hd₁] at h
        cases h
        have hfull : l.file = false ∨ maxBytes < l.bytes + buf.length := by
          rcases Bool.or_eq_true _ _ ▸ hfull with hfile | hfull
          · exact .inl (by simpa using hfile)
          · exact .inr (of_decide_eq_true (Bool.and_eq_true _ _ ▸ hfull).2)
        have hwrote : Wrote maxBytes d l buf faults _ _ _ := .rotated hfull hfirst hwritten
        rw [hd₁] at hwrote
        simpa using hwrote
  next hroom =>
    cases hfirst
    have hopen : l.file = true := by
      cases hfile : l.file with
      | true => rfl
      | false => simp [hfile] at hroom
    have hroom : l.bytes = 0 ∨ l.bytes + buf.length ≤ maxBytes := by
      rw [hopen] at hroom
      simp at hroom
      omega
    cases hwritten : faults.written with
    | none =>
      rw [hwritten, hopen] at h
      cases h
      exact .failed (.inl ⟨rfl, rfl⟩) hwritten
    | some n =>
      rw [hwritten, hopen] at h
      cases h
      exact .appended hopen hroom hwritten

/-- The files are bounded, and the length that is counted is right. -/
structure Bounded (limit : Nat) (w : World) : Prop where
  fits : w.disk.Fits limit
  counted : ∀ l, w.log = some l → Counted w.disk l

/-- The files are bounded, whatever failed. -/
theorem Wrote.bounded (h : Wrote maxBytes d l buf faults d' l' taken) (hfits : d.Fits limit)
    (hcounted : Counted d l)
    (hmax : maxBytes ≤ limit) (hbuf : buf.length ≤ limit) : d'.Fits limit ∧ Counted d' l' := by
  have htake : ∀ n, (buf.take n).length ≤ buf.length := fun n => List.length_take_le' n buf
  cases h with
  | refused hrotate =>
    have hfits' := hfits.rotate l faults
    rw [hrotate] at hfits'
    exact ⟨hfits', fun hfile => by rw [rotate_failed hrotate] at hfile; cases hfile⟩
  | failed hrotate hwritten =>
    rcases hrotate with ⟨rfl, rfl⟩ | hrotate
    · exact ⟨hfits, hcounted⟩
    · have hfits' := hfits.rotate l faults
      rw [hrotate] at hfits'
      obtain ⟨-, rfl, rfl⟩ := rotate_ok hrotate
      exact ⟨hfits', fun _ => ⟨[], rfl, rfl⟩⟩
  | @appended n hopen hroom hwritten =>
    obtain ⟨text, hlog, hbytes⟩ := hcounted hopen
    have hle := htake n
    have hlen : (text ++ buf.take n).length ≤ limit := by
      rw [List.length_append]
      omega
    refine ⟨⟨?_, hfits.rotated⟩, fun _ => ⟨text ++ buf.take n, ?_, ?_⟩⟩
    · simpa [hlog] using hlen
    · simp [hlog]
    · simp [hbytes]
  | @rotated d₁ l₁ n hfull hrotate hwritten =>
    have hfits' := hfits.rotate l faults
    rw [hrotate] at hfits'
    exact ⟨⟨Nat.le_trans (htake n) hbuf, hfits'.rotated⟩, fun _ => ⟨_, rfl, rfl⟩⟩

theorem Bounded.step (h : Bounded limit w) (hmax : maxBytes ≤ limit) (he : e.size ≤ limit) :
    Bounded limit (w.step maxBytes e) := by
  cases e with
  | start opened =>
    cases opened with
    | failed => exact ⟨h.fits, fun l hl => by cases hl⟩
    | unrestricted => exact ⟨⟨h.fits.log, h.fits.rotated⟩, fun l hl => by cases hl⟩
    | ok => exact ⟨⟨h.fits.log, h.fits.rotated⟩, fun l hl _ => ⟨_, rfl, by cases hl; rfl⟩⟩
  | write buf faults =>
    rw [World.step]
    split
    · exact h
    next l hl =>
      cases hwrite : w.disk.write maxBytes l buf faults with
      | mk d' rest =>
        obtain ⟨hfits, hcounted⟩ := (write_wrote hwrite).bounded h.fits (h.counted l hl) hmax he
        exact ⟨hfits, fun l' hl' => by cases hl'; exact hcounted⟩

/-- Each file is at most as long as the limit, or as the longest line if that is longer. -/
theorem files_bounded (maxBytes : Nat) (events : List Event) :
    (Run.run (World.step maxBytes) {} events).disk.Fits (max maxBytes (longest events)) := by
  refine (Run.run_induction (I := fun _ (w : World) => Bounded (max maxBytes (longest events)) w) ?_
    fun pre e post hsplit h => ?_).fits
  · exact ⟨⟨Nat.zero_le _, Nat.zero_le _⟩, fun l hl => by cases hl⟩
  · have hmem : e ∈ events := by simp [hsplit]
    exact h.step (le_max_left _ _) (Nat.le_trans (size_le_longest hmem) (le_max_right _ _))

/-! ## The lines -/

/-- No call fails, and a write takes all. -/
def Event.Calm : Event → Prop
  | .start opened => opened = .ok
  | .write buf faults => faults.renamed = true ∧ faults.opened = .ok ∧ faults.written = some buf.length

instance : DecidablePred Event.Calm
  | .start _ => inferInstanceAs (Decidable (_ = _))
  | .write .. => inferInstanceAs (Decidable (_ ∧ _))

/-- The files have the last lines, all of them or more than the limit. -/
def Kept (maxBytes : Nat) (d : Disk) (lines : List Text) : Prop :=
  ∃ dropped old new, lines = dropped ++ old ++ new ∧ d.rotated.getD [] = old.flatten ∧ d.log.getD [] = new.flatten ∧
    (dropped = [] ∨ maxBytes < (old ++ new).flatten.length)

/-- The files have the newest lines. -/
structure Newest (maxBytes : Nat) (w : World) : Prop where
  kept : Kept maxBytes w.disk w.lines
  opened : ∀ l, w.log = some l → l.file = true ∧ Counted w.disk l

/-- A write without failures keeps the newest lines. -/
theorem Wrote.newest {lines : List Text} (h : Wrote maxBytes d l buf faults d' l' taken)
    (he : (Event.write buf faults).Calm)
    (hopen : l.file = true) (hcounted : Counted d l) (hkept : Kept maxBytes d lines) :
    taken = some buf ∧ Kept maxBytes d' (lines ++ [buf]) ∧ l'.file = true ∧ Counted d' l' := by
  obtain ⟨hrenamed, hok, hwritten⟩ := he
  obtain ⟨text, hlog, hbytes⟩ := hcounted hopen
  obtain ⟨dropped, old, new, hlines, hrotated, hnew, hmany⟩ := hkept
  rw [hlog, Option.getD_some] at hnew
  cases h with
  | refused hrotate => simp [Disk.rotate, hok, Disk.openOwnerOnly] at hrotate
  | failed _ hnone =>
    rw [hwritten] at hnone
    cases hnone
  | appended _ hroom hn =>
    rw [hwritten] at hn
    cases hn
    rw [List.take_length]
    refine ⟨rfl, ⟨dropped, old, new ++ [buf], by simp [hlines], hrotated, by simp [hlog, hnew], ?_⟩, rfl,
      fun _ => ⟨text ++ buf, ?_, ?_⟩⟩
    · exact hmany.imp_right fun hlt => Nat.lt_of_lt_of_le hlt (by simp)
    · simp [hlog]
    · simp [hbytes]
  | rotated hfull hrotate hn =>
    rw [hwritten] at hn
    cases hn
    obtain ⟨-, -, rfl⟩ := rotate_ok hrotate
    have hfull := hfull.resolve_left (by simp [hopen])
    rw [List.take_length, hrenamed, if_pos rfl, Disk.rename, hlog]
    -- what was rotated before is gone, and the log with the new line is more than the limit
    refine ⟨rfl, ⟨dropped ++ old, new, [buf], by simp [hlines], hnew, by simp, .inr ?_⟩, rfl, fun _ => ⟨_, rfl, rfl⟩⟩
    rw [List.flatten_append, List.length_append, ← hnew, ← hbytes]
    simpa using hfull

theorem Newest.step (h : Newest maxBytes w) (he : e.Calm) :
    Newest maxBytes (w.step maxBytes e) := by
  cases e with
  | start opened =>
    obtain rfl : opened = .ok := he
    exact ⟨h.kept, fun l hl => by cases hl; exact ⟨rfl, fun _ => ⟨_, rfl, rfl⟩⟩⟩
  | write buf faults =>
    rw [World.step]
    split
    · exact h
    next l hl =>
      obtain ⟨hopen, hcounted⟩ := h.opened l hl
      cases hwrite : w.disk.write maxBytes l buf faults with
      | mk d' rest =>
        obtain ⟨l', taken⟩ := rest
        obtain ⟨rfl, hkept, hopen', hcounted'⟩ :=
          (write_wrote hwrite).newest he hopen hcounted h.kept
        exact ⟨hkept, fun l'' hl'' => by cases hl''; exact ⟨hopen', hcounted'⟩⟩

/-- If no call fails, the two files have the last lines, each whole: all that were written, or more
than the limit. -/
theorem newest_lines_kept (maxBytes : Nat) (events : List Event) (h : ∀ e ∈ events, e.Calm) :
    Kept maxBytes (Run.run (World.step maxBytes) {} events).disk (Run.run (World.step maxBytes) {} events).lines := by
  refine (Run.run_induction (I := fun _ (w : World) => Newest maxBytes w) ?_ fun pre e post hsplit hw => ?_).kept
  · exact ⟨⟨[], [], [], rfl, rfl, rfl, .inl rfl⟩, fun l hl => by cases hl⟩
  · exact hw.step (h e (by simp [hsplit]))

/-- Three lines, of which the first is dropped, and a restart. -/
def threeLines : List Event :=
  [.start .ok, .write [1, 2, 3] { written := some 3 }, .start .ok, .write [4, 5] { written := some 2 },
    .write [6, 7, 8] { written := some 3 }]

theorem newest_lines_kept_three :
    Kept 4 (Run.run (World.step 4) {} threeLines).disk (Run.run (World.step 4) {} threeLines).lines :=
  newest_lines_kept 4 threeLines (by decide)

example : (Run.run (World.step 4) {} threeLines).disk = ⟨some [6, 7, 8], some [4, 5]⟩ := by decide

end Portty.Host.DaemonLog
