import Mathlib.Algebra.GroupWithZero.Nat
import Mathlib.Algebra.Order.BigOperators.Group.List
import Mathlib.Data.List.Chain
import Mathlib.Data.List.Nodup
import Mathlib.Logic.Function.Basic
import Mathlib.Tactic.NormNum
import Portty.Lib.Evict
import Portty.Lib.Quote

/-!
# The event logs of agents (`AcpEventLogger`, `session.rs`)

A logger writes the segments of its session in turn. When one is opened or the next one is begun,
closed segments of all sessions are deleted, the oldest first, until what is left and the live
segments at full size fit the ceiling (`prune_acp_event_log_files`).

* `Turns`: the segments of a session, oldest first, are old ones without a record and then ones that
  follow each other.
* `Turns.before_next`: what the next segment overwrites is the oldest.
* `Core`: the disk with the loggers that are live.
* `Core.prune_step`, `Core.prune_ceiling`: pruning keeps the live segments, and the others with them
  fit the ceiling.
* `openSegment_eq_some`: what opening a segment does.

The files are in the order of their modification times: each write gives its file a later time than
any before it. They are the regular files in the directories of sessions with the names of segments.
Every call on them succeeds: opening, metadata, writes, which are whole, and removals.
-/

namespace Portty.Host.EventLog

/-- Texts are lists of characters. -/
abbrev Text := List Char

/-- The most bytes of a segment. -/
def acpEventSegmentBytes : Nat := 4 * 1024 * 1024

/-- A session has segments `00` to `07`, which are written in turn. -/
def acpEventSegments : Nat := 8

/-- The ceiling over all sessions. -/
def acpEventTotalBytes : Nat := 256 * 1024 * 1024

/-! ## Records -/

/-- Who has written a line. -/
inductive LineDirection where
  | stdin
  | stdout
  | stderr
  deriving DecidableEq, Repr

/-- The direction as it is written into a record. -/
def LineDirection.label : LineDirection → Text
  | stdin => "client_to_agent".toList
  | stdout => "agent_to_client".toList
  | stderr => "agent_stderr".toList

/-- A line of an adapter; its length is a `usize`. -/
structure Line where
  text : String
  length_lt : text.utf8ByteSize < 2 ^ 64

/-- The length in UTF-8. -/
def byteLen (text : Text) : Nat := (text.map Char.utf8Size).sum

variable (atUnixMs : Fin (2 ^ 128)) (direction : LineDirection) (line : Line)

/-- The record up to its text. -/
def start : Text :=
  "\x7b\"at_unix_ms\":".toList ++ (Nat.repr atUnixMs).toList ++ ",\"direction\":\"".toList ++ direction.label ++ "\",\"frame\":".toList

/-- The record as JSON. -/
def encoded : Text := start atUnixMs direction ++ Quote.quote line.text ++ "\x7d".toList

/-- The record of a line that is too long. -/
def omitted : Text :=
  start atUnixMs direction ++ "null,\"frame_omitted_bytes\":".toList ++ (Nat.repr line.text.utf8ByteSize).toList ++ "\x7d".toList

/-- What is logged of a line. One that does not fit a segment is replaced by a note of its size. -/
def record : Text :=
  if acpEventSegmentBytes < byteLen (encoded atUnixMs direction line) + 1 then omitted atUnixMs direction line
  else encoded atUnixMs direction line

/-! ## Files -/

/-- A segment of a session. -/
structure Path where
  /-- The directory of the session. -/
  session : String
  name : Text
  deriving DecidableEq

/-- `{segment:02}` -/
def twoDigits (n : Nat) : Text := if n < 10 then '0' :: (Nat.repr n).toList else (Nat.repr n).toList

/-- `events-03.ndjson` -/
def segmentName (segment : Nat) : Text := "events-".toList ++ twoDigits segment ++ ".ndjson".toList

/-- `parse::<u64>` -/
def parseU64 (text : Text) : Option Nat :=
  let digits := if text.head? = some '+' then text.tail else text
  if digits ≠ [] ∧ digits.all (·.isDigit) then
    some (digits.foldl (fun n c => 10 * n + (c.toNat - '0'.toNat)) 0)|>.filter (· < 2 ^ 64)
  else none

/-- The names that pruning takes for segments. -/
def isAcpEventSegment (name : Text) : Bool :=
  (((name.dropPrefix? "events-".toList).bind (·.dropSuffix? ".ndjson".toList)).bind parseU64).any (· < acpEventSegments)

/-- A segment on the disk, with what is known of its content. -/
structure File where
  path : Path
  bytes : Nat
  /-- What this process has written into it. -/
  records : List Text

/-- The file is written, and is the last one now. -/
def put (files : List File) (f : File) : List File := files.filter (·.path ≠ f.path) ++ [f]

/-- The segment that a name is of. -/
def segmentOf (name : Text) : Option Nat :=
  (List.range acpEventSegments).find? (segmentName · = name)

/-- The segments of a session. -/
def owned (session : String) (files : List File) : List File :=
  files.filter fun f => f.path.session = session ∧ (segmentOf f.path.name).isSome

/-- The files and `ACTIVE_ACP_EVENT_LOGS`. -/
structure Disk where
  files : List File
  active : List Path := []

/-- The logger of a session: the segment it is at, and what it holds of the live ones. -/
structure Logger where
  session : String
  segment : Nat
  bytes : Nat
  /-- `file` is open. -/
  file : Bool
  activePath : Option Path

/-- The segment that it is at. -/
def Logger.path (l : Logger) : Path := ⟨l.session, segmentName l.segment⟩

namespace Disk

variable (d : Disk)

/-- A segment is opened at its end, or made empty. -/
def openFile (path : Path) (append : Bool) : List File :=
  if append && d.files.any (·.path = path) then d.files else put d.files ⟨path, 0, []⟩

/-- A segment becomes live, if there is room for one more and nobody else writes it; then the disk
is pruned. -/
def openSegment (l : Logger) (append : Bool) : Option (Disk × Logger) :=
  if l.activePath = none ∧ acpEventTotalBytes / acpEventSegmentBytes ≤ d.active.length then none
  else if l.activePath ≠ some l.path ∧ l.path ∈ d.active then none
  else
    let files := d.openFile l.path append
    let bytes := if append then ((files.find? (·.path = l.path)).map (·.bytes)).getD 0 else 0
    let others := d.active.filter (l.activePath ≠ some ·)
    some (⟨files, if l.path ∈ others then others else others ++ [l.path]⟩,
      { l with bytes, file := true, activePath := some l.path })

/-- `prune_acp_event_log_files` -/
def prune : Disk :=
  let total := (d.files.map (·.bytes)).sum
  let reservedGrowth := ((d.files.filter (·.path ∈ d.active)).map fun f =>
    acpEventSegmentBytes - min f.bytes acpEventSegmentBytes).sum
  { d with files := Evict.evict (·.bytes) (·.path ∈ d.active) (acpEventTotalBytes - reservedGrowth) total d.files }

/-- Whether there was no error. -/
def rotateSegment (l : Logger) : Disk × Logger × Bool :=
  let l := { l with file := false, segment := (l.segment + 1) % acpEventSegments }
  match d.openSegment l false with
  | none => (d, l, false)
  | some (d, l) => (d.prune, l, true)

/-- The segment is live no more. -/
def drop (l : Logger) : Disk := { d with active := d.active.filter (l.activePath ≠ some ·) }

/-- The segment of the session that was modified last. -/
def newestSegment (session : String) : Nat :=
  ((owned session d.files).getLast?.bind fun f => segmentOf f.path.name).getD 0

/-- A logger goes on with the newest segment of its session, or with the next one if that is
full. -/
def newIn (session : String) : Disk × Option Logger :=
  match d.openSegment ⟨session, d.newestSegment session, 0, false, none⟩ true with
  | none => (d, none)
  | some (d, l) =>
    if acpEventSegmentBytes ≤ l.bytes then
      match d.rotateSegment l with
      | (d, l, false) => (d.drop l, none)
      | (d, l, true) => (d.prune, some l)
    else (d.prune, some l)

/-- Writes through the open file; one that was deleted is not in a directory. -/
def append (path : Path) (r : Text) : Disk :=
  match d.files.find? (·.path = path) with
  | some f => { d with files := put d.files { f with bytes := f.bytes + (byteLen r + 1), records := f.records ++ [r] } }
  | none => d

/-- A record that does not fit the segment begins the next one. -/
def writeFrame (l : Logger) (r : Text) : Disk × Logger :=
  let (d, l, ok) :=
    if 0 < l.bytes ∧ acpEventSegmentBytes < l.bytes + (byteLen r + 1) then d.rotateSegment l else (d, l, true)
  if ok && l.file then (d.append l.path r, { l with bytes := l.bytes + (byteLen r + 1) }) else (d, l)

end Disk

/-! ## Loggers of a process -/

/-- The disk and the loggers, with all that they were given. -/
structure World where
  disk : Disk
  /-- A logger that was dropped is `none`. -/
  loggers : List (Option Logger) := []
  /-- The records that the loggers were given, with their sessions. -/
  logged : List (String × Text) := []

/-- What the sessions do. -/
inductive Event where
  | new (session : String)
  | write (j : Nat) (atUnixMs : Fin (2 ^ 128)) (direction : LineDirection) (line : Line)
  | drop (j : Nat)

namespace World

variable (w : World)

/-- A session opens its logger; without room it has none. -/
def new (session : String) : World :=
  match w.disk.newIn session with
  | (disk, some l) => { w with disk, loggers := w.loggers ++ [some l] }
  | (disk, none) => { w with disk }

/-- A record is logged. -/
def write (j : Nat) (l : Logger) (r : Text) : World where
  disk := (w.disk.writeFrame l r).1
  loggers := w.loggers.modify j fun _ => some (w.disk.writeFrame l r).2
  logged := w.logged ++ [(l.session, r)]

/-- One event. -/
def step : World → Event → World
  | w, .new session => w.new session
  | w, .write j atUnixMs direction line =>
    match w.loggers[j]? with
    | some (some l) => w.write j l (record atUnixMs direction line)
    | _ => w
  | w, .drop j =>
    match w.loggers[j]? with
    | some (some l) => { w with disk := w.disk.drop l, loggers := w.loggers.modify j fun _ => none }
    | _ => w

end World

/-! ## Names and sizes -/

variable {d d' : Disk} {files : List File} {f g x : File} {l l' : Logger} {s t : String}
  {live live' : String → Option Logger}
  {name : Text} {i c : Nat} {r : Text}

theorem byteLen_le (text : Text) : byteLen text ≤ 4 * text.length := by
  induction text with
  | nil => exact Nat.le_refl _
  | cons ch text ih =>
    have hch := ch.utf8Size_le_four
    rw [byteLen, List.map_cons, List.sum_cons, List.length_cons]
    rw [byteLen] at ih
    omega

theorem repr_length_le {n k : Nat} (hk : 0 < k) (hn : n < 10 ^ k) :
    (Nat.repr n).toList.length ≤ k := by
  rw [String.length_toList]
  exact (Nat.length_repr_le_iff hk).mpr hn

theorem start_length_le (atUnixMs : Fin (2 ^ 128)) (direction : LineDirection) :
    (start atUnixMs direction).length ≤ 92 := by
  have hat : (Nat.repr atUnixMs).toList.length ≤ 39 :=
    repr_length_le (by decide) (Nat.lt_trans atUnixMs.isLt (by norm_num))
  have hlabel : direction.label.length ≤ 15 := by cases direction <;> decide +kernel
  have hhead : "\x7b\"at_unix_ms\":".toList.length = 14 := by decide +kernel
  have hmiddle : ",\"direction\":\"".toList.length = 14 := by decide +kernel
  have htail : "\",\"frame\":".toList.length = 10 := by decide +kernel
  unfold start
  rw [List.length_append, List.length_append, List.length_append, List.length_append, hhead,
    hmiddle, htail]
  omega

/-- A record fits into a segment. -/
theorem record_le (atUnixMs : Fin (2 ^ 128)) (direction : LineDirection) (line : Line) :
    byteLen (record atUnixMs direction line) + 1 ≤ acpEventSegmentBytes := by
  rw [record]
  split
  · have hstart := start_length_le atUnixMs direction
    have hline : (Nat.repr line.text.utf8ByteSize).toList.length ≤ 20 :=
      repr_length_le (by decide) (Nat.lt_trans line.length_lt (by norm_num))
    have hmiddle : "null,\"frame_omitted_bytes\":".toList.length = 27 := by decide +kernel
    have hend : "\x7d".toList.length = 1 := by decide +kernel
    have hbytes := byteLen_le (omitted atUnixMs direction line)
    rw [omitted, List.length_append, List.length_append, List.length_append, hmiddle,
      hend] at hbytes
    rw [acpEventSegmentBytes, omitted]
    omega
  · omega

theorem segmentOf_segmentName (hi : i < acpEventSegments) : segmentOf (segmentName i) = some i := by
  revert i
  decide

theorem segmentName_isSegment (hi : i < acpEventSegments) :
    isAcpEventSegment (segmentName i) = true := by
  revert i
  decide

theorem segmentOf_eq_some (h : segmentOf name = some i) :
    i < acpEventSegments ∧ segmentName i = name := by
  refine ⟨List.mem_range.mp (List.mem_of_find?_eq_some h), ?_⟩
  simpa using List.find?_some h

theorem next_lt (c : Nat) : (c + 1) % acpEventSegments < acpEventSegments :=
  Nat.mod_lt _ (by decide)

/-! ## Files by the time of their last modification -/

theorem mem_put : x ∈ put files f ↔ x ∈ files ∧ x.path ≠ f.path ∨ x = f := by
  rw [put, List.mem_append, List.mem_filter, List.mem_singleton, decide_eq_true_iff]

theorem nodup_put (h : (files.map (·.path)).Nodup) (f : File) :
    ((put files f).map (·.path)).Nodup := by
  rw [put, List.map_append, List.nodup_append]
  refine ⟨(List.filter_sublist.map _).nodup h, List.nodup_singleton _, ?_⟩
  intro p hp q hq he
  obtain ⟨x, hx, rfl⟩ := List.mem_map.mp hp
  obtain rfl : q = f.path := List.mem_singleton.mp hq
  exact of_decide_eq_true (List.mem_filter.mp hx).2 he

/-- Files with one path are equal. -/
theorem eq_of_path (h : (files.map (·.path)).Nodup) (hf : f ∈ files) (hg : g ∈ files)
    (he : f.path = g.path) : f = g :=
  List.inj_on_of_nodup_map h hf hg he

theorem mem_owned :
    f ∈ owned s files ↔ f ∈ files ∧ f.path.session = s ∧ (segmentOf f.path.name).isSome := by
  rw [owned, List.mem_filter, decide_eq_true_iff]

theorem owned_put_of_ne (h : f.path.session ≠ s) : owned s (put files f) = owned s files := by
  have hf : ¬ (f.path.session = s ∧ (segmentOf f.path.name).isSome) := fun hs => h hs.1
  rw [owned, put, List.filter_append, List.filter_cons_of_neg (by simpa using hf), List.filter_nil,
    List.append_nil, List.filter_filter]
  refine List.filter_congr fun g _ => ?_
  by_cases hg : g.path = f.path
  · have hng : ¬ (g.path.session = s ∧ (segmentOf g.path.name).isSome) := hg ▸ hf
    simp [hng]
  · simp [hg]

theorem owned_put (hs : f.path.session = s) (hi : segmentOf f.path.name = some i) :
    owned s (put files f) = put (owned s files) f := by
  have hf : f.path.session = s ∧ (segmentOf f.path.name).isSome := ⟨hs, by rw [hi]; rfl⟩
  rw [owned, put, put, owned, List.filter_append, List.filter_cons_of_pos (by simpa using hf),
    List.filter_nil, List.filter_filter, List.filter_filter]
  congr 1
  exact List.filter_congr fun g _ => Bool.and_comm _ _

/-! ## The segments of a session -/

/-- The segments of a session, the oldest first: old ones without a record, and then ones that
follow each other. -/
def Turns (segments : List File) : Prop :=
  ∃ old new, segments = old ++ new ∧ (∀ f ∈ old, f.records = []) ∧
    new.IsChain fun f g => ∃ i, segmentOf f.path.name = some i ∧ segmentOf g.path.name = some ((i + 1) % acpEventSegments)

variable {segments segments' init pre post : List File}

/-- The oldest segments are deleted. -/
theorem Turns.suffix (h : Turns segments) (hs : segments' <:+ segments) : Turns segments' := by
  obtain ⟨old, new, rfl, hold, hnew⟩ := h
  obtain ⟨pre, he⟩ := hs
  rcases List.append_eq_append_iff.mp he with ⟨rest, rfl, rfl⟩ | ⟨rest, rfl, rfl⟩
  · exact ⟨rest, new, rfl, fun f hf => hold f (List.mem_append_right _ hf), hnew⟩
  · exact ⟨[], segments', rfl, List.forall_mem_nil _, hnew.right_of_append⟩

/-- The next segment is begun behind the last one. -/
theorem Turns.concat (h : Turns (init ++ [f])) (hf : segmentOf f.path.name = some c)
    (hg : segmentOf g.path.name = some ((c + 1) % acpEventSegments)) :
    Turns (init ++ [f] ++ [g]) := by
  obtain ⟨old, new, he, hold, hnew⟩ := h
  cases new using List.reverseRecOn with
  | nil => exact ⟨init ++ [f], [g], rfl, by rw [he, List.append_nil]; exact hold, List.isChain_singleton _⟩
  | append_singleton new last =>
    rw [← List.append_assoc] at he
    obtain ⟨rfl, hlast⟩ := List.append_inj' he rfl
    obtain rfl := List.singleton_inj.mp hlast
    refine ⟨old, new ++ [f] ++ [g], by simp only [List.append_assoc], hold,
      List.isChain_append.mpr ⟨hnew, List.isChain_singleton _, ?_⟩⟩
    intro x hx y hy
    rw [List.getLast?_concat] at hx
    obtain rfl := Option.some.inj hx
    obtain rfl := Option.some.inj hy
    exact ⟨c, hf, hg⟩

/-- The last segment gets a record. -/
theorem Turns.write (h : Turns (init ++ [f])) (hg : g.path = f.path) : Turns (init ++ [g]) := by
  obtain ⟨old, new, he, hold, hnew⟩ := h
  cases new using List.reverseRecOn with
  | nil =>
    rw [List.append_nil] at he
    exact ⟨init, [g], rfl, fun x hx => hold x (he ▸ List.mem_append_left _ hx), List.isChain_singleton _⟩
  | append_singleton new last =>
    rw [← List.append_assoc] at he
    obtain ⟨rfl, hlast⟩ := List.append_inj' he rfl
    obtain rfl := List.singleton_inj.mp hlast
    refine ⟨old, new ++ [g], by simp only [List.append_assoc], hold, ?_⟩
    obtain ⟨hchain, -, hjoin⟩ := List.isChain_append.mp hnew
    refine List.isChain_append.mpr ⟨hchain, List.isChain_singleton _, fun x hx y hy => ?_⟩
    obtain rfl := Option.some.inj hy
    rw [hg]
    exact hjoin x hx f rfl

/-- What is before the segment that is overwritten next has no records, and it can be taken away. -/
theorem Turns.before_next (h : Turns segments) (hnodup : (segments.map (·.path)).Nodup)
    (hsession : ∀ x ∈ segments, x.path.session = s) (hlast : segments = init ++ [f])
    (hf : segmentOf f.path.name = some c)
    (hg : segmentOf g.path.name = some ((c + 1) % acpEventSegments))
    (hsplit : segments = pre ++ g :: post) :
    (∀ x ∈ pre, x.records = []) ∧ Turns (pre ++ post) := by
  obtain ⟨old, new, he, hold, hnew⟩ := h
  rcases List.append_eq_append_iff.mp (hsplit.symm.trans he) with ⟨rest, rfl, hpost⟩ | ⟨before, rfl, hafter⟩
  · cases rest with
    | nil =>
      obtain rfl : g :: post = new := hpost
      have hchain := hnew.tail
      exact ⟨fun x hx => hold x (List.mem_append_left _ hx), pre, post, rfl,
        fun x hx => hold x (List.mem_append_left _ hx), hchain⟩
    | cons y rest =>
      obtain ⟨rfl, rfl⟩ := List.cons.inj hpost
      refine ⟨fun x hx => hold x (List.mem_append_left _ hx), pre ++ rest, new, (List.append_assoc ..).symm,
        fun x hx => ?_, hnew⟩
      rcases List.mem_append.mp hx with hx | hx
      · exact hold x (List.mem_append_left _ hx)
      · exact hold x (List.mem_append_right _ (List.mem_cons_of_mem _ hx))
  · cases before using List.reverseRecOn with
    | nil =>
      obtain rfl : new = g :: post := hafter
      have hchain := hnew.tail
      rw [List.append_nil]
      exact ⟨hold, old, post, rfl, hold, hchain⟩
    | append_singleton before p =>
      -- the one before it would have the number of the last one
      exfalso
      obtain ⟨i, hp, hnext⟩ :=
        (List.isChain_append.mp (hafter ▸ hnew)).2.2 p (List.getLast?_concat ..) g rfl
      have hcy : (c + 1) % acpEventSegments = (i + 1) % acpEventSegments :=
        Option.some.inj (hg.symm.trans hnext)
      obtain ⟨hi, hpname⟩ := segmentOf_eq_some hp
      obtain ⟨hc, hfname⟩ := segmentOf_eq_some hf
      have hic : i = c := by
        rw [acpEventSegments] at hi hc hcy
        omega
      have hmem : f ∈ g :: post := by
        have hend := congrArg List.getLast? (hsplit.symm.trans hlast)
        rw [List.getLast?_concat, List.getLast?_append_of_ne_nil _ (List.cons_ne_nil _ _)] at hend
        exact List.mem_of_getLast? hend
      have hp : p ∈ old ++ (before ++ [p]) :=
        List.mem_append_right _ (List.mem_append_right _ (List.mem_singleton.mpr rfl))
      have hpath : p.path = f.path := by
        have hps := hsession p (hsplit ▸ List.mem_append_left _ hp)
        have hfs := hsession f (hsplit ▸ List.mem_append_right _ hmem)
        rw [show p.path = ⟨p.path.session, p.path.name⟩ from rfl, hps, ← hpname, hic, hfname, ← hfs]
      rw [hsplit, List.map_append] at hnodup
      exact List.disjoint_of_nodup_append hnodup (List.mem_map_of_mem hp) (hpath ▸ List.mem_map_of_mem hmem)

/-! ## The disk -/

/-- What the files of all sessions have. -/
structure Files (files : List File) : Prop where
  nodup : (files.map (·.path)).Nodup
  segment : ∀ f ∈ files, isAcpEventSegment f.path.name = true
  le : ∀ f ∈ files, f.bytes ≤ acpEventSegmentBytes
  plain : ∀ f ∈ files, segmentOf f.path.name = none → f.records = []
  turns : ∀ s, Turns (owned s files)

/-- The logger writes the last segment of its session. -/
structure LiveIn (files : List File) (s : String) (l : Logger) : Prop where
  session : l.session = s
  file : l.file = true
  activePath : l.activePath = some l.path
  lt : l.segment < acpEventSegments
  last : ∃ init f, owned s files = init ++ [f] ∧ f.path = l.path ∧ f.bytes = l.bytes

/-- The disk with the live loggers, by session. -/
structure Core (d : Disk) (live : String → Option Logger) : Prop where
  files : Files d.files
  cap : d.active.length ≤ acpEventTotalBytes / acpEventSegmentBytes
  active : ∀ p, p ∈ d.active ↔ ∃ l, live p.session = some l ∧ l.path = p
  live : ∀ s l, live s = some l → LiveIn d.files s l

/-- The records that a session has, the oldest first. -/
def remaining (s : String) (files : List File) : List Text :=
  (files.filter (·.path.session = s)).flatMap (·.records)

/-- Files without records can be left out. -/
theorem flatMap_filter {p q : File → Bool}
    (h : ∀ f ∈ files, p f = true → q f = false → f.records = []) :
    (files.filter p).flatMap (·.records) =
      (files.filter fun f => p f && q f).flatMap (·.records) := by
  induction files with
  | nil => rfl
  | cons f files ih =>
    have ih := ih fun g hg => h g (List.mem_cons_of_mem _ hg)
    cases hp : p f with
    | false => rw [List.filter_cons_of_neg (by simp [hp]), List.filter_cons_of_neg (by simp [hp]), ih]
    | true =>
      cases hq : q f with
      | false =>
        rw [List.filter_cons_of_pos hp, List.filter_cons_of_neg (by simp [hq]), List.flatMap_cons,
          h f (List.mem_cons_self ..) hp hq, List.nil_append, ih]
      | true => rw [List.filter_cons_of_pos hp,
        List.filter_cons_of_pos (by simp [hp, hq]), List.flatMap_cons, List.flatMap_cons, ih]

theorem Files.remaining_eq (h : Files files) (s : String) :
    remaining s files = (owned s files).flatMap (·.records) := by
  rw [remaining, flatMap_filter (q := fun f => (segmentOf f.path.name).isSome) fun f hf _ hq =>
    h.plain f hf (by simpa using hq)]
  simp only [owned, Bool.decide_and, Bool.decide_eq_true]

theorem Files.owned_nodup (h : Files files) (s : String) : ((owned s files).map (·.path)).Nodup :=
  (List.filter_sublist.map _).nodup h.nodup

theorem owned_session : ∀ f ∈ owned s files, f.path.session = s := fun _ hf => (mem_owned.mp hf).2.1

theorem LiveIn.index (h : LiveIn files s l) (hf : f.path = l.path) :
    segmentOf f.path.name = some l.segment :=
  hf ▸ segmentOf_segmentName h.lt

/-- The file of a live logger. -/
theorem LiveIn.exists_file (h : LiveIn files s l) :
    ∃ f ∈ files, f.path = l.path ∧ f.bytes = l.bytes := by
  obtain ⟨init, f, ho, hp, hb⟩ := h.last
  have hf : f ∈ owned s files := ho ▸ List.mem_append_right _ (List.mem_singleton.mpr rfl)
  exact ⟨f, (mem_owned.mp hf).1, hp, hb⟩

theorem LiveIn.put_of_ne (h : LiveIn files t l) (hne : f.path.session ≠ t) :
    LiveIn (put files f) t l where
  session := h.session
  file := h.file
  activePath := h.activePath
  lt := h.lt
  last := by
    rw [owned_put_of_ne hne]
    exact h.last

/-- A file of a session is written. -/
theorem Files.put (h : Files files) (hs : f.path.session = s) (hi : segmentOf f.path.name = some i)
    (hle : f.bytes ≤ acpEventSegmentBytes) (hturns : Turns (put (owned s files) f)) :
    Files (put files f) where
  nodup := nodup_put h.nodup f
  segment x hx := by
    rcases mem_put.mp hx with ⟨hx, -⟩ | rfl
    · exact h.segment x hx
    · obtain ⟨hlt, he⟩ := segmentOf_eq_some hi
      exact he ▸ segmentName_isSegment hlt
  le x hx := by
    rcases mem_put.mp hx with ⟨hx, -⟩ | rfl
    · exact h.le x hx
    · exact hle
  plain x hx hnone := by
    rcases mem_put.mp hx with ⟨hx, -⟩ | rfl
    · exact h.plain x hx hnone
    · rw [hi] at hnone
      cases hnone
  turns t := by
    by_cases ht : f.path.session = t
    · obtain rfl := hs.symm.trans ht
      rw [owned_put hs hi]
      exact hturns
    · rw [owned_put_of_ne ht]
      exact h.turns t

theorem remaining_put_of_ne (h : f.path.session ≠ t) :
    remaining t (put files f) = remaining t files := by
  rw [remaining, remaining, EventLog.put, List.filter_append,
    List.filter_cons_of_neg (by simpa using h), List.filter_nil, List.append_nil,
    List.filter_filter]
  congr 1
  refine List.filter_congr fun g _ => ?_
  by_cases hg : g.path = f.path
  · simp [hg, h]
  · simp [hg]

/-- What the logger of session `s` does: other sessions keep their live loggers and those their
files, and records are lost only from the oldest on. -/
structure Step (s : String) (d : Disk) (live : String → Option Logger) (d' : Disk) (live' : String → Option Logger) : Prop where
  core : Core d' live'
  others : ∀ t, t ≠ s → live' t = live t
  spares : ∀ t, t ≠ s → ∀ l, live t = some l → ∀ f ∈ d.files, f.path = l.path → f ∈ d'.files
  keeps : ∀ t, remaining t d'.files <:+ remaining t d.files

theorem Step.trans {d'' : Disk} {live'' : String → Option Logger} (h : Step s d live d' live')
    (h' : Step s d' live' d'' live'') :
    Step s d live d'' live'' where
  core := h'.core
  others t ht := (h'.others t ht).trans (h.others t ht)
  spares t ht l hl f hf hp := h'.spares t ht l ((h.others t ht).trans hl) f (h.spares t ht l hl f hf hp) hp
  keeps t := (h'.keeps t).trans (h.keeps t)

/-! ## Pruning -/

theorem Core.live_of_active (h : Core d live) (hf : f.path ∈ d.active) :
    ∃ l, LiveIn d.files f.path.session l ∧ l.path = f.path := by
  obtain ⟨l, hl, hp⟩ := (h.active f.path).mp hf
  exact ⟨l, h.live _ l hl, hp⟩

/-- Of the segments of a session only the last one can be live. -/
theorem Core.owned_prune_suffix (h : Core d live) (s : String) :
    owned s d.prune.files <:+ owned s d.files := by
  refine Evict.filter_evict_suffix fun pre x post hsplit hk => ?_
  have hsplit : owned s d.files = pre ++ x :: post := hsplit
  have hx : x ∈ owned s d.files := hsplit ▸ List.mem_append_right _ (List.mem_cons_self ..)
  obtain ⟨l, hlive, hp⟩ := h.live_of_active (of_decide_eq_true hk)
  rw [(mem_owned.mp hx).2.1] at hlive
  obtain ⟨init, f, ho, hf, -⟩ := hlive.last
  have hmem : f ∈ owned s d.files := ho ▸ List.mem_append_right _ (List.mem_singleton.mpr rfl)
  obtain rfl := eq_of_path (h.files.owned_nodup s) hx hmem (hp.symm.trans hf.symm)
  by_contra hne
  have hlast := congrArg List.getLast? (hsplit.symm.trans ho)
  rw [List.getLast?_concat, List.getLast?_append_of_ne_nil _ (List.cons_ne_nil _ _),
    List.getLast?_cons_of_ne_nil hne] at hlast
  have hnodup := h.files.owned_nodup s
  rw [hsplit, List.map_append, List.map_cons] at hnodup
  exact (List.nodup_cons.mp (List.nodup_append.mp hnodup).2.1).1 (List.mem_map_of_mem (List.mem_of_getLast? hlast))

theorem prune_sublist (d : Disk) : d.prune.files.Sublist d.files := Evict.evict_sublist _ _ _ _ _

theorem mem_prune_of_active (hf : f ∈ d.files) (ha : f.path ∈ d.active) : f ∈ d.prune.files := by
  have hmem : f ∈ d.files.filter (·.path ∈ d.active) := List.mem_filter.mpr ⟨hf, decide_eq_true ha⟩
  rw [← Evict.filter_evict_kept (·.bytes)] at hmem
  exact (List.mem_filter.mp hmem).1

/-- Pruning takes whole segments, the oldest first. -/
theorem Core.prune_step (h : Core d live) (s : String) : Step s d live d.prune live := by
  have hfiles : Files d.prune.files :=
    { nodup := ((prune_sublist d).map _).nodup h.files.nodup
      segment := fun f hf => h.files.segment f ((prune_sublist d).subset hf)
      le := fun f hf => h.files.le f ((prune_sublist d).subset hf)
      plain := fun f hf => h.files.plain f ((prune_sublist d).subset hf)
      turns := fun t => (h.files.turns t).suffix (h.owned_prune_suffix t) }
  refine ⟨⟨hfiles, h.cap, h.active, fun t l hl => ?_⟩, fun _ _ => rfl, fun t _ l hl f hf hp => ?_, fun t => ?_⟩
  · have hlive := h.live t l hl
    refine ⟨hlive.session, hlive.file, hlive.activePath, hlive.lt, ?_⟩
    obtain ⟨init, f, ho, hp, hb⟩ := hlive.last
    have hmem : f ∈ owned t d.files := ho ▸ List.mem_append_right _ (List.mem_singleton.mpr rfl)
    obtain ⟨hf, hs, hi⟩ := mem_owned.mp hmem
    have hactive : f.path ∈ d.active := (h.active f.path).mpr ⟨l, hs ▸ hl, hp.symm⟩
    have hkept : f ∈ owned t d.prune.files := mem_owned.mpr ⟨mem_prune_of_active hf hactive, hs, hi⟩
    obtain ⟨pre, he⟩ := h.owned_prune_suffix t
    obtain ⟨init', last, he'⟩ := (List.eq_nil_or_concat _).resolve_left (List.ne_nil_of_mem hkept)
    rw [List.concat_eq_append] at he'
    rw [he', ho, ← List.append_assoc] at he
    obtain ⟨-, hlast⟩ := List.append_inj' he rfl
    obtain rfl := List.singleton_inj.mp hlast
    exact ⟨init', last, he', hp, hb⟩
  · have hlive := h.live t l hl
    have hs : f.path.session = t := by rw [hp]; exact hlive.session
    exact mem_prune_of_active hf ((h.active f.path).mpr ⟨l, hs ▸ hl, hp.symm⟩)
  · rw [hfiles.remaining_eq, h.files.remaining_eq]
    obtain ⟨pre, he⟩ := h.owned_prune_suffix t
    rw [← he, List.flatMap_append]
    exact List.suffix_append _ _

/-! ## The ceiling -/

/-- A live segment counts at its full size. -/
def full (active : List Path) (f : File) : Nat :=
  if f.path ∈ active then acpEventSegmentBytes else f.bytes

/-- The segments that are open, as if they were full. -/
theorem sum_full {active : List Path} (hle : ∀ f ∈ files, f.bytes ≤ acpEventSegmentBytes) :
    (files.map (full active)).sum = (files.map (·.bytes)).sum +
      ((files.filter (·.path ∈ active)).map fun f => acpEventSegmentBytes - min f.bytes acpEventSegmentBytes).sum := by
  induction files with
  | nil => rfl
  | cons f files ih =>
    have ih := ih fun g hg => hle g (List.mem_cons_of_mem _ hg)
    have hf := hle f (List.mem_cons_self ..)
    by_cases ha : f.path ∈ active
    · rw [List.filter_cons_of_pos (by simpa using ha)]
      simp only [List.map_cons, List.sum_cons, ih, full, if_pos ha, Nat.min_eq_left hf]
      omega
    · rw [List.filter_cons_of_neg (by simpa using ha)]
      simp only [List.map_cons, List.sum_cons, ih, full, if_neg ha]
      omega

theorem length_active_le {active : List Path} (h : (files.map (·.path)).Nodup)
    (hall : ∀ f ∈ files, f.path ∈ active) :
    files.length ≤ active.length := by
  have hsub : files.map (·.path) ⊆ active := by
    intro p hp
    obtain ⟨f, hf, rfl⟩ := List.mem_map.mp hp
    exact hall f hf
  have hle := (List.subperm_of_subset h hsub).length_le
  rwa [List.length_map] at hle

theorem sum_le_length {g : File → Nat} {n : Nat} (h : ∀ f ∈ files, g f ≤ n) :
    (files.map g).sum ≤ files.length * n := by
  induction files with
  | nil => exact Nat.zero_le _
  | cons f files ih =>
    have hf := h f (List.mem_cons_self ..)
    have ih := ih fun x hx => h x (List.mem_cons_of_mem _ hx)
    rw [List.map_cons, List.sum_cons, List.length_cons, Nat.add_mul, Nat.one_mul]
    omega

/-- After pruning all segments would be within the ceiling, the open ones full. -/
theorem Core.prune_ceiling (h : Core d live) :
    (d.prune.files.map (full d.active)).sum ≤ acpEventTotalBytes := by
  have htotal : (acpEventTotalBytes / acpEventSegmentBytes) * acpEventSegmentBytes = acpEventTotalBytes := by decide
  have hsegments : ∀ {fs : List File}, fs.length ≤ d.active.length →
      fs.length * acpEventSegmentBytes ≤ acpEventTotalBytes :=
    fun hle => htotal ▸ Nat.mul_le_mul_right _ (Nat.le_trans hle h.cap)
  have hkept : d.prune.files.filter (·.path ∈ d.active) = d.files.filter (·.path ∈ d.active) :=
    Evict.filter_evict_kept _ _ _ _ _
  have hle : ∀ f ∈ d.prune.files, f.bytes ≤ acpEventSegmentBytes :=
    fun f hf => h.files.le f ((prune_sublist d).subset hf)
  have hfits := Evict.evict_fits File.bytes (fun f => f.path ∈ d.active)
    (acpEventTotalBytes - ((d.files.filter (·.path ∈ d.active)).map fun f =>
      acpEventSegmentBytes - min f.bytes acpEventSegmentBytes).sum) 0 (d.files.map File.bytes).sum (Nat.zero_add _).symm
  rcases hfits with hfits | hall
  · have hreserved : ((d.files.filter (·.path ∈ d.active)).map fun f =>
        acpEventSegmentBytes - min f.bytes acpEventSegmentBytes).sum ≤ _ := sum_le_length fun f _ => Nat.sub_le _ _
    have hall : ∀ f ∈ d.files.filter (·.path ∈ d.active), f.path ∈ d.active := fun f hf => by
      simpa using (List.mem_filter.mp hf).2
    have hactive :=
      hsegments (length_active_le ((List.filter_sublist.map _).nodup h.files.nodup) hall)
    rw [sum_full hle, hkept]
    rw [Nat.zero_add] at hfits
    have hfits : (d.prune.files.map (·.bytes)).sum ≤ _ := hfits
    omega
  · have hall : ∀ f ∈ d.prune.files, f.path ∈ d.active := fun f hf => of_decide_eq_true (hall f hf)
    refine Nat.le_trans (sum_le_length (n := acpEventSegmentBytes) fun f hf => ?_)
      (hsegments (length_active_le (((prune_sublist d).map _).nodup h.files.nodup) hall))
    rw [full, if_pos (hall f hf)]

/-! ## Opening a segment -/

/-- A logger has opened a segment. -/
structure Opened (d : Disk) (l : Logger) (append : Bool) (d' : Disk) (l' : Logger) : Prop where
  room : l.activePath = none → d.active.length < acpEventTotalBytes / acpEventSegmentBytes
  free : l.activePath = some l.path ∨ l.path ∉ d.active
  files : d'.files = d.openFile l.path append
  session : l'.session = l.session
  segment : l'.segment = l.segment
  bytes : l'.bytes = if append then ((d'.files.find? (·.path = l.path)).map (·.bytes)).getD 0 else 0
  file : l'.file = true
  activePath : l'.activePath = some l.path
  active : ∀ p, p ∈ d'.active ↔ p = l.path ∨ p ∈ d.active ∧ l.activePath ≠ some p
  length_le : d'.active.length ≤ (d.active.filter (l.activePath ≠ some ·)).length + 1

theorem Opened.path {append : Bool} (h : Opened d l append d' l') : l'.path = l.path := by
  rw [Logger.path, Logger.path, h.session, h.segment]

/-- What opening a segment leaves. -/
theorem openSegment_eq_some {append : Bool} (h : d.openSegment l append = some (d', l')) :
    Opened d l append d' l' := by
  unfold Disk.openSegment at h
  split at h
  · cases h
  next hcap =>
  split at h
  · cases h
  next hbusy =>
  obtain ⟨rfl, rfl⟩ := Prod.mk.inj (Option.some.inj h)
  have hmem : ∀ p, p ∈ d.active.filter (l.activePath ≠ some ·) ↔ p ∈ d.active ∧
      l.activePath ≠ some p := fun p => by
    rw [List.mem_filter, decide_eq_true_iff]
  refine ⟨fun hnone => Nat.lt_of_not_le fun hle => hcap ⟨hnone, hle⟩, ?_, rfl, rfl, rfl, rfl, rfl, rfl, fun p => ?_, ?_⟩
  · by_contra hnot
    push Not at hnot
    exact hbusy ⟨hnot.1, hnot.2⟩
  · dsimp only
    split_ifs with hin
    · rw [hmem]
      refine ⟨.inr, ?_⟩
      rintro (rfl | hp)
      · exact (hmem _).mp hin
      · exact hp
    · rw [List.mem_append, List.mem_singleton, hmem, or_comm]
  · dsimp only
    split_ifs
    · exact Nat.le_succ _
    · exact Nat.le_of_eq (List.length_append ..)

theorem find_path (h : (files.map (·.path)).Nodup) (hf : f ∈ files) :
    files.find? (·.path = f.path) = some f := by
  cases hfind : files.find? (·.path = f.path) with
  | none => exact absurd (List.find?_eq_none.mp hfind f hf) (by simp)
  | some g =>
    have hp : g.path = f.path := by simpa using List.find?_some hfind
    rw [eq_of_path h (List.mem_of_find?_eq_some hfind) hf hp]

/-- The other live loggers after the logger of `s` has written one of its files. -/
theorem Core.live_put (h : Core d live) (hs : f.path.session = s) {x : Option Logger}
    (hx : ∀ l, x = some l → LiveIn (put d.files f) s l) (t : String) (l : Logger)
    (hl : Function.update live s x t = some l) : LiveIn (put d.files f) t l := by
  by_cases ht : t = s
  · subst ht
    rw [Function.update_self] at hl
    exact hx l hl
  · rw [Function.update_of_ne ht] at hl
    exact (h.live t l hl).put_of_ne fun he => ht (he.symm.trans hs)

/-- Which paths are live when the logger of `s` has opened one. -/
theorem Core.active_open {append : Bool} (h : Core d live) (ho : Opened d l append d' l')
    (hs : l.session = s)
    (hold : ∀ l₀, live s = some l₀ → l.activePath = some l₀.path)
    (hprev : ∀ p, l.activePath = some p → p.session = s)
    (p : Path) :
    p ∈ d'.active ↔ ∃ l₁, Function.update live s (some l') p.session = some l₁ ∧ l₁.path = p := by
  rw [ho.active]
  by_cases hp : p.session = s
  · rw [hp, Function.update_self]
    constructor
    · rintro (rfl | ⟨hmem, hne⟩)
      · exact ⟨l', rfl, ho.path⟩
      · obtain ⟨l₀, hl₀, rfl⟩ := (h.active p).mp hmem
        exact absurd (hold l₀ (hp ▸ hl₀)) hne
    · rintro ⟨l₁, hl₁, rfl⟩
      obtain rfl := Option.some.inj hl₁
      exact .inl ho.path
  · rw [Function.update_of_ne hp, ← h.active p]
    constructor
    · rintro (rfl | ⟨hmem, -⟩)
      · exact absurd hs hp
      · exact hmem
    · exact fun hmem => .inr ⟨hmem, fun he => hp (hprev p he)⟩

end Portty.Host.EventLog
