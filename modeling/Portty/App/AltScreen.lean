import Mathlib.Data.List.Basic
import Portty.Lib.Run
import Portty.Transport.Types

/-!
# The alternate screen (`AltScreenScanner`, `altscreen.ts`)

* `Scanner.step`: one byte, and the switch that it completes.
* `Scanner.scan`: a chunk, cut behind each switch.
* `go_eq`: the segments of a chunk are its bytes, and their switches are those of the steps.
* `alt_screen_chunks`: how the stream is cut into chunks makes no difference.
-/

namespace Portty.AltScreen

/-- ground · saw ESC · saw ESC[ · in ESC[? params · saw ESC[! -/
inductive Dfa where
  | ground
  | esc
  | bracket
  | params
  | bang
  deriving DecidableEq

/-- How far the scanner is, and what it has seen. -/
structure Scanner where
  state : Dfa := .ground
  params : List Char := []
  alt : Bool := false
  appCursor : Bool := false
  mouse : List (List Char) := []
  deriving DecidableEq

/-- Bytes, and the switch before them. -/
structure AltSegment where
  bytes : Bytes
  alt : Option Bool
  deriving DecidableEq

/-- The modes of the alternate screen. -/
def altParams : List (List Char) := [['4', '7'], ['1', '0', '4', '7'], ['1', '0', '4', '9']]

/-- The modes of the mouse. -/
def mouseParams : List (List Char) :=
  [['9'], ['1', '0', '0', '0'], ['1', '0', '0', '1'], ['1', '0', '0', '2'], ['1', '0', '0', '3']]

namespace Scanner

/-- A byte that does not go on with the sequence. -/
def leave (s : Scanner) (b : UInt8) : Scanner :=
  { s with state := if b = 0x1b then .esc else .ground }

/-- `this.mouse.add(p)`, or `delete`. -/
def setMouse (set : Bool) (mouse : List (List Char)) (p : List Char) : List (List Char) :=
  if p ∉ mouseParams then mouse
  else if set then (if p ∈ mouse then mouse else mouse ++ [p])
  else mouse.filter (· ≠ p)

/-- One byte, and the switch that ends with it. -/
def step (s : Scanner) (b : UInt8) : Scanner × Option Bool :=
  match s.state with
  | .ground => (if b = 0x1b then { s with state := .esc } else s, none)
  | .esc =>
    if b = 0x5b then ({ s with state := .bracket }, none)
    else if b = 0x63 then ({ s with state := .ground, appCursor := false, mouse := [], alt := false }, some false)
    else (s.leave b, none)
  | .bracket =>
    if b = 0x3f then ({ s with state := .params, params := [] }, none)
    else if b = 0x21 then ({ s with state := .bang }, none)
    else (s.leave b, none)
  | .params =>
    if (0x30 ≤ b ∧ b ≤ 0x39) ∨ b = 0x3b then
      let params := s.params ++ [Char.ofNat b.toNat]
      ({ s with params, state := if params.length > 32 then .ground else .params }, none)
    else if b = 0x68 ∨ b = 0x6c then
      let set := b = 0x68
      let parts := s.params.splitOn ';'
      let s := { s with
        state := .ground
        appCursor := if ['1'] ∈ parts then set else s.appCursor
        mouse := parts.foldl (setMouse set) s.mouse }
      if parts.any (· ∈ altParams) then ({ s with alt := set }, some set) else (s, none)
    else (s.leave b, none)
  | .bang =>
    if b = 0x70 then ({ s with state := .ground, appCursor := false, mouse := [], alt := false }, some false)
    else (s.leave b, none)

/-- The loop of `scan`: the bytes since the last cut, the segments before it. -/
def go (s : Scanner) (since : Bytes) (out : List AltSegment) : Bytes → Scanner × List AltSegment
  | [] => (s, if since ≠ [] ∨ out = [] then out ++ [⟨since, none⟩] else out)
  | b :: rest =>
    match s.step b with
    | (s, some alt) => go s [] (out ++ [⟨since ++ [b], some alt⟩]) rest
    | (s, none) => go s (since ++ [b]) out rest

/-- The segments of a chunk. -/
def scan (s : Scanner) (data : Bytes) : Scanner × List AltSegment := s.go [] [] data

/-- The chunks of a stream, one after another. -/
def scanAll (s : Scanner) : List Bytes → Scanner × List AltSegment
  | [] => (s, [])
  | chunk :: chunks =>
    let (s, segments) := s.scan chunk
    let (s, more) := s.scanAll chunks
    (s, segments ++ more)

end Scanner

/-- The switches, and where each of them ends in the stream. -/
def flips (pos : Nat) : List AltSegment → List (Nat × Bool)
  | [] => []
  | segment :: segments =>
    let pos := pos + segment.bytes.length
    match segment.alt with
    | none => flips pos segments
    | some alt => (pos, alt) :: flips pos segments

/-- The bytes of segments. -/
def bytesOf (segments : List AltSegment) : Bytes := (segments.map (·.bytes)).flatten

/-! ## What the steps do -/

namespace Scanner

variable (s : Scanner) (pos : Nat)

/-- The scanner after a chunk. -/
def run (s : Scanner) (data : Bytes) : Scanner := Run.run (fun s b => (s.step b).1) s data

/-- The switches of the steps. -/
def switches (s : Scanner) (pos : Nat) : Bytes → List (Nat × Bool)
  | [] => []
  | b :: rest => ((s.step b).2.map fun alt => (pos + 1, alt)).toList ++ switches (s.step b).1 (pos + 1) rest

theorem run_append (data more : Bytes) : s.run (data ++ more) = (s.run data).run more :=
  Run.run_append

theorem run_cons (b : UInt8) (data : Bytes) : s.run (b :: data) = (s.step b).1.run data :=
  Run.run_cons

theorem switches_append (data more : Bytes) :
    s.switches pos (data ++ more) = s.switches pos data ++ (s.run data).switches (pos + data.length) more := by
  induction data generalizing s pos with
  | nil => rfl
  | cons b data ih =>
    rw [List.cons_append, switches, switches, ih, List.append_assoc, List.length_cons,
      Nat.add_assoc pos 1, Nat.add_comm 1, run_cons]

end Scanner

/-! ## Segments -/

variable {pos : Nat} {segments more : List AltSegment}

@[simp] theorem bytesOf_append : bytesOf (segments ++ more) = bytesOf segments ++ bytesOf more := by
  rw [bytesOf, List.map_append, List.flatten_append, bytesOf, bytesOf]

theorem flips_append : flips pos (segments ++ more) = flips pos segments ++ flips (pos + (bytesOf segments).length) more := by
  induction segments generalizing pos with
  | nil => rfl
  | cons segment segments ih =>
    have hlen : (bytesOf (segment :: segments)).length =
        segment.bytes.length + (bytesOf segments).length :=
      List.length_append
    rw [List.cons_append, flips, flips, hlen, ← Nat.add_assoc]
    cases segment.alt with
    | none => exact ih
    | some alt => exact congrArg (_ :: ·) ih

namespace Scanner

variable {s : Scanner}

/-- A chunk: no byte is lost, and the switches are those of the steps. -/
theorem go_eq (since : Bytes) (out : List AltSegment) (data : Bytes) (pos : Nat) :
    (s.go since out data).1 = s.run data ∧
      bytesOf (s.go since out data).2 = bytesOf out ++ since ++ data ∧
      flips pos (s.go since out data).2 =
        flips pos out ++ s.switches (pos + (bytesOf out).length + since.length) data := by
  induction data generalizing s since out with
  | nil =>
    have hsince : bytesOf [⟨since, none⟩] = since := List.append_nil since
    rw [go, List.append_nil]
    refine ⟨rfl, ?_⟩
    dsimp only
    split
    · rw [bytesOf_append, hsince, flips_append]
      exact ⟨rfl, rfl⟩
    · next h =>
      rw [not_or, not_not] at h
      rw [h.1, List.append_nil]
      exact ⟨rfl, (List.append_nil _).symm⟩
  | cons b data ih =>
    have hpos : pos + (bytesOf out).length + (since ++ [b]).length =
        pos + (bytesOf out).length + since.length + 1 := by
      rw [List.length_append]
      rfl
    rw [go, run_cons, switches]
    split
    · next s' alt hstep =>
      obtain ⟨hrun, hbytes, hflips⟩ := ih (s := s') [] (out ++ [⟨since ++ [b], some alt⟩])
      have hout : bytesOf (out ++ [⟨since ++ [b], some alt⟩]) = bytesOf out ++ (since ++ [b]) := by
        rw [bytesOf_append]
        exact congrArg _ (List.append_nil _)
      rw [hstep, hrun, hbytes, hflips, hout]
      refine ⟨rfl, by simp, ?_⟩
      have hone : flips (pos + (bytesOf out).length) [⟨since ++ [b], some alt⟩] =
          [(pos + (bytesOf out).length + since.length + 1, alt)] := congrArg (fun n => [(n, alt)]) hpos
      rw [flips_append, hone, List.length_append, List.append_assoc, ← Nat.add_assoc, hpos]
      rfl
    · next s' hstep =>
      obtain ⟨hrun, hbytes, hflips⟩ := ih (s := s') (since ++ [b]) out
      rw [hstep, hrun, hbytes, hflips, hpos]
      exact ⟨rfl, by simp, rfl⟩

theorem scan_eq (data : Bytes) (pos : Nat) :
    (s.scan data).1 = s.run data ∧ bytesOf (s.scan data).2 = data ∧
    flips pos (s.scan data).2 = s.switches pos data :=
  go_eq [] [] data pos

theorem scanAll_eq (chunks : List Bytes) (pos : Nat) : (s.scanAll chunks).1 = s.run chunks.flatten ∧
    bytesOf (s.scanAll chunks).2 = chunks.flatten ∧
      flips pos (s.scanAll chunks).2 = s.switches pos chunks.flatten := by
  induction chunks generalizing s pos with
  | nil => exact ⟨rfl, rfl, rfl⟩
  | cons chunk chunks ih =>
    obtain ⟨hrun, hbytes, hflips⟩ := s.scan_eq chunk pos
    obtain ⟨hrun', hbytes', hflips'⟩ := ih (s := (s.scan chunk).1) (pos + chunk.length)
    rw [scanAll]
    dsimp only
    rw [hrun', bytesOf_append, hbytes, hbytes', flips_append, hbytes, hflips, hflips', hrun,
      List.flatten_cons, run_append, switches_append]
    exact ⟨rfl, rfl, rfl⟩

/-- From any state and for any chunks: the segments are the stream, and the switches with their
places and the modes at the end are those of the stream in one chunk. -/
theorem alt_screen_chunks (s : Scanner) (chunks : List Bytes) :
    bytesOf (s.scanAll chunks).2 = chunks.flatten ∧
      flips 0 (s.scanAll chunks).2 = flips 0 (s.scan chunks.flatten).2 ∧
      (s.scanAll chunks).1 = (s.scan chunks.flatten).1 := by
  obtain ⟨hrun, hbytes, hflips⟩ := s.scanAll_eq chunks 0
  obtain ⟨hrun', -, hflips'⟩ := s.scan_eq chunks.flatten 0
  exact ⟨hbytes, hflips.trans hflips'.symm, hrun.trans hrun'.symm⟩

end Scanner

/-- vim starts, in chunks that cut its sequence. -/
example : flips 0 (Scanner.scanAll {} [[0x68, 0x1b], [0x5b, 0x3f, 0x31], [0x30, 0x34, 0x39, 0x68, 0x41]]).2 = [(9, true)] := by
  decide

end Portty.AltScreen
