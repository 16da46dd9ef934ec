import Mathlib.Algebra.Order.Ring.Rat
import Portty.Lib.Find

/-!
# Predictive echo (`echo.ts`)

`PredictiveEcho` draws typed characters before the host has echoed them, once enough echoes have
been seen (`confidence`) and the link is slow (`rtt`). What it draws is provisional: it is erased
before output of the host is written.

* **Numbers** are exact: times in milliseconds, and the average of the round trips.
* **Texts** are lists of characters. `Intl.Segmenter` and `\p{Mark}` are parameters (`Unicode`).
* `PredictiveEcho.apply`: the calls of the class, with what each returns to be written to the
  terminal.
-/

namespace Portty.Echo

/-- Texts are lists of characters. -/
abbrev Text := List Char

/-- The keys that wait for their echo. -/
def maxPending : Nat := 16

/-- Hard cap on on-screen provisional cells. -/
def maxPredictedCells : Int := 24

/-- On a faster link nothing is drawn ahead. -/
def minRttMs : Rat := 120

/-- Echoes before anything is drawn. -/
def minConfidence : Nat := 3

/-- More echoes do not count. -/
def maxConfidence : Nat := 5

/-! ## Widths -/

/-- What the engine knows of characters. -/
structure Unicode where
  /-- `oneGrapheme(text) !== null`: the segmenter finds one grapheme. -/
  oneGrapheme : Text → Bool
  /-- `/\p{Mark}/u` -/
  isMark : Char → Bool

/-- Each character is a grapheme, as in ASCII. -/
def asciiUnicode : Unicode := ⟨fun text => text.length = 1, fun _ => false⟩

/-- What takes two cells of the terminal. -/
def isWideCodePoint (code : Nat) : Bool :=
  code ≥ 0x1100 &&
    (code ≤ 0x115F || code == 0x2329 || code == 0x232A || (code ≥ 0x2E80 && code ≤ 0xA4CF && code != 0x303F) ||
      (code ≥ 0xAC00 && code ≤ 0xD7A3) || (code ≥ 0xF900 && code ≤ 0xFAFF) || (code ≥ 0xFE10 && code ≤ 0xFE19) ||
      (code ≥ 0xFE30 && code ≤ 0xFE6F) || (code ≥ 0xFF00 && code ≤ 0xFF60) || (code ≥ 0xFFE0 && code ≤ 0xFFE6) ||
      (code ≥ 0x1F1E6 && code ≤ 0x1F1FF) || (code ≥ 0x1F300 && code ≤ 0x1FAFF) || (code ≥ 0x20000 && code ≤ 0x3FFFD))

/-- The loop of `graphemeCellWidth`: whether there is a base, and whether it is wide. -/
def scanScalars (u : Unicode) : Text → Bool → Bool → Option (Bool × Bool)
  | [], hasBase, wide => some (hasBase, wide)
  | c :: scalars, hasBase, wide =>
    let code := c.toNat
    if code = 0x200D ∨ (0xFE00 ≤ code ∧ code ≤ 0xFE0F) ∨ u.isMark c then scanScalars u scalars hasBase wide
    else if code < 0x20 ∨ (0x7F ≤ code ∧ code < 0xA0) then none
    else scanScalars u scalars true (wide || isWideCodePoint code)

/-- The cells of one grapheme: one or two. -/
def graphemeCellWidth (u : Unicode) (text : Text) : Option Nat :=
  if text = [] ∨ u.oneGrapheme text = false then none
  else
    match scanScalars u text false (decide (Char.ofNat 0x20E3 ∈ text)) with
    | some (true, wide) => some (if wide then 2 else 1)
    | _ => none

/-- What is written to take back a grapheme of that width. -/
def eraseGrapheme (cells : Nat) : Text :=
  if cells = 1 then ['\x08', ' ', '\x08']
  else
    "\x1b[".toList ++ (toString cells).toList ++ ['D'] ++ List.replicate cells ' ' ++
      "\x1b[".toList ++ (toString cells).toList ++ ['D']

/-! ## The class -/

/-- A key that was sent. -/
structure Pending where
  text : Text
  sentAt : Rat
  deriving DecidableEq

/-- A grapheme that was drawn, and its width. -/
structure PredictedGrapheme where
  text : Text
  cells : Nat
  deriving DecidableEq

/-- The state of the class. -/
structure PredictiveEcho where
  confidence : Nat := 0
  rtt : Rat := 0
  pending : List Pending := []
  predicted : List PredictedGrapheme := []
  predictedCells : Int := 0
  deriving DecidableEq

/-- What is known of the terminal when a key is typed. -/
structure InputOpts where
  sensitivePrompt : Bool
  altScreen : Bool
  cellsRemaining : Nat

/-- The codes that a backspace key sends. -/
def isBackspace (text : Text) : Bool := text = ['\x7f'] ∨ text = ['\x08']

/-- `plain.includes(text)` -/
def includes (plain text : Text) : Bool := (Find.find text plain).isSome

namespace PredictiveEcho

variable (u : Unicode) (e : PredictiveEcho)

/-- A key that may be echoed waits for that; the oldest one is dropped when there are too many. -/
def noteSent (text : Text) (now : Rat) : PredictiveEcho :=
  if (graphemeCellWidth u text).isSome ∨ isBackspace text then
    let pending := e.pending ++ [⟨text, now⟩]
    { e with pending := if pending.length > maxPending then pending.drop 1 else pending }
  else e

/-- How long an echo may take. -/
def staleAfter : Rat := max 1000 (e.rtt * 4)

/-- Unmatched beyond the deadline → the echo stopped: fail closed. -/
def expireStale (now : Rat) : PredictiveEcho :=
  let deadline := e.staleAfter
  if e.pending.any (now - ·.sentAt > deadline) then
    { e with pending := e.pending.filter (now - ·.sentAt ≤ deadline), confidence := 0 }
  else e

/-- What takes all provisional graphemes back, the last one first. -/
def takeErase : PredictiveEcho × Text :=
  if e.predicted = [] then (e, [])
  else ({ e with predicted := [], predictedCells := 0 }, e.predicted.reverse.flatMap fun item => eraseGrapheme item.cells)

/-- Prediction is off. -/
def blocked (opts : InputOpts) : Bool :=
  e.confidence < minConfidence ∨ e.rtt < minRttMs ∨ opts.sensitivePrompt ∨ opts.altScreen

/-- What is drawn ahead is underlined and faint. -/
def provisional (text : Text) : Text := "\x1b[2;4m".toList ++ text ++ "\x1b[0m".toList

/-- A key is drawn, takes back the last one, or ends the prediction. -/
def onInput (d : Text) (opts : InputOpts) (now : Rat) : PredictiveEcho × Option Text :=
  let e := e.expireStale now
  if e.blocked opts then (e, none)
  else if isBackspace d then
    match e.predicted.getLast? with
    | none => (e, none)
    | some removed =>
      ({ e with predicted := e.predicted.dropLast, predictedCells := e.predictedCells - removed.cells },
        some (eraseGrapheme removed.cells))
  else
    match graphemeCellWidth u d with
    | none => (e, none)
    | some cells =>
      if opts.cellsRemaining < cells ∨ e.predictedCells + cells > maxPredictedCells then (e, none)
      else
        ({ e with predicted := e.predicted ++ [⟨d, cells⟩], predictedCells := e.predictedCells + cells },
          some (provisional d))

/-- The `while` loop of `onOutput`. -/
def takeEchoes (plain : Text) (now : Rat) : List Pending → Rat → Nat → List Pending × Rat × Nat
  | [], rtt, confidence => ([], rtt, confidence)
  | sample :: pending, rtt, confidence =>
    if includes plain sample.text then
      let sampled := now - sample.sentAt
      takeEchoes plain now pending (if rtt = 0 then sampled else rtt * (3 / 4) + sampled * (1 / 4))
        (min maxConfidence (confidence + 1))
    else (sample :: pending, rtt, confidence)

/-- `onOutput`, before it looks for what is stale. -/
def sampleEchoes (plain : Text) (now : Rat) : PredictiveEcho :=
  let (pending, rtt, confidence) := takeEchoes plain now e.pending e.rtt e.confidence
  { e with pending, rtt, confidence }

/-- The echoes in the chunk are counted, and what was drawn ahead is taken back. -/
def onOutput (plain : Text) (now : Rat) : PredictiveEcho × Text :=
  ((e.sampleEchoes plain now).expireStale now).takeErase

/-- By the clock: without confidence nothing stays drawn. -/
def sweep (now : Rat) : PredictiveEcho × Text :=
  let e := e.expireStale now
  if e.confidence = 0 then e.takeErase else (e, [])

/-- After a command all is to be earned again. -/
def commandBoundary : PredictiveEcho × Text := { e with confidence := 0, pending := [] }.takeErase

/-- Another terminal. -/
def reset (_ : PredictiveEcho) : PredictiveEcho :=
  { confidence := 0, rtt := 0, pending := [], predicted := [], predictedCells := 0 }

end PredictiveEcho

/-! ## The calls -/

/-- The calls of the class. -/
inductive Call where
  | noteSent (text : Text) (now : Rat)
  | onInput (d : Text) (opts : InputOpts) (now : Rat)
  | onOutput (plain : Text) (now : Rat)
  | sweep (now : Rat)
  | commandBoundary
  | reset

/-- The state after a call, and what the caller writes to the terminal. -/
def PredictiveEcho.apply (u : Unicode) (e : PredictiveEcho) : Call → PredictiveEcho × Text
  | .noteSent text now => (e.noteSent u text now, [])
  | .onInput d opts now =>
    let (e, provisional) := e.onInput u d opts now
    (e, provisional.getD [])
  | .onOutput plain now => e.onOutput plain now
  | .sweep now => e.sweep now
  | .commandBoundary => e.commandBoundary
  | .reset => (e.reset, [])

end Portty.Echo
