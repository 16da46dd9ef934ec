import Mathlib.Init

/-!
# Regular expressions

`Regex.test` is `RegExp.prototype.test`: is there a match somewhere in the text. A position in the
text is what follows it and the character before it, so that `^`, `$` and `\b` can be told. `ends`
are the positions at which a match from a position can end.
-/

/-- The patterns that are used, with the boundary of a word. -/
inductive Regex where
  | empty
  | set (p : Char → Bool)
  | seq (a b : Regex)
  | alt (a b : Regex)
  | star (a : Regex)
  /-- `^` -/
  | start
  /-- `$` -/
  | stop
  /-- `\b` -/
  | boundary

namespace Regex

/-- A place in a text: the character before it, and what comes after. -/
structure Pos where
  before : Option Char
  rest : List Char

/-- `\w` -/
def isWord (c : Char) : Bool := c.isAlphanum || c = '_'

/-- `f` any number of times. Rounds that do not advance add nothing, so that `n` can be the number
of characters that are left. -/
def iterate (f : Pos → List Pos) : Nat → Pos → List Pos
  | 0, p => [p]
  | n + 1, p => p :: (f p).flatMap fun q =>
    if q.rest.length < p.rest.length then iterate f n q else []

/-- The places at which a match from here can end. -/
def ends : Regex → Pos → List Pos
  | empty, p => [p]
  | set s, p =>
    match p.rest with
    | [] => []
    | c :: cs => if s c then [⟨some c, cs⟩] else []
  | seq a b, p => (a.ends p).flatMap b.ends
  | alt a b, p => a.ends p ++ b.ends p
  | star a, p => iterate a.ends p.rest.length p
  | start, p => if p.before.isNone then [p] else []
  | stop, p => if p.rest.isEmpty then [p] else []
  | boundary, p => if p.before.any isWord != p.rest.head?.any isWord then [p] else []

/-- There is a match from here on. -/
def testFrom (r : Regex) (before : Option Char) : List Char → Bool
  | [] => !(r.ends ⟨before, []⟩).isEmpty
  | c :: cs => !(r.ends ⟨before, c :: cs⟩).isEmpty || r.testFrom (some c) cs

/-- The text has a match. -/
def test (r : Regex) (text : String) : Bool := r.testFrom none text.toList

/-- One after the other. -/
def seqs (rs : List Regex) : Regex := rs.foldr seq empty

/-- The text itself. -/
def lit (text : String) : Regex := seqs (text.toList.map fun c => set (· = c))

/-- The text in either case. It is given in small letters. -/
def litIgnoreCase (text : String) : Regex := seqs (text.toList.map fun c => set (·.toLower = c))

/-- One of the expressions. -/
def oneOf (r : Regex) (rs : List Regex) : Regex := rs.foldl alt r

/-- `?` -/
def optional (r : Regex) : Regex := alt r empty

/-- `{n,}` -/
def atLeast (n : Nat) (r : Regex) : Regex := seqs (List.replicate n r ++ [star r])

/-- `{n}` -/
def exactly (n : Nat) (r : Regex) : Regex := seqs (List.replicate n r)

end Regex
