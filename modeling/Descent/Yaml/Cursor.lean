/-!
Positions in a YAML text. A line ends with a newline, a line separator or a
paragraph separator; the other line ends are turned into newlines before
anything is read. Blanks are spaces and tabs.
-/

namespace Descent.Yaml

def lineSeparator : Char := '\u2028'

def paragraphSeparator : Char := '\u2029'

def byteOrderMark : Char := '\ufeff'

def isLineEnd (c : Char) : Bool := c == '\n' || c == lineSeparator || c == paragraphSeparator

def isGap (c : Char) : Bool := c == ' ' || c == '\t'

/-- The characters a text may hold. -/
def isAllowed (c : Char) : Bool :=
  let n := c.toNat
  n == 9 || n == 10 || n == 13 || (0x20 ≤ n && n ≤ 0x7E) || n == 0x85 ||
    (0xA0 ≤ n && n ≤ 0xFFFD) || 0x10000 ≤ n

/-- Carriage returns, alone or before a newline, and next-line characters become
newlines. -/
def unifyLineEnds : List Char → List Char
  | '\r' :: '\n' :: cs => '\n' :: unifyLineEnds cs
  | c :: cs => (if c = '\r' ∨ c = '\u0085' then '\n' else c) :: unifyLineEnds cs
  | [] => []

/-- A blank, a line end, or the end of the text. -/
def gapAhead : List Char → Bool
  | [] => true
  | c :: _ => isGap c || isLineEnd c

/-- Characters from the start of the text, lines, and characters from the start
of the line. -/
structure Mark where
  index : Nat := 0
  line : Nat := 0
  column : Nat := 0
  deriving DecidableEq, Repr, Inhabited

namespace Mark

def right (m : Mark) (n : Nat) : Mark :=
  { m with index := m.index + n, column := m.column + n }

def down (m : Mark) : Mark := ⟨m.index + 1, m.line + 1, 0⟩

end Mark

/-- What is still to be read, and where it starts. -/
structure Cursor where
  rest : List Char
  mark : Mark := {}
  deriving Repr, Inhabited

namespace Cursor

def column (c : Cursor) : Nat := c.mark.column

/-- The next character. -/
def head? (c : Cursor) : Option Char := c.rest.head?

/-- Goes on by so many characters of the line. -/
def move (c : Cursor) (n : Nat) : Cursor := ⟨c.rest.drop n, c.mark.right n⟩

def skipWhile (c : Cursor) (p : Char → Bool) : Cursor := c.move (c.rest.takeWhile p).length

def atGap (c : Cursor) : Bool := gapAhead c.rest

/-- At a line end or at the end of the text. -/
def atLineEnd (c : Cursor) : Bool := c.rest.head?.all isLineEnd

def passLineEnd (c : Cursor) : Cursor :=
  match c.rest with
  | [] => c
  | d :: ds => if isLineEnd d then ⟨ds, c.mark.down⟩ else c

/-- Passes over blanks, a comment, and the line end, if there is nothing else on
the line. -/
def finishLine? (c : Cursor) : Option Cursor :=
  let c := c.skipWhile isGap
  let c := if c.head? = some '#' then c.skipWhile (!isLineEnd ·) else c
  if c.atLineEnd then some c.passLineEnd else none

/-- Three of the same mark at the start of a line and a gap after them divide
documents. -/
def atDivider (c : Cursor) (mark : Char) : Bool :=
  c.column == 0 && c.rest.take 3 == [mark, mark, mark] && gapAhead (c.rest.drop 3)

/-- Before a document or after it. -/
def atAnyDivider (c : Cursor) : Bool := c.atDivider '-' || c.atDivider '.'

end Cursor

end Descent.Yaml
