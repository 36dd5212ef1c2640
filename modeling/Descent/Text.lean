import Descent.Text.IdentifierTable

/-!
What is asked of characters and texts anywhere in the program: white space,
identifiers, line breaks written so that a text stays on one line, and the lines
of a text.
-/

namespace Descent.Text

section Characters

/-- The characters with the property White_Space. -/
def isWhite (c : Char) : Bool :=
  let n := c.toNat
  (9 ≤ n && n ≤ 13) || n == 0x20 || n == 0x85 || n == 0xA0 || n == 0x1680 ||
    (0x2000 ≤ n && n ≤ 0x200A) || n == 0x2028 || n == 0x2029 || n == 0x202F || n == 0x205F ||
    n == 0x3000

def isBlank (text : String) : Bool := text.toList.all isWhite

def inRanges (ranges : List (Nat × Nat)) (code : Nat) : Bool :=
  ranges.any fun (lo, hi) => lo ≤ code && code ≤ hi

/-- An identifier begins with an underscore or a letter. The ASCII part is stated here,
and the rest is read from the table. -/
def isIdentStart (c : Char) : Bool :=
  c.isAlpha || c == '_' || (128 ≤ c.toNat && inRanges identifierStarts c.toNat)

/-- It goes on with letters, digits, underscores and combining marks. -/
def isIdentContinue (c : Char) : Bool :=
  isIdentStart c || c.isDigit || (128 ≤ c.toNat && inRanges identifierMarks c.toNat)

end Characters

section Escapes

/-! A text is gone over three times, for pairs of carriage return and newline, for
newlines, and for carriage returns; a text without either is left alone. -/

def hasLineBreak (cs : List Char) : Bool := cs.any fun c => c == '\n' || c == '\r'

/-- Carriage return and newline together. -/
def escapePairs : List Char → List Char
  | '\r' :: '\n' :: cs => '\\' :: 'r' :: '\\' :: 'n' :: escapePairs cs
  | c :: cs => c :: escapePairs cs
  | [] => []

def replaceChar (c : Char) (written : List Char) (cs : List Char) : List Char :=
  cs.flatMap fun d => if d = c then written else [d]

def escapeChars (cs : List Char) : List Char :=
  if hasLineBreak cs then
    replaceChar '\r' ['\\', 'r'] (replaceChar '\n' ['\\', 'n'] (escapePairs cs))
  else cs

def escape (text : String) : String := String.ofList (escapeChars text.toList)

end Escapes

section Lines

/-! A line ends with a newline, which may have a carriage return before it; after the
last newline there is a line only if there is some text. -/

/-- A carriage return at the end goes with the newline after it. -/
def dropReturn (line : List Char) : List Char :=
  if line.getLast? = some '\r' then line.dropLast else line

/-- The lines of a text, of whose first line `current` was read already, last
character first. -/
def linesFrom (current : List Char) : List Char → List (List Char)
  | [] => if current.isEmpty then [] else [current.reverse]
  | c :: cs =>
    if c = '\n' then dropReturn current.reverse :: linesFrom [] cs
    else linesFrom (c :: current) cs

def lines (text : String) : List String := (linesFrom [] text.toList).map String.ofList

/-- Blanks up to a width, in front. -/
def padLeft (width : Nat) (text : String) : String :=
  String.ofList (List.replicate (width - text.length) ' ') ++ text

end Lines

end Descent.Text
