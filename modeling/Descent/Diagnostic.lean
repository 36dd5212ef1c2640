import Descent.SyntaxError
import Descent.Text

/-!
Diagnostics: a syntax error shown with the source line it points at, the line
before, and a caret under the column. The caret line keeps the tabs of the
source line, so that the caret stays under its character. A diagnostic is
written in one go, or in coloured spans that take the snippet apart again.
-/

namespace Descent

inductive Stage where
  | lexer
  | parser
  deriving DecidableEq, Repr

def Stage.name : Stage → String
  | lexer => "lexer"
  | parser => "parser"

structure Diagnostic where
  stage : Stage
  error : SyntaxError
  path : String
  source : String

namespace Diagnostic

/-- A caret under a column of a line. -/
def pointerChars (line : List Char) (column : Nat) : List Char :=
  (line.take column).map (fun c => if c = '\t' then '\t' else ' ') ++
    List.replicate (column - line.length) ' ' ++ ['^']

def pointer (line : String) (column : Nat) : String :=
  String.ofList (pointerChars line.toList column)

/-- A line with its number in front. -/
def row (width : Nat) (number : String) (text : String) : String :=
  Text.padLeft width number ++ " | " ++ text ++ "\n"

/-- The lines that lead up to an error, and a caret; none if the source has no
such line. -/
def snippet? (source : String) (e : SyntaxError) : Option String :=
  let lines := Text.lines source
  match e.line with
  | 0 => none
  | before + 1 =>
    match lines[before]? with
    | none => none
    | some line =>
      let width := (toString e.line).length
      let context := if before = 0 then ""
        else row width (toString before) (lines.getD (before - 1) "")
      some (context ++ row width (toString e.line) line ++
        row width "" (pointer line e.column))

/-- Here the column is counted from one. Columns are machine words, and the sum is one for
every column but the largest, which no line is long enough to have. -/
def location (d : Diagnostic) : String := s!"{d.path}:{d.error.line}:{d.error.column + 1}"

def render (d : Diagnostic) : String :=
  s!"{d.stage.name} error: {d.error.render}\n  --> {d.location}\n" ++
    (snippet? d.source d.error).getD ""

inductive Colour where
  | plain
  | red
  | blue
  deriving DecidableEq, Repr

/-- A text without the newlines at its end. -/
def trimNewlines (cs : List Char) : List Char :=
  (cs.reverse.dropWhile (· == '\n')).reverse

/-- Everything before the last newline, and the rest after it. -/
def splitLastLine (cs : List Char) : List Char × List Char :=
  ((cs.reverse.dropWhile (· != '\n')).tail.reverse, (cs.reverse.takeWhile (· != '\n')).reverse)

/-- The caret line of a snippet stands out; what is above it, if anything, does
not. -/
def snippetSpans (snippet : String) : List (Colour × String) :=
  let (body, caret) := splitLastLine (trimNewlines snippet.toList)
  (if body.isEmpty then [] else [(.plain, String.ofList body ++ "\n")]) ++
    [(.red, String.ofList caret ++ "\n")]

def spans (d : Diagnostic) : List (Colour × String) :=
  [(.red, s!"{d.stage.name} error"), (.plain, s!": {d.error.render}\n"), (.blue, "  -->"),
    (.plain, s!" {d.location}\n")] ++
    match snippet? d.source d.error with
    | none => []
    | some snippet => snippetSpans snippet

/-- What a writer without colours prints. -/
def printed (d : Diagnostic) : String := String.join (d.spans.map (·.2))

end Diagnostic

end Descent
