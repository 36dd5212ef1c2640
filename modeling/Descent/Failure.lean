import Descent.Token

/-!
Failures: what stops the front end for good. Trouble with the source text is
never one of these, it is collected as syntax errors; a failure means that a
grammar's tables do not fit its trees, that the prediction cache or the token
matcher is out of order, or that the surroundings of the program failed. On the
terminal a failure is shown by its code, its message behind a cross, and its
causes as the arms of a tree; further lines of a text hang under the first.
-/

namespace Descent

inductive Failure where
  | unknownTokenType (type : TokenType)
  | unknownRule (index : Nat)
  | unknownEntryPoint (rule : String)
  | cacheUnavailable
  | scanner (line column : Nat) (message : String)
  | settings (message : String)
  | rendering (message : String)
  /-- A file that cannot be read, with the causes from the outermost to the
  innermost. -/
  | unreadable (path : String) (causes : List String)
  /-- Recorded predictions keep a rule at one token for ever. -/
  | endless
  deriving DecidableEq, Repr, Inhabited

namespace Failure

def message : Failure → String
  | unknownTokenType t => s!"token type {t} has no symbolic name in the grammar vocabulary"
  | unknownRule i => s!"rule index {i} is not present in the parser's rule-name table"
  | unknownEntryPoint rule => s!"grammar has no entry point named `{rule}`"
  | cacheUnavailable => "shared prediction cache is unavailable"
  | scanner line column text => s!"lexer failed at line {line}:{column}: {text}"
  | settings text => s!"invalid configuration: {text}"
  | rendering text => s!"failed to render output: {text}"
  | unreadable path _ => s!"failed to read `{path}`"
  | endless => "recorded predictions make no progress"

/-- The stable identifier of a kind of failure. -/
def code : Failure → String
  | unknownTokenType _ => "arborist::vocabulary"
  | unknownRule _ => "arborist::rule_names"
  | unknownEntryPoint _ => "arborist::entry_point"
  | cacheUnavailable => "arborist::cache"
  | scanner .. => "arborist::scanner"
  | settings _ => "arborist::config"
  | rendering _ => "arborist::render"
  | unreadable .. => "arborist::io"
  | endless => "arborist::endless"

def help? : Failure → Option String
  | unknownTokenType _ =>
    some "the lexer produced a token type the vocabulary does not list"
  | cacheUnavailable =>
    some "a thread panicked while holding the cache; the cache can no longer be inspected"
  | scanner .. =>
    some ("the token matcher gave up for a reason other than unmatched input, such as " ++
      "too little stack")
  | _ => none

def causes : Failure → List String
  | unreadable _ causes => causes
  | _ => []

/-- A line behind its lead, without the blanks at its end. -/
def hang (lead line : String) : String :=
  lead ++ String.ofList (line.toList.reverse.dropWhile (· == ' ')).reverse

/-- A text whose first line and further lines have leads of their own. -/
def block (first further text : String) : String :=
  match text.splitOn "\n" with
  | [] => ""
  | line :: lines =>
    String.join ((hang first line :: lines.map (hang further)).map (· ++ "\n"))

def causeBlocks : List String → String
  | [] => ""
  | [cause] => block "  ╰─▶ " "      " cause
  | cause :: causes => block "  ├─▶ " "  │   " cause ++ causeBlocks causes

def report (f : Failure) : String :=
  f.code ++ "\n\n" ++ block "  × " "  │ " f.message ++ causeBlocks f.causes ++ "\n"

end Failure

end Descent
