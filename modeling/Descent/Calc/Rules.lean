import Descent.Calc.Lexeme
import Descent.Parser.Rule

/-!
The rules of calc:

  program    : statement* EOF
  statement  : assignment ';'? | expression ';'?
  assignment : ID '=' expression
  expression : term (('+' | '-') term)*
  term       : factor (('*' | '/' | '%') factor)*
  factor     : ('+' | '-') factor | primary ('^' factor)?
  primary    : NUMBER | STRING | ID | call | '(' expression ')'
  call       : ID '(' (expression (',' expression)*)? ')'

A body says how a rule is parsed, given what invokes the rules it mentions.
-/

namespace Descent.Calc

inductive Rule where
  | program | statement | assignment | expression | term | factor | primary | call
  deriving DecidableEq, Repr

namespace Rule

def all : List Rule :=
  [program, statement, assignment, expression, term, factor, primary, call]

def index : Rule → Nat
  | program => 0
  | statement => 1
  | assignment => 2
  | expression => 3
  | term => 4
  | factor => 5
  | primary => 6
  | call => 7

def name : Rule → String
  | program => "program"
  | statement => "statement"
  | assignment => "assignment"
  | expression => "expression"
  | term => "term"
  | factor => "factor"
  | primary => "primary"
  | call => "call"

def ofIndex? (i : Nat) : Option Rule := all[i]?

def ofName? (name : String) : Option Rule := all.find? fun r => r.name == name

end Rule

def ruleNames : List String := Rule.all.map Rule.name

/-- The tokens an expression, and so a statement, can begin with. -/
def expressionStart : TokenSet := .ofList [number, string, ident, lparen, plus, minus]

def additive : TokenSet := .ofList [plus, minus]

def multiplicative : TokenSet := .ofList [star, slash, percent]

def separators : TokenSet := .ofList [comma, rparen]

/-- An assignment begins with a name and an equals sign. -/
def simulateStatement : Lookahead → Option Nat
  | [] => none
  | first :: rest =>
    if first = ident ∧ rest.head? = some assign then some 1
    else if expressionStart.contains first then some 2
    else none

/-- A name before a parenthesis is called. -/
def simulatePrimary : Lookahead → Option Nat
  | [] => none
  | first :: rest =>
    if first = ident then
      if rest.head? = some lparen then some 4 else some 3
    else if first = number then some 1
    else if first = string then some 2
    else if first = lparen then some 5
    else none

section Bodies

open Descent.Parser

variable {σ : Type} [TokenSource σ] (invoke : Rule → TokenSet → Parser σ Unit)

/-- One statement; a token that no statement begins with is dropped. -/
def programRound : Parser σ Unit := do
  if expressionStart.contains (← next) then invoke .statement expressionStart
  else skipExtraneous expressionStart

/-- Rounds up to the end of the input, at most so many. -/
def programLoop : Nat → Parser σ Unit
  | 0 => fail .endless
  | n + 1 => do
    if (← next) = eof then return ()
    else
      programRound invoke
      programLoop n

/-- Two rounds at one token suffice: the second that fails there forces it
through. -/
def programBody : Parser σ Unit := do
  programLoop invoke (2 * (← get).buffer.remaining + 1)

def terminator : Parser σ Unit := do
  if (← next) = semi then matchToken semi

def statementBody : Parser σ Unit := do
  let alternative ← predict 0 2 simulateStatement
  invoke (if alternative = 1 then .assignment else .expression) (.ofList [semi])
  terminator

/-- What follows the name in an assignment. -/
def assigned : Parser σ Unit := do
  matchToken assign
  invoke .expression .empty

def assignmentBody : Parser σ Unit := do
  matchToken ident
  assigned invoke

/-- Takes the next token, whatever its type. -/
def matchNext : Parser σ Unit := do
  matchToken (← next)

/-- Further operands, as long as one of the operators comes before them. -/
def operations (operators : TokenSet) (operand : Rule) (follow : TokenSet) : Parser σ Unit := do
  whileNext operators (do matchNext; invoke operand follow) ((← get).buffer.remaining + 1)

/-- Operands with operators between them. -/
def operatorBody (operators : TokenSet) (operand : Rule) (follow : TokenSet) : Parser σ Unit := do
  invoke operand follow
  operations invoke operators operand follow

def exponent : Parser σ Unit := do
  if (← next) = caret then
    matchToken caret
    invoke .factor .empty

def factorBody : Parser σ Unit := do
  if additive.contains (← next) then
    matchNext
    invoke .factor .empty
  else
    invoke .primary (.ofList [caret])
    exponent invoke

/-- What follows an opening parenthesis around an expression. -/
def enclosed : Parser σ Unit := do
  invoke .expression (.ofList [rparen])
  matchToken rparen

def parenthesized : Parser σ Unit := do
  matchToken lparen
  enclosed invoke

def primaryBody : Parser σ Unit := do
  let alternative ← predict 1 2 simulatePrimary
  if alternative = 1 then matchToken number
  else if alternative = 2 then matchToken string
  else if alternative = 3 then matchToken ident
  else if alternative = 4 then invoke .call .empty
  else parenthesized invoke

/-- What stands between the parentheses of a call, which may be nothing. -/
def arguments : Parser σ Unit := do
  if expressionStart.contains (← next) then
    operatorBody invoke (.ofList [comma]) .expression separators

def argumentList : Parser σ Unit := do
  matchToken lparen
  arguments invoke
  matchToken rparen

def callBody : Parser σ Unit := do
  matchToken ident
  argumentList invoke

def body : Rule → Parser σ Unit
  | .program => programBody invoke
  | .statement => statementBody invoke
  | .assignment => assignmentBody invoke
  | .expression => operatorBody invoke additive .term additive
  | .term => operatorBody invoke multiplicative .factor multiplicative
  | .factor => factorBody invoke
  | .primary => primaryBody invoke
  | .call => callBody invoke

end Bodies

/-- Invokes a rule that may have `levels` more open below it. Only the nesting
limit of the parser is meant to stop the descent, so there are to be as many
levels as the limit leaves. -/
def invokeWithin {σ : Type} [TokenSource σ] : Nat → Rule → TokenSet → Parser.Invocation σ
  | 0, r, follow => Parser.rule r.index follow (Parser.fail .endless)
  | levels + 1, r, follow =>
    Parser.rule r.index follow
      (body (fun r follow => Parser.attach (invokeWithin levels r follow)) r)

/-- Invokes a rule that nothing need follow. -/
def parseRule {σ : Type} [TokenSource σ] (r : Rule) : Parser.Invocation σ := fun s =>
  invokeWithin (s.maxDepth - s.depth) r .empty s

/-- Invokes the rule of a number. -/
def invoke {σ : Type} [TokenSource σ] (index : Nat) : Parser.Invocation σ := fun s =>
  match Rule.ofIndex? index with
  | none => (.error (.unknownRule index), s)
  | some r => parseRule r s

end Descent.Calc
