/-!
The arguments of the command line. Options stand before or after the subcommand
that takes them; the two that every subcommand takes may also stand in front of
it, and the one closer to the end wins. An option takes its value after an
equals sign or from the next argument, which then does not begin with a hyphen.
No option is given twice in one place, and two hyphens end the options.
-/

namespace Descent.Command

inductive Request where
  | parse (file : String) (json : Bool) (label? : Option String)
  | tokens (file : String)
  | check (path : String)
  | diff (left right : String) (label? : Option String)
  deriving DecidableEq, Repr

structure Invocation where
  config? : Option String
  rule? : Option String
  request : Request
  deriving DecidableEq, Repr

/-- Why there is nothing to run. -/
inductive Stop where
  | usage
  | version
  | help
  deriving DecidableEq, Repr

inductive Verb where
  | parse | tokens | check | diff
  deriving DecidableEq, Repr

namespace Verb

def ofString? : String → Option Verb
  | "parse" => some parse
  | "tokens" => some tokens
  | "check" => some check
  | "diff" => some diff
  | _ => none

/-- The most operands a subcommand takes. -/
def arity : Verb → Nat
  | diff => 2
  | _ => 1

def takesLabel : Verb → Bool
  | parse => true
  | diff => true
  | _ => false

end Verb

/-- What was given so far, in front of the subcommand or after it. -/
structure Given where
  config? : Option String := none
  rule? : Option String := none
  label? : Option String := none
  json : Bool := false
  operands : List String := []

inductive OptionName where
  | config | rule | label
  deriving DecidableEq, Repr

namespace Given

/-- A value for an option that has none yet. A file has a name. -/
def set (g : Given) (name : OptionName) (value : String) : Except Stop Given :=
  match name with
  | .config => if g.config?.isSome || value.isEmpty then .error .usage
    else .ok { g with config? := some value }
  | .rule => if g.rule?.isSome then .error .usage else .ok { g with rule? := some value }
  | .label => if g.label?.isSome then .error .usage else .ok { g with label? := some value }

/-- One more operand; an empty one names no file. -/
def addOperand (g : Given) (arity : Nat) (operand : String) : Except Stop Given :=
  if operand.isEmpty || arity ≤ g.operands.length then .error .usage
  else .ok { g with operands := g.operands ++ [operand] }

end Given

/-- The options known after a subcommand, or in front of all. -/
def optionName? (verb? : Option Verb) : String → Option OptionName
  | "--config" => some .config
  | "--rule" => some .rule
  | "--label" => if verb?.any Verb.takesLabel then some .label else none
  | _ => none

/-- Name and value of an option with an equals sign. -/
def splitOption (arg : String) : String × Option String :=
  match arg.toList.span (· != '=') with
  | (name, _ :: value) => (String.ofList name, some (String.ofList value))
  | (name, []) => (String.ofList name, none)

/-- An argument that begins with a hyphen and is more than one. -/
def isOption (arg : String) : Bool := arg.toList.head? == some '-' && arg != "-"

/-- The first letter after a single hyphen; it counts before those that follow
it. -/
def flag? (arg : String) : Option Char :=
  match arg.toList with
  | '-' :: c :: _ => if c = '-' then none else some c
  | _ => none

/-- Asks for help, whatever else is given. -/
def asksHelp (arg : String) : Bool := arg == "--help" || flag? arg == some 'h'

/-- Asks for the version. -/
def asksVersion (arg : String) : Bool := arg == "--version" || flag? arg == some 'V'

/-- Help is on everything or on one subcommand, which may be that for help. -/
def helpOn : List String → Stop
  | [] => .help
  | [name] => if (Verb.ofString? name).isSome || name == "help" then .help else .usage
  | _ => .usage

/-- The arguments after a subcommand. -/
def readVerb (verb : Verb) : List String → Given → Except Stop Given
  | [], g => .ok g
  | arg :: rest, g =>
    if arg = "--" then rest.foldlM (fun g a => g.addOperand verb.arity a) g
    else if isOption arg then
      if asksHelp arg then .error .help
      else if arg = "--json" ∧ verb = .parse then
        if g.json then .error .usage else readVerb verb rest { g with json := true }
      else
        match splitOption arg with
        | (name, value?) =>
          match optionName? (some verb) name, value?, rest with
          | none, _, _ => .error .usage
          | some name, some value, rest => do readVerb verb rest (← g.set name value)
          | some _, none, [] => .error .usage
          | some name, none, value :: rest =>
            if isOption value then .error .usage
            else do readVerb verb rest (← g.set name value)
    else do readVerb verb rest (← g.addOperand verb.arity arg)

/-- The arguments up to the subcommand, the subcommand, and those after it. -/
def readFront : List String → Given → Except Stop (Given × Verb × List String)
  | [], _ => .error .usage
  | arg :: rest, g =>
    if isOption arg then
      if asksVersion arg then .error .version
      else if asksHelp arg then .error .help
      else
        match splitOption arg with
        | (name, value?) =>
          match optionName? none name, value?, rest with
          | none, _, _ => .error .usage
          | some name, some value, rest => do readFront rest (← g.set name value)
          | some _, none, [] => .error .usage
          | some name, none, value :: rest =>
            if isOption value then .error .usage
            else do readFront rest (← g.set name value)
    else
      match Verb.ofString? arg with
      | some verb => .ok (g, verb, rest)
      | none => .error (if arg = "help" then helpOn rest else .usage)

/-- The request of a subcommand with what was given to it. -/
def request (verb : Verb) (g : Given) : Except Stop Request :=
  match verb, g.operands with
  | .parse, [file] => .ok (.parse file g.json g.label?)
  | .tokens, [file] => .ok (.tokens file)
  | .check, [] => .ok (.check ".")
  | .check, [path] => .ok (.check path)
  | .diff, [left, right] => .ok (.diff left right g.label?)
  | _, _ => .error .usage

def read (args : List String) : Except Stop Invocation := do
  let (front, verb, rest) ← readFront args {}
  let back ← readVerb verb rest {}
  return ⟨back.config?.or front.config?, back.rule?.or front.rule?, ← request verb back⟩

end Descent.Command
