import Descent.Parser.Rule

/-!
Scripted parsers: rule bodies as data. A script is a list of statements over the
operations of a parser, with named procedures that are rules of their own and
may call each other. Running a script keeps a log with one entry for every
statement, inner statements first, also for a statement that was interrupted.
-/

namespace Descent.Script

open Descent.Parser

/-- A statement. A list of types stands for the set of them. -/
inductive Stmt where
  | matchToken (type : TokenType)
  | rule (index : Nat) (follow : List TokenType) (body : List Stmt)
  | call (procedure : String)
  | skip (expecting : List TokenType)
  /-- The alternative of the first row whose types begin the lookahead, then the
  body of the first branch for it. -/
  | predict (decision depth : Nat) (table : List (List TokenType × Nat))
      (branches : List (Nat × List Stmt))
  | when (types : List TokenType) (yes no : List Stmt)
  /-- Goes on while the next token is one of these, for at most fifty rounds. -/
  | loop (types : List TokenType) (body : List Stmt)
  | recover
  | report (expecting? : Option (List TokenType))
  | raise (expecting? : Option (List TokenType))
  | abort (index : Nat)
  | empty
  | maxDepth (limit : Nat)
  | recoverySet
  | lookahead (count : Nat)
  deriving Inhabited

namespace Stmt

mutual

/-- The largest nesting limit a statement sets. -/
def limit : Stmt → Nat
  | maxDepth n => n
  | rule _ _ body => limitAll body
  | predict _ _ _ branches => limitBranches branches
  | when _ yes no => max (limitAll yes) (limitAll no)
  | loop _ body => limitAll body
  | _ => 0

def limitAll : List Stmt → Nat
  | [] => 0
  | s :: rest => max s.limit (limitAll rest)

def limitBranches : List (Nat × List Stmt) → Nat
  | [] => 0
  | (_, body) :: rest => max (limitAll body) (limitBranches rest)

end

end Stmt

structure Procedure where
  rule : Nat
  follow : List TokenType
  body : List Stmt

/-- What a log entry adds to the state of the parser. -/
inductive Detail where
  | nothing
  | raised (token : Token)
  | failed (failure : Failure)
  | number (n : Nat)
  | flag (b : Bool)
  | types (types : List TokenType)
  | set (set : TokenSet)

namespace Detail

def ofInterrupt : Interrupt → Detail
  | .recognition e => raised e.token
  | .failure f => failed f

end Detail

structure Entry where
  word : String
  index : Nat
  buffered : Nat
  depth : Nat
  recovering : Bool
  errorCount : Nat
  detail : Detail

structure Traced (σ : Type) where
  state : State σ
  log : Array Entry := #[]

abbrev Run (σ : Type) := ExceptT Interrupt (StateM (Traced σ))

namespace Run

variable {σ : Type} [TokenSource σ]

/-- An operation of the parser, which logs nothing. -/
def ofParser {α : Type} (p : Parser σ α) : Run σ α := fun t =>
  let (outcome, s) := p t.state
  (outcome, { t with state := s })

/-- Runs a statement and logs how it ended. -/
def logged (word : String) (run : Run σ Detail) : Run σ Unit := fun t =>
  let (outcome, t) := run t
  let s := t.state
  let detail := match outcome with
    | .ok d => d
    | .error e => .ofInterrupt e
  let entry : Entry :=
    { word := word, index := s.index, buffered := s.buffer.tokens.size, depth := s.depth,
      recovering := s.recovering, errorCount := s.errors.length, detail := detail }
  (outcome.map fun _ => (), { t with log := t.log.push entry })

/-- A rule invocation whose tree is attached. -/
def rule (index : Nat) (follow : TokenSet) (body : Run σ Unit) : Run σ Unit := fun t =>
  let opened := t.state.openRule follow
  let (outcome, u) :=
    if opened.maxDepth < opened.depth then
      let (outcome, s) := refuseRule index t.state opened
      (outcome, { t with state := s })
    else
      let (ended, u) := body { t with state := opened }
      let (outcome, s) := finishRule index t.state ended u.state
      (outcome, { u with state := s })
  match outcome with
  | .ok tree => (.ok (), { u with state := u.state.attach tree })
  | .error f => (.error (.failure f), u)

/-- Runs `body` while the next token is in `set`, and counts the rounds. -/
def rounds (set : TokenSet) (body : Run σ Unit) : Nat → Run σ Nat
  | 0 => pure 0
  | n + 1 => do
    if set.contains (← ofParser next) then
      body
      return (← rounds set body n) + 1
    else return 0

/-- The error a statement speaks of: a mismatch if it says what is expected. -/
def error (expecting? : Option (List TokenType)) : Parser σ RecognitionError := fun s =>
  let s := s.reach 1
  match expecting? with
  | none => (.ok (.noViableAlternative (s.peek 1)), s)
  | some types => (.ok (.inputMismatch (s.peek 1) (.ofList types)), s)

def simulate (table : List (List TokenType × Nat)) (w : Lookahead) : Option Nat :=
  (table.find? fun row => row.1.isPrefixOf w).map (·.2)

mutual

def stmt (call : String → Run σ Unit) : Stmt → Run σ Unit
  | .matchToken t => logged "match" do ofParser (Parser.matchToken t); return .nothing
  | .rule index follow body =>
    logged "rule" do rule index (.ofList follow) (block call body); return .nothing
  | .call name => logged "call" do call name; return .nothing
  | .skip expecting =>
    logged "skip" do ofParser (skipExtraneous (.ofList expecting)); return .nothing
  | .predict decision depth table branches =>
    logged "predict" do
      let alternative ← ofParser (Parser.predict decision depth (simulate table))
      branch call alternative branches
      return .number alternative
  | .when types yes no =>
    logged "when" do
      if (TokenSet.ofList types).contains (← ofParser next) then
        block call yes
        return .flag true
      else
        block call no
        return .flag false
  | .loop types body =>
    logged "while" do return .number (← rounds (.ofList types) (block call body) 50)
  | .recover => logged "recover" do ofParser (modify State.recover); return .nothing
  | .report expecting? =>
    logged "report" do
      let e ← ofParser (error expecting?)
      ofParser (modify fun s => s.reportError e)
      return .nothing
  | .raise expecting? =>
    logged "raise" do
      let e ← ofParser (error expecting?)
      throw (.recognition e)
  | .abort index => logged "fatal" (throw (.failure (.unknownRule index)))
  | .empty => logged "empty" do ofParser (modify State.attachEmpty); return .nothing
  | .maxDepth limit =>
    logged "max_depth" do
      ofParser (modify fun s => s.setMaxDepth limit)
      return .number (← ofParser get).maxDepth
  | .recoverySet => logged "recovery_set" do return .set (← ofParser get).recoverySet
  | .lookahead count =>
    logged "lookahead" do
      ofParser (modify fun s => s.reach count)
      return .types ((← ofParser get).buffer.types count)

def block (call : String → Run σ Unit) : List Stmt → Run σ Unit
  | [] => pure ()
  | s :: rest => do
    stmt call s
    block call rest

def branch (call : String → Run σ Unit) (alternative : Nat) : List (Nat × List Stmt) → Run σ Unit
  | [] => pure ()
  | (a, body) :: rest => if a = alternative then block call body else branch call alternative rest

end

/-- Calls a procedure that may have `levels` more calls open below it. -/
def procedure (procedures : List (String × Procedure)) : Nat → String → Run σ Unit
  | 0, _ => ofParser (fail .endless)
  | levels + 1, name =>
    match procedures.lookup name with
    | none => ofParser (fail (.unknownEntryPoint name))
    | some p => rule p.rule (.ofList p.follow) (block (procedure procedures levels) p.body)

end Run

/-- Runs a script. No more calls can be open than the largest nesting limit that
is ever set, and the one that is refused. -/
def run {σ : Type} [TokenSource σ] (procedures : List (String × Procedure)) (script : List Stmt)
    (s : State σ) : Except Interrupt Unit × Traced σ :=
  let levels := (procedures.map fun p => Stmt.limitAll p.2.body).foldl max
    (max s.maxDepth (Stmt.limitAll script))
  Run.block (Run.procedure procedures (levels + 1)) script { state := s }

end Descent.Script
