import Descent.Buffer
import Descent.Prediction
import Descent.SyntaxError
import Descent.Tree
import Descent.Token

/-!
The state of a parser: its token buffer, its view of the prediction cache, the
follow sets of the rules that are open, and the bookkeeping of error recovery.
After an error is reported the parser recovers, and reports nothing more until
a token fits again. The recovery set holds the tokens at which some open rule
could go on.
-/

namespace Descent.Parser

/-- Trouble that ends a rule body and is dealt with by the rule. -/
inductive RecognitionError where
  | noViableAlternative (token : Token)
  | inputMismatch (token : Token) (expecting : TokenSet)
  deriving DecidableEq, Repr

namespace RecognitionError

def token : RecognitionError → Token
  | noViableAlternative t => t
  | inputMismatch t _ => t

def message (v : Vocabulary) : RecognitionError → String
  | noViableAlternative t => s!"no viable alternative at input {t.display}"
  | inputMismatch t expecting =>
    s!"mismatched input {t.display} expecting {expecting.display v}"

end RecognitionError

def defaultMaxDepth : Nat := 400

structure State (σ : Type) where
  buffer : Buffer σ
  vocabulary : Vocabulary
  cache : SharedCache
  recognizer : Recognizer
  /-- The follow sets of the open rules, the innermost first. -/
  follow : List TokenSet := []
  recovering : Bool := false
  /-- Where the last recovery began to skip tokens. -/
  lastError? : Option Nat := none
  errors : List SyntaxError := []
  maxDepth : Nat := defaultMaxDepth
  /-- What the innermost open rule has attached so far. -/
  slots : List (Option RawTree) := []

namespace State

variable {σ : Type} [TokenSource σ]

def index (s : State σ) : Nat := s.buffer.position

/-- The number of open rules. -/
def depth (s : State σ) : Nat := s.follow.length

/-- At least one rule may always be open. -/
def setMaxDepth (s : State σ) (n : Nat) : State σ := { s with maxDepth := max n 1 }

def reach (s : State σ) (k : Nat) : State σ := { s with buffer := s.buffer.reach k }

def peek (s : State σ) (k : Nat) : Token := s.buffer.peek k

/-- The type of the token `k` places ahead. -/
def la (s : State σ) (k : Nat) : TokenType := (s.peek k).type

def recoverySet (s : State σ) : TokenSet :=
  s.follow.foldr (fun set all => all.union set) (.ofList [eof])

def attach (s : State σ) (t : RawTree) : State σ := { s with slots := s.slots ++ [some t] }

def attachEmpty (s : State σ) : State σ := { s with slots := s.slots ++ [none] }

/-- Takes the current token into the tree. -/
def consume (s : State σ) (error : Bool) : State σ :=
  let (t, b) := s.buffer.consume
  { s with buffer := b }.attach (.leaf t error)

/-- Reports an error at a token, unless the parser is already recovering. -/
def report (s : State σ) (place : Token) (message : String) : State σ :=
  if s.recovering then s
  else
    { s with
      recovering := true
      errors := s.errors ++ [.report place.line place.column message] }

def reportHere (s : State σ) (message : String) : State σ :=
  let s := s.reach 1
  s.report (s.peek 1) message

def reportError (s : State σ) (e : RecognitionError) : State σ :=
  s.report e.token (e.message s.vocabulary)

/-- Takes error tokens into the tree, at most so many, until one is in `set`. -/
def skipTo (set : TokenSet) : Nat → State σ → State σ
  | 0, s => s
  | n + 1, s =>
    let s := s.reach 1
    if set.contains (s.la 1) then s else skipTo set n (s.consume true)

/-- A second failure in one place is given up by forcing a token through. -/
def forceProgress (s : State σ) : State σ :=
  if s.lastError? = some s.index then
    let (t, b) := s.buffer.consume
    let s := { s with buffer := b }
    if t.isEof then s else s.attach (.leaf t true)
  else s

/-- Skips to a token at which some open rule could go on. The end of the input
is always one of these. -/
def recover (s : State σ) : State σ :=
  let s := s.forceProgress
  let s := { s with lastError? := some s.index }
  s.skipTo s.recoverySet (s.buffer.remaining + 1)

end State

end Descent.Parser
