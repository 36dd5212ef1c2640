import Descent.Parser.State

/-!
The operations rule bodies are made of, and rule invocation itself. A body may
match a token, skip one, choose an alternative, or invoke further rules; a
recognition error that escapes it is reported and recovered from by the rule,
so that only failures leave a rule. Below the nesting limit a body is not
entered at all: the rule reports that and recovers.
-/

namespace Descent

inductive Interrupt where
  | recognition (error : Parser.RecognitionError)
  | failure (failure : Failure)
  deriving DecidableEq, Repr

/-- A piece of a rule body: it changes the state also when it is interrupted. -/
abbrev Parser (σ : Type) := ExceptT Interrupt (StateM (Parser.State σ))

namespace Parser

/-- One run of a rule: a tree, or a failure. -/
abbrev Invocation (σ : Type) := State σ → Except Failure RawTree × State σ

variable {σ : Type} [TokenSource σ]

/-- The type of the next token. -/
def next : Parser σ TokenType := fun s =>
  let s := s.reach 1
  (.ok (s.la 1), s)

/-- Takes a token of the expected type. If the token after the current one is of
that type, the current one is reported as extraneous and dropped; if the current
one is in the recovery set, the expected one is reported as missing and made
up. -/
def matchToken (expected : TokenType) : Parser σ Unit := fun s =>
  let s := s.reach 1
  if s.la 1 = expected then
    (.ok (), { s with recovering := false }.consume false)
  else
    let expecting := TokenSet.ofList [expected]
    let s := s.reach 2
    if s.la 2 = expected then
      let s := s.reportHere
        s!"extraneous input {(s.peek 1).display} expecting {expecting.display s.vocabulary}"
      let s := s.consume true
      (.ok (), { s with recovering := false }.consume false)
    else if s.recoverySet.contains (s.la 1) then
      let name := s.vocabulary.displayName expected
      let current := s.peek 1
      let s := s.reportHere s!"missing {name} at {current.display}"
      let conjured : Token :=
        { current with
          type := expected
          text := s!"<missing {name}>"
          stop := current.start }
      (.ok (), s.attach (.leaf conjured true))
    else
      (.error (.recognition (.inputMismatch (s.peek 1) expecting)), s)

/-- Drops the current token as extraneous. -/
def skipExtraneous (expecting : TokenSet) : Parser σ Unit := fun s =>
  let s := s.reach 1
  let s := s.reportHere
    s!"extraneous input {(s.peek 1).display} expecting {expecting.display s.vocabulary}"
  (.ok (), s.consume true)

/-- Chooses an alternative of a decision by the next `depth` tokens. -/
def predict (decision depth : Nat) (simulate : Lookahead → Option Nat) : Parser σ Nat := fun s =>
  let s := s.reach depth
  match s.cache with
  | .unavailable => (.error (.failure .cacheUnavailable), s)
  | .available c =>
    let (chosen, r, c) := s.recognizer.predict c decision (s.buffer.types depth) simulate
    let s := { s with recognizer := r, cache := .available c }
    match chosen with
    | some alternative => (.ok alternative, s)
    | none =>
      let s := s.reach 1
      (.error (.recognition (.noViableAlternative (s.peek 1))), s)

def fail (f : Failure) : Parser σ Unit := fun s => (.error (.failure f), s)

/-- The state in which the body of a new invocation starts. -/
def State.openRule (s : State σ) (follow : TokenSet) : State σ :=
  { s with follow := follow :: s.follow, slots := [] }

/-- Back to the rule around, whose slots are those of `outer`. -/
def State.closeRule (s : State σ) (outer : State σ) : State σ :=
  { s with follow := s.follow.tail, slots := outer.slots }

/-- What a rule makes of the outcome of its body. -/
def finishRule (rule : Nat) (outer : State σ) (outcome : Except Interrupt Unit) (s : State σ) :
    Except Failure RawTree × State σ :=
  match outcome with
  | .ok () => (.ok (.node rule outer.index false s.slots), s.closeRule outer)
  | .error (.recognition e) =>
    let s := (s.reportError e).recover
    (.ok (.node rule outer.index true s.slots), s.closeRule outer)
  | .error (.failure f) => (.error f, s.closeRule outer)

/-- What a rule does beyond the nesting limit. -/
def refuseRule (rule : Nat) (outer : State σ) (s : State σ) :
    Except Failure RawTree × State σ :=
  let s := s.reach 1
  let s := s.reportHere
    s!"rule nesting exceeds {s.maxDepth} levels at input {(s.peek 1).display}"
  let s := s.recover
  (.ok (.node rule outer.index true s.slots), s.closeRule outer)

/-- Invokes a rule; `follow` is what may come after it in the rule around. -/
def rule (index : Nat) (follow : TokenSet) (body : Parser σ Unit) : Invocation σ := fun s =>
  let opened := s.openRule follow
  if opened.maxDepth < opened.depth then refuseRule index s opened
  else
    let (outcome, t) := body opened
    finishRule index s outcome t

/-- Invokes a rule inside a body and attaches its tree. -/
def attach (run : Invocation σ) : Parser σ Unit := fun s =>
  match run s with
  | (.ok t, s) => (.ok (), s.attach t)
  | (.error f, s) => (.error (.failure f), s)

/-- Runs `body` while the next token is in `set`, at most so many rounds. -/
def whileNext (set : TokenSet) (body : Parser σ Unit) : Nat → Parser σ Unit
  | 0 => fail .endless
  | n + 1 => do
    if set.contains (← next) then
      body
      whileNext set body n

end Parser

end Descent
