import Descent.Token

/-!
Syntax errors, and the listeners a recognizer tells about them. A collector
appends every error to the sink it was given; a sink that its owner holds
during the call drops the error. The console listener keeps nothing.
-/

namespace Descent

structure SyntaxError where
  message? : Option String
  line : Nat
  column : Nat
  deriving DecidableEq, Repr, Inhabited

namespace SyntaxError

/-- An empty message counts as none. -/
def report (line column : Nat) (message : String) : SyntaxError :=
  ⟨if message.isEmpty then none else some message, line, column⟩

def message (e : SyntaxError) : String := e.message?.getD ""

def render (e : SyntaxError) : String := s!"Line {e.line}:{e.column} {e.message}"

end SyntaxError

inductive Listener where
  | console
  | collector (sink : Nat)
  deriving DecidableEq, Repr

/-- The listeners of one recognizer, and the sinks collectors may write to. -/
structure Listeners where
  registered : List Listener
  sinks : List (List SyntaxError)
  deriving DecidableEq, Repr

namespace Listeners

/-- A recognizer starts with the console. -/
def initial : Listeners := ⟨[.console], []⟩

def addSink (l : Listeners) : Listeners := { l with sinks := l.sinks ++ [[]] }

def attach (l : Listeners) (sink : Nat) : Listeners :=
  { l with registered := l.registered ++ [.collector sink] }

def removeAll (l : Listeners) : Listeners := { l with registered := [] }

def take (l : Listeners) (sink : Nat) : Listeners :=
  { l with sinks := l.sinks.modify sink fun _ => [] }

/-- Tells every listener in order; the sinks in `held` are not written to. -/
def notify (l : Listeners) (held : List Nat) (line column : Nat) (message : String) : Listeners :=
  { l with
    sinks := l.registered.foldl (fun sinks listener =>
      match listener with
      | .console => sinks
      | .collector sink =>
        if held.contains sink then sinks
        else sinks.modify sink (· ++ [.report line column message])) l.sinks }

end Listeners

end Descent
