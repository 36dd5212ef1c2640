import Descent.Token
import Std.Data.TreeMap

/-!
The prediction cache and the recognizers that share it. The cache interns
lookaheads, the types of the next few tokens, as contexts with small numbers, and
remembers for a decision and a context the alternative that was chosen. A new
context takes the number of contexts so far. Clearing drops everything and starts
a new generation, so that numbers from an older one are stale.

A recognizer remembers the numbers of the contexts it has met, for one generation
of the cache. A prediction is taken from the cache when it is there, and otherwise
found by simulation and recorded; an outcome without an alternative is not
recorded.
-/

namespace Descent

abbrev Lookahead := List TokenType

structure PredictionCache where
  contexts : Std.TreeMap Lookahead Nat := {}
  /-- The alternative of a decision and a context. -/
  decisions : Std.TreeMap (Nat × Nat) Nat lexOrd.compare := {}
  /-- How often it was cleared. The counter is a 64-bit word, and no cache lives to be
  cleared so often that it comes round. -/
  generation : Nat := 0
  deriving Inhabited

namespace PredictionCache

def empty : PredictionCache := {}

def size (c : PredictionCache) : Nat := c.contexts.size

def isEmpty (c : PredictionCache) : Bool := c.contexts.isEmpty

def decisionCount (c : PredictionCache) : Nat := c.decisions.size

/-- The number of a context, and the cache that knows it. -/
def intern (c : PredictionCache) (w : Lookahead) : Nat × PredictionCache :=
  match c.contexts[w]? with
  | some id => (id, c)
  | none => (c.size, { c with contexts := c.contexts.insert w c.size })

def prediction? (c : PredictionCache) (decision context : Nat) : Option Nat :=
  c.decisions[(decision, context)]?

def record (c : PredictionCache) (decision context alternative : Nat) : PredictionCache :=
  { c with decisions := c.decisions.insert (decision, context) alternative }

def clear (c : PredictionCache) : PredictionCache :=
  { contexts := {}, decisions := {}, generation := c.generation + 1 }

/-- Clears a cache that holds more than `threshold` contexts. -/
def enforce (threshold : Nat) (c : PredictionCache) : Bool × PredictionCache :=
  if c.size ≤ threshold then (false, c) else (true, c.clear)

end PredictionCache

/-- The contexts a cache may hold before the next recognizer clears it. -/
def defaultThreshold : Nat := 10000

/-- A cache as its users see it: once one of them broke down while it held the
cache, nobody gets at its content again. -/
inductive SharedCache where
  | available (cache : PredictionCache)
  | unavailable
  deriving Inhabited

namespace SharedCache

def fresh : SharedCache := available .empty

end SharedCache

structure Recognizer where
  generation : Nat
  known : Std.TreeMap Lookahead Nat := {}
  deriving Inhabited

namespace Recognizer

/-- A new recognizer reads the generation after the guard has run. -/
def start (threshold : Nat) (c : PredictionCache) : Recognizer × PredictionCache :=
  let c := (c.enforce threshold).2
  ({ generation := c.generation }, c)

/-- Forgets what it knows when the cache has moved on to another generation. -/
def refresh (r : Recognizer) (c : PredictionCache) : Recognizer :=
  if r.generation = c.generation then r else { generation := c.generation }

/-- The number of a context: the one it knows, or the one the cache gives it. -/
def context (r : Recognizer) (c : PredictionCache) (w : Lookahead) :
    Nat × Recognizer × PredictionCache :=
  match r.known[w]? with
  | some id => (id, r, c)
  | none =>
    let (id, c) := c.intern w
    (id, { r with known := r.known.insert w id }, c)

/-- The number of a context after a look at the generation. -/
def locate (r : Recognizer) (c : PredictionCache) (w : Lookahead) :
    Nat × Recognizer × PredictionCache :=
  (r.refresh c).context c w

/-- The alternative of `decision` for the lookahead `w`. -/
def predict (r : Recognizer) (c : PredictionCache) (decision : Nat) (w : Lookahead)
    (simulate : Lookahead → Option Nat) : Option Nat × Recognizer × PredictionCache :=
  let (id, r, c) := r.locate c w
  match c.prediction? decision id with
  | some alternative => (some alternative, r, c)
  | none =>
    match simulate w with
    | none => (none, r, c)
    | some alternative => (some alternative, r, c.record decision id alternative)

/-- Whether a prediction has to be simulated. -/
def simulates (r : Recognizer) (c : PredictionCache) (decision : Nat) (w : Lookahead) : Bool :=
  let (id, _, c) := r.locate c w
  (c.prediction? decision id).isNone

end Recognizer

end Descent
