import Descent.Token

/-!
The token buffer. It draws tokens from a source only when somebody looks at
them, keeps every token it has drawn, and never asks again once the source has
said that the input ended. A source promises that it comes to the end: `bound`
is a number that every other token makes smaller.

How far ahead to look is a machine word, and so is the place that is looked at.
A place is a sum, and what becomes of a sum that no word holds depends on how the
program was built.
-/

namespace Descent

/-- Two ways to build the program. A checked build stops at a failed assertion and
at a sum that is too large for a word, a wrapping one makes no assertions and keeps
what is left of the sum in a word. -/
inductive Build where
  | checked
  | wrapping
  deriving DecidableEq, Repr

/-- The place `k` ahead of a position, counted from one, if the program goes on to
look at it. -/
def Build.place? (build : Build) (position : Nat) (k : UInt64) : Option Nat :=
  let i := position + (k.toNat - 1)
  match build with
  | .checked => if 1 ≤ k.toNat ∧ i < UInt64.size then some i else none
  | .wrapping => some (i % UInt64.size)

/-- Both builds look where they should as long as the place is a word. -/
theorem Build.place?_of_lt (build : Build) {position : Nat} {k : UInt64} (hk : 1 ≤ k.toNat)
    (hi : position + (k.toNat - 1) < UInt64.size) :
    build.place? position k = some (position + (k.toNat - 1)) := by
  cases build with
  | checked => exact if_pos ⟨hk, hi⟩
  | wrapping => exact congrArg some (Nat.mod_eq_of_lt hi)

class TokenSource (σ : Type) where
  next : σ → Token × σ
  bound : σ → Nat
  next_bound : ∀ s, (next s).1.type ≠ eof → bound (next s).2 < bound s

structure Buffer (σ : Type) where
  source : σ
  tokens : Array Token := #[]
  position : Nat := 0
  ended : Bool := false

namespace Buffer

variable {σ : Type} [TokenSource σ]

def ofSource (source : σ) : Buffer σ := { source := source }

/-- Draws one token and gives it its index. -/
def fetch (b : Buffer σ) : Buffer σ :=
  let (t, source) := TokenSource.next b.source
  { b with
    source := source
    tokens := b.tokens.push { t with index := b.tokens.size }
    ended := t.isEof }

/-- Draws up to so many tokens, none beyond the end of the input. -/
def pull : Nat → Buffer σ → Buffer σ
  | 0, b => b
  | n + 1, b => if b.ended then b else pull n b.fetch

/-- Makes the token at place `i` available, unless the input ends before it. -/
def sync (b : Buffer σ) (i : Nat) : Buffer σ := pull (i + 1 - b.tokens.size) b

/-- The token at place `i` among those drawn; beyond the end of the input it is the
token that ends it. -/
def tokenAt (b : Buffer σ) (i : Nat) : Token :=
  b.tokens.getD (min i (b.tokens.size - 1)) (Token.atEnd 0 0 0)

/-- Looks at the token `k` places ahead. -/
def lt (build : Build) (b : Buffer σ) (k : UInt64) : Option (Token × Buffer σ) := do
  let i ← build.place? b.position k
  let b := b.sync i
  return (b.tokenAt i, b)

def la (build : Build) (b : Buffer σ) (k : UInt64) : Option (TokenType × Buffer σ) := do
  let (t, b) ← b.lt build k
  return (t.type, b)

/-- Looks at so many tokens one after another, the first of them `k` places ahead. -/
def looks (build : Build) : Nat → UInt64 → Buffer σ → Option (List TokenType × Buffer σ)
  | 0, _, b => some ([], b)
  | n + 1, k, b => do
    let (t, b) ← b.la build k
    let (ts, b) ← looks build n (k + 1) b
    return (t :: ts, b)

/-- A list of types is stored in one piece, four bytes for each of them, and a piece
has fewer bytes than half of the words there are. -/
def maxTypes : Nat := UInt64.size / 8 - 1

/-- The types of the next `n` tokens. The program stops when no list can hold them. -/
def lookahead (build : Build) (b : Buffer σ) (n : UInt64) :
    Option (List TokenType × Buffer σ) :=
  if n.toNat ≤ maxTypes then looks build n.toNat 1 b else none

/-- Makes the next `k` tokens available. This is how parsers look ahead. They look no
further than a few tokens, and no buffer is so long that such a place leaves the words, so
here and in `peek` it is a plain sum. -/
def reach (b : Buffer σ) (k : Nat) : Buffer σ := pull (b.position + k - b.tokens.size) b

/-- The token `k` places ahead, counted from one, among those drawn. -/
def peek (b : Buffer σ) (k : Nat) : Token := b.tokenAt (b.position + (k - 1))

/-- The types of the next `n` tokens, among those drawn. -/
def types (b : Buffer σ) (n : Nat) : List TokenType :=
  (List.range n).map fun i => (b.peek (i + 1)).type

/-- Moves past the current token; at the end of the input it stays. -/
def consume (b : Buffer σ) : Token × Buffer σ :=
  let b := b.reach 1
  let t := b.peek 1
  (t, if t.isEof then b else { b with position := b.position + 1 })

/-- Draws everything there is. -/
def fill (b : Buffer σ) : Buffer σ := pull (TokenSource.bound b.source + 1) b

/-- A bound on the number of tokens from the current one on. -/
def remaining (b : Buffer σ) : Nat :=
  b.tokens.size - b.position + TokenSource.bound b.source

end Buffer

/-- A list of tokens that is closed by the end of the input. -/
structure ClosedTokens where
  rest : List Token
  size : Nat
  line : Nat
  column : Nat

namespace ClosedTokens

def next (s : ClosedTokens) : Token × ClosedTokens :=
  match s.rest with
  | [] => (Token.atEnd s.size s.line s.column, s)
  | t :: ts => (t, { s with rest := ts })

instance : TokenSource ClosedTokens where
  next := next
  bound s := s.rest.length
  next_bound := by
    intro s h
    unfold next at *
    split at h
    · exact absurd rfl h
    · next hs => simp [hs]

end ClosedTokens

end Descent
