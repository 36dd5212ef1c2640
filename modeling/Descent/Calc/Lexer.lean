import Descent.Buffer
import Descent.Failure
import Descent.SyntaxError
import Descent.Calc.Lexeme

/-!
The calc lexer. From the current position it takes one lexeme at a time, drops
blanks and comments, and reports a character that fits nowhere as an error and
steps over it. The matcher may give up at some byte offsets; the lexer then
keeps that failure, moves to the end of the input, and the token stream ends
there.
-/

namespace Descent.Calc

/-- A place in a text: byte offset, line from one, column in characters from
zero. -/
structure Place where
  offset : Nat := 0
  line : Nat := 1
  column : Nat := 0
  deriving DecidableEq, Repr, Inhabited

namespace Place

def step (p : Place) (c : Char) : Place :=
  if c = '\n' then ⟨p.offset + c.utf8Size, p.line + 1, 0⟩
  else ⟨p.offset + c.utf8Size, p.line, p.column + 1⟩

def advance (p : Place) (cs : List Char) : Place := cs.foldl step p

end Place

structure Lexer where
  rest : List Char
  place : Place := {}
  errors : List SyntaxError := []
  failure? : Option Failure := none
  /-- The byte offsets at which the matcher gives up. -/
  stalls : Nat → Bool := fun _ => false

namespace Lexer

def ofString (source : String) (stalls : Nat → Bool) : Lexer :=
  { rest := source.toList, stalls := stalls }

/-- Moves past `n` characters. -/
def skip (l : Lexer) (n : Nat) : Lexer :=
  { l with rest := l.rest.drop n, place := l.place.advance (l.rest.take n) }

/-- Gives up for good at the current place. -/
def stop (l : Lexer) : Lexer :=
  { l.skip l.rest.length with
    failure? := some (.scanner l.place.line l.place.column "call limit reached") }

/-- Reports the character in front and steps over it. -/
def reject (l : Lexer) (c : Char) : Lexer :=
  { l.skip 1 with
    errors := l.errors ++ [.report l.place.line l.place.column
      s!"token recognition error at: '{String.ofList (visibleChar c)}'"] }

/-- The token of type `t` that the next `n` characters make. -/
def token (l : Lexer) (t : TokenType) (n : Nat) : Token :=
  { type := t, text := String.ofList (l.rest.take n), line := l.place.line,
    column := l.place.column, start := l.place.offset,
    stop := (l.place.advance (l.rest.take n)).offset, index := 0 }

def atEnd (l : Lexer) : Token := Token.atEnd l.place.offset l.place.line l.place.column

/-- The next token, reached in at most so many steps. -/
def nextWithin : Nat → Lexer → Token × Lexer
  | 0, l => (l.atEnd, l)
  | n + 1, l =>
    match l.rest with
    | [] => (l.atEnd, l)
    | c :: cs =>
      if l.stalls l.place.offset then (l.stop.atEnd, l.stop)
      else
        match scan letters (c :: cs) with
        | none => nextWithin n (l.reject c)
        | some (none, k) => nextWithin n (l.skip k)
        | some (some t, k) => (l.token t k, l.skip k)

/-- Every step takes a character, so there are never more steps than characters. -/
def next (l : Lexer) : Token × Lexer := nextWithin l.rest.length l

def takeFailure (l : Lexer) : Option Failure × Lexer :=
  (l.failure?, { l with failure? := none })

@[simp]
theorem skip_rest (l : Lexer) (n : Nat) : (l.skip n).rest = l.rest.drop n := rfl

@[simp]
theorem reject_rest (l : Lexer) (c : Char) : (l.reject c).rest = l.rest.drop 1 := rfl

theorem nextWithin_shorter (n : Nat) (l : Lexer) (h : (nextWithin n l).1.type ≠ eof) :
    (nextWithin n l).2.rest.length < l.rest.length := by
  induction n generalizing l with
  | zero => exact absurd rfl h
  | succ n ih =>
    unfold nextWithin at h ⊢
    split at h
    · exact absurd rfl h
    · next c cs hrest =>
      split at h
      · exact absurd rfl h
      · next hstall =>
        simp only [hstall]
        split at h
        · next hscan =>
          have := ih _ h
          simp [hrest] at this ⊢
          omega
        · next k hscan =>
          have := ih _ h
          simp [hrest] at this ⊢
          omega
        · next t k hscan =>
          have := scan_pos hscan
          simp [hrest]
          omega

theorem next_shorter (l : Lexer) (h : l.next.1.type ≠ eof) :
    l.next.2.rest.length < l.rest.length :=
  nextWithin_shorter _ l h

instance : TokenSource Lexer where
  next := next
  bound l := l.rest.length
  next_bound := next_shorter

end Lexer

end Descent.Calc
