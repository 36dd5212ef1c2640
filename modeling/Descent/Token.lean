/-!
Tokens, sets of their types, and their names. A token type is an integer that a
grammar assigns: grammars number their own types from 1, and `-1` stands for the
end of the input. Positions are one-based lines, zero-based columns in
characters, and byte offsets.
-/

namespace Descent

abbrev TokenType := Int

/-- The type of the token that ends every token stream. -/
def eof : TokenType := -1

structure Token where
  type : TokenType
  text : String
  line : Nat
  column : Nat
  start : Nat
  stop : Nat
  index : Nat
  deriving DecidableEq, Repr, Inhabited

/-- Line breaks and tabs are written as a backslash and a letter. -/
def visibleChar (c : Char) : List Char :=
  if c = '\n' then ['\\', 'n']
  else if c = '\r' then ['\\', 'r']
  else if c = '\t' then ['\\', 't']
  else [c]

def visible (text : String) : String :=
  String.ofList (text.toList.flatMap visibleChar)

namespace Token

def isEof (t : Token) : Bool := t.type == eof

/-- The text of a token inside a message: quoted, on one line. -/
def display (t : Token) : String :=
  if t.isEof then "'<EOF>'" else "'" ++ visible t.text ++ "'"

/-- The token that ends a text of `size` bytes. -/
def atEnd (size line column : Nat) : Token :=
  { type := eof, text := "<EOF>", line := line, column := column,
    start := size, stop := size, index := 0 }

end Token

section Sets

/-! Sets are packed into 64-bit words. The end of the input has bit 0 and the type `t`
has bit `t + 1`; a type below the end of the input, and the largest 32-bit type, whose
successor does not fit 32 bits, have no bit and are ignored. The last word of a set that
is built here is never zero, so equal words mean equal members. -/

structure TokenSet where
  words : List UInt64
  deriving DecidableEq, Repr, Inhabited

namespace TokenSet

def empty : TokenSet := ⟨[]⟩

/-- The largest type that has a bit. -/
def maxType : Int := 2147483646

def bit? (t : TokenType) : Option Nat :=
  if -1 ≤ t ∧ t ≤ maxType then some (t + 1).toNat else none

def mask (bit : Nat) : UInt64 := 1 <<< UInt64.ofNat (bit % 64)

/-- Sets `bits` in the word at the given place, with zero words up to it. -/
def orAt (bits : UInt64) : Nat → List UInt64 → List UInt64
  | 0, [] => [bits]
  | 0, w :: ws => (w ||| bits) :: ws
  | n + 1, [] => 0 :: orAt bits n []
  | n + 1, w :: ws => w :: orAt bits n ws

def insert (s : TokenSet) (t : TokenType) : TokenSet :=
  match bit? t with
  | none => s
  | some b => ⟨orAt (mask b) (b / 64) s.words⟩

def ofList (types : List TokenType) : TokenSet := types.foldl insert empty

def contains (s : TokenSet) (t : TokenType) : Bool :=
  match bit? t with
  | none => false
  | some b =>
    match s.words[b / 64]? with
    | none => false
    | some w => w &&& mask b != 0

/-- Word by word; the words beyond the shorter list are those of the longer. -/
def orWords : List UInt64 → List UInt64 → List UInt64
  | [], vs => vs
  | ws, [] => ws
  | w :: ws, v :: vs => (w ||| v) :: orWords ws vs

def union (s t : TokenSet) : TokenSet := ⟨orWords s.words t.words⟩

def isEmpty (s : TokenSet) : Bool := s.words.isEmpty

/-- The places of the bits of a word, lowest first. -/
def bitsOf (w : UInt64) : List Nat :=
  (List.range 64).filter fun i => w &&& mask i != 0

def bitsFrom (base : Nat) : List UInt64 → List Nat
  | [] => []
  | w :: ws => (bitsOf w).map (base + ·) ++ bitsFrom (base + 64) ws

/-- The members, ascending. -/
def toList (s : TokenSet) : List TokenType :=
  (bitsFrom 0 s.words).map fun b : Nat => (b : Int) - 1

def countBits : List UInt64 → Nat
  | [] => 0
  | w :: ws => (bitsOf w).length + countBits ws

def size (s : TokenSet) : Nat := countBits s.words

/-- The members as numbers, always in braces. -/
def render (s : TokenSet) : String :=
  "\x7b" ++ ", ".intercalate (s.toList.map toString) ++ "\x7d"

end TokenSet

end Sets

section Names

/-! A literal name is the fixed spelling of a type in quotes, a symbolic name is its name
in trees and listings. Both tables of a vocabulary are indexed by token type. -/

structure Vocabulary where
  literals : List (Option String)
  symbols : List (Option String)
  deriving DecidableEq, Repr, Inhabited

namespace Vocabulary

def lookup (table : List (Option String)) (t : TokenType) : Option String :=
  if 0 ≤ t then table[t.toNat]?.join else none

def literal? (v : Vocabulary) (t : TokenType) : Option String := lookup v.literals t

/-- The end of the input is named in every vocabulary. -/
def symbol? (v : Vocabulary) (t : TokenType) : Option String :=
  if t = eof then some "EOF" else lookup v.symbols t

/-- The name of a type in a message: its spelling, else its symbol, else its number. -/
def displayName (v : Vocabulary) (t : TokenType) : String :=
  if t = eof then "<EOF>"
  else ((v.literal? t).or (v.symbol? t)).getD (toString t)

/-- The largest type either table has room for, at most the largest 32-bit
number less one. -/
def maxType (v : Vocabulary) : Int :=
  min (max v.symbols.length v.literals.length : Nat) 2147483647 - 1

/-- One token a line: position, symbol and quoted text. -/
def listing (v : Vocabulary) (tokens : List Token) : String :=
  String.join (tokens.map fun t =>
    let symbol := (v.symbol? t.type).getD (toString t.type)
    s!"{t.line}:{t.column}\t{symbol}\t{t.display}\n")

end Vocabulary

/-- The members as a message names them: a single member bare, several in braces. -/
def TokenSet.display (s : TokenSet) (v : Vocabulary) : String :=
  match s.toList.map v.displayName with
  | [] => "\x7b\x7d"
  | [name] => name
  | names => "\x7b" ++ ", ".intercalate names ++ "\x7d"

end Names

end Descent
