import Descent.Yaml.Scalar
import Descent.Yaml.Tag

/-!
The tokens of a YAML text. A block collection begins where a line is indented
further than before and ends where one is indented less. Whether a node is a
key shows only at the colon after it: the place where a key may have begun is
kept, and the tokens that open the key are put in there afterwards. Such a key
stands on one line and is not longer than 1024 characters.
-/

namespace Descent.Yaml

inductive Token where
  | directive (directive : Directive)
  | documentStart
  | documentEnd
  | textEnd
  | blockSequence
  | blockMapping
  | blockEnd
  | flowSequence
  | flowSequenceEnd
  | flowMapping
  | flowMappingEnd
  | blockEntry
  | flowEntry
  | key
  | value
  | reference (name : String)
  | anchor (name : String)
  | tag (tag : WrittenTag)
  | scalar (style : Style) (text : String)
  deriving DecidableEq, Repr, Inhabited

/-- Where a key may have begun: the number of its first token, and the place.
Where a block mapping needs a key it is required to be one. -/
structure KeyPlace where
  token : Nat
  mark : Mark
  required : Bool
  deriving Repr

namespace KeyPlace

/-- Too far back to be the beginning of a key that ends here. -/
def isStale (k : KeyPlace) (m : Mark) : Bool :=
  k.mark.line < m.line || k.mark.index + 1024 < m.index

/-- Gives a place up; one that is required cannot be given up. -/
def drop? : Option KeyPlace → Option (Option KeyPlace)
  | none => some none
  | some k => if k.required then none else some none

/-- Gives a place up if it is stale. -/
def refresh? (m : Mark) : Option KeyPlace → Option (Option KeyPlace)
  | none => some none
  | some k => if k.isStale m then drop? (some k) else some (some k)

end KeyPlace

structure Scanner where
  cursor : Cursor
  tokens : Array Token := #[]
  /-- For every open block collection, the innermost first, one more than its
  column. -/
  margins : List Nat := []
  /-- The place of a key in the innermost open flow collection, or outside of
  all. -/
  key? : Option KeyPlace := none
  /-- Its like in the collections around, the innermost first. -/
  outerKeys : List (Option KeyPlace) := []
  /-- Whether a key may begin here. -/
  keyAllowed : Bool := true

namespace Scanner

def margin (s : Scanner) : Nat := s.margins.headD 0

/-- Inside a flow collection. -/
def inFlow (s : Scanner) : Bool := !s.outerKeys.isEmpty

def push (s : Scanner) (t : Token) : Scanner := { s with tokens := s.tokens.push t }

def move (s : Scanner) (n : Nat) : Scanner := { s with cursor := s.cursor.move n }

def allowKey (s : Scanner) (allowed : Bool) : Scanner := { s with keyAllowed := allowed }

/-- Passes over blanks, comments and line ends. After a line end outside of flow
collections a key may begin, and a tab is a blank only where none may. A byte
order mark at the start of a line counts for nothing. -/
def skipGap (flow : Bool) : List Char → Mark → (keyAllowed comment : Bool) → Cursor × Bool
  | [], m, allowed, _ => (⟨[], m⟩, allowed)
  | c :: cs, m, allowed, comment =>
    if isLineEnd c then skipGap flow cs m.down (allowed || !flow) false
    else if comment then skipGap flow cs (m.right 1) allowed true
    else if c = byteOrderMark ∧ m.column = 0 then skipGap flow cs (m.right 1) allowed false
    else if c = ' ' ∨ (c = '\t' ∧ (flow ∨ !allowed)) then skipGap flow cs (m.right 1) allowed false
    else if c = '#' then skipGap flow cs (m.right 1) allowed true
    else (⟨c :: cs, m⟩, allowed)

def skip (s : Scanner) : Scanner :=
  let (cursor, allowed) := skipGap s.inFlow s.cursor.rest s.cursor.mark s.keyAllowed false
  { s with cursor := cursor, keyAllowed := allowed }

/-- Gives up the places of keys that are too far back. -/
def refreshKeys? (s : Scanner) : Option Scanner := do
  let key? ← KeyPlace.refresh? s.cursor.mark s.key?
  let outerKeys ← s.outerKeys.mapM (KeyPlace.refresh? s.cursor.mark)
  return { s with key? := key?, outerKeys := outerKeys }

/-- Closes the block collections beyond a margin. -/
def closeBeyond (margin : Nat) : List Nat → Array Token → List Nat × Array Token
  | [], tokens => ([], tokens)
  | m :: ms, tokens =>
    if margin < m then closeBeyond margin ms (tokens.push .blockEnd) else (m :: ms, tokens)

def closeBlocks (s : Scanner) (margin : Nat) : Scanner :=
  if s.inFlow then s
  else
    let (margins, tokens) := closeBeyond margin s.margins s.tokens
    { s with margins := margins, tokens := tokens }

/-- Opens a block collection in a column that is further right than those that
are open, by a token at the given place. -/
def openBlock (s : Scanner) (column place : Nat) (t : Token) : Scanner :=
  if s.inFlow || column < s.margin then s
  else
    { s with
      margins := (column + 1) :: s.margins
      tokens := s.tokens.insertIdxIfInBounds place t }

def dropKey? (s : Scanner) : Option Scanner :=
  (KeyPlace.drop? s.key?).map fun key? => { s with key? := key? }

/-- A key may begin with the next token. -/
def saveKey? (s : Scanner) : Option Scanner :=
  if s.keyAllowed then
    s.dropKey?.map fun s =>
      { s with
        key? := some
          { token := s.tokens.size, mark := s.cursor.mark
            required := !s.inFlow && s.margin == s.cursor.column + 1 } }
  else some s

/-- A token of a single mark. -/
def mark (s : Scanner) (t : Token) : Scanner := (s.move 1).push t

/-- What divides documents closes everything that is open. -/
def divide? (s : Scanner) : Option Scanner := ((s.closeBlocks 0).dropKey?).map (·.allowKey false)

def directive? (s : Scanner) : Option Scanner := do
  let s ← s.divide?
  let (d, cursor) ← Yaml.directive? s.cursor
  return { s with cursor := cursor }.push (.directive d)

def divider? (s : Scanner) (t : Token) : Option Scanner :=
  s.divide?.map fun s => (s.move 3).push t

def textEnd? (s : Scanner) : Option Scanner := s.divide?.map (·.push .textEnd)

def openFlow? (s : Scanner) (t : Token) : Option Scanner :=
  s.saveKey?.map fun s =>
    ({ s with key? := none, outerKeys := s.key? :: s.outerKeys }.allowKey true).mark t

def closeFlow? (s : Scanner) (t : Token) : Option Scanner :=
  s.dropKey?.map fun s =>
    let s := match s.outerKeys with
      | [] => s
      | key? :: outer => { s with key? := key?, outerKeys := outer }
    (s.allowKey false).mark t

def flowEntry? (s : Scanner) : Option Scanner :=
  s.dropKey?.map fun s => (s.allowKey true).mark .flowEntry

def blockEntry? (s : Scanner) : Option Scanner :=
  if !s.inFlow && !s.keyAllowed then none
  else
    (s.openBlock s.cursor.column s.tokens.size .blockSequence).dropKey?.map fun s =>
      (s.allowKey true).mark .blockEntry

/-- A key that is announced by a question mark. -/
def openKey? (s : Scanner) : Option Scanner :=
  if !s.inFlow && !s.keyAllowed then none
  else
    (s.openBlock s.cursor.column s.tokens.size .blockMapping).dropKey?.map fun s =>
      (s.allowKey !s.inFlow).mark .key

/-- A value, after a key whose place is known or after one that was announced. -/
def value? (s : Scanner) : Option Scanner :=
  match s.key? with
  | some k =>
    let s := { s with tokens := s.tokens.insertIdxIfInBounds k.token .key, key? := none }
    some (((s.openBlock k.mark.column k.token .blockMapping).allowKey false).mark .value)
  | none =>
    if !s.inFlow && !s.keyAllowed then none
    else
      let s := s.openBlock s.cursor.column s.tokens.size .blockMapping
      some ((s.allowKey !s.inFlow).mark .value)

/-- A token that a key may begin with, read by `read?`. -/
def node? {α : Type} (s : Scanner) (read? : Cursor → Option (α × Cursor)) (token : α → Token) :
    Option Scanner := do
  let s ← s.saveKey?
  let (a, cursor) ← read? s.cursor
  return ({ s with cursor := cursor }.allowKey false).push (token a)

def plain? (s : Scanner) : Option Scanner := do
  let s ← s.saveKey?
  let p ← plain s.inFlow s.margin s.cursor
  return ({ s with cursor := p.after }.allowKey p.lineEnded).push (.scalar .plain p.text)

def block? (s : Scanner) (style : Style) : Option Scanner := do
  let s ← s.dropKey?
  let (text, cursor) ← block (style == .folded) s.margin s.cursor
  return ({ s with cursor := cursor }.allowKey true).push (.scalar style text)

/-- Marks that a plain scalar does not begin with. -/
def isReserved (c : Char) : Bool :=
  isFlowMark c || c == '#' || c == '&' || c == '*' || c == '!' || c == '|' || c == '>' ||
    c == '\'' || c == '"' || c == '%' || c == '@' || c == '\x60'

/-- Whether a plain scalar can begin here. -/
def plainAhead (flow : Bool) (c : Char) (cs : List Char) : Bool :=
  if c = '-' then !cs.head?.any isGap
  else if c = '?' ∨ c = ':' then !flow && !gapAhead cs
  else !isReserved c && !gapAhead (c :: cs)

/-- The token that begins with the character in front. -/
def token? (s : Scanner) (c : Char) (cs : List Char) : Option Scanner :=
  if c = '%' ∧ s.cursor.column = 0 then s.directive?
  else if s.cursor.atDivider '-' then s.divider? .documentStart
  else if s.cursor.atDivider '.' then s.divider? .documentEnd
  else if c = '[' then s.openFlow? .flowSequence
  else if c = '\x7b' then s.openFlow? .flowMapping
  else if c = ']' then s.closeFlow? .flowSequenceEnd
  else if c = '\x7d' then s.closeFlow? .flowMappingEnd
  else if c = ',' then s.flowEntry?
  else if c = '-' ∧ gapAhead cs then s.blockEntry?
  else if c = '?' ∧ (s.inFlow ∨ gapAhead cs) then s.openKey?
  else if c = ':' ∧ (s.inFlow ∨ gapAhead cs) then s.value?
  else if c = '*' then s.node? anchorName? .reference
  else if c = '&' then s.node? anchorName? .anchor
  else if c = '!' then s.node? (nodeTag? s.inFlow) .tag
  else if c = '|' ∧ !s.inFlow then s.block? .literal
  else if c = '>' ∧ !s.inFlow then s.block? .folded
  else if c = '\'' ∨ c = '"' then s.node? (quoted c) (.scalar .quoted)
  else if plainAhead s.inFlow c cs then s.plain?
  else none

/-- All tokens up to the end of the text, in at most so many steps. -/
def run : Nat → Scanner → Option (List Token)
  | 0, _ => none
  | n + 1, s =>
    match s.skip.refreshKeys? with
    | none => none
    | some s =>
      let s := s.closeBlocks (s.cursor.column + 1)
      match s.cursor.rest with
      | [] => s.textEnd?.map (·.tokens.toList)
      | c :: cs =>
        match s.token? c cs with
        | none => none
        | some s => run n s

end Scanner

/-- The tokens of a text; every step takes a character. -/
def tokens? (text : String) : Option (List Token) :=
  let cs := unifyLineEnds text.toList
  if cs.all isAllowed then Scanner.run (cs.length + 1) { cursor := ⟨cs, {}⟩ } else none

end Descent.Yaml
