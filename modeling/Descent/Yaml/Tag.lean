import Descent.Json.Reader
import Descent.Yaml.Cursor

/-!
Names of nodes: anchors, which aliases refer to, and tags, which say what a node
is. A tag is a sequence of octets. It is written out in full, or as a handle and
a suffix; the directives of a document say what its handles stand for.
-/

namespace Descent.Yaml

abbrev Tag := List UInt8

namespace Tag

def ofString (s : String) : Tag := s.toUTF8.toList

/-- What the standard handle stands for. -/
def standard : Tag := ofString "tag:yaml.org,2002:"

def null : Tag := standard ++ ofString "null"

def int : Tag := standard ++ ofString "int"

/-- The tag of a node that is not to be looked into. -/
def bare : Tag := ofString "!"

/-- An octet of zero ends a tag. -/
def untilZero (t : Tag) : Tag := t.takeWhile (· != 0)

end Tag

/-- Letters, digits, hyphens and underscores of ASCII. -/
def isWord (c : Char) : Bool := c.isAlphanum || c == '_' || c == '-'

/-- The name after the mark of an anchor or an alias. -/
def anchorName? (c : Cursor) : Option (String × Cursor) :=
  let c := c.move 1
  let name := c.rest.takeWhile isWord
  let after := c.move name.length
  let closed := after.atGap ||
    after.head?.any fun d => ['?', ':', ',', ']', '\x7d', '%', '@', '\x60'].contains d
  if name.isEmpty || !closed then none else some (String.ofList name, after)

/-- The characters of a tag; a tag that is written out in full may hold some
flow marks as well. -/
def isTagChar (full : Bool) (c : Char) : Bool :=
  isWord c ||
    [';', '/', '?', ':', '@', '&', '=', '+', '$', '.', '%', '!', '~', '*', '\'', '(', ')'].contains
      c ||
    (full && (c == ',' || c == '[' || c == ']'))

/-- The octet that a percent sign and two hexadecimal digits stand for. -/
def octet? : List Char → Option UInt8
  | '%' :: a :: b :: _ => (Json.hexNumber? [a, b]).map (·.toUInt8)
  | _ => none

/-- How many octets a character has, by the first of them. -/
def octetCount? (first : UInt8) : Option Nat :=
  if first &&& 0x80 == 0x00 then some 1
  else if first &&& 0xE0 == 0xC0 then some 2
  else if first &&& 0xF0 == 0xE0 then some 3
  else if first &&& 0xF8 == 0xF0 then some 4
  else none

/-- The octets of one escaped character. -/
def escapedOctets? (cs : List Char) : Option (List UInt8) := do
  let first ← octet? cs
  let count ← octetCount? first
  let further ← (List.range (count - 1)).mapM fun i => do
    let octet ← octet? (cs.drop (3 * (i + 1)))
    if octet &&& 0xC0 == 0x80 then some octet else none
  return first :: further

/-- The octets of a tag as far as it goes, last first. The first argument bounds
the characters. -/
def tagTail (full : Bool) : Nat → List UInt8 → Cursor → Option (List UInt8 × Cursor)
  | 0, _, _ => none
  | n + 1, read, c =>
    match c.rest with
    | [] => some (read, c)
    | d :: _ =>
      if !isTagChar full d then some (read, c)
      else if d = '%' then
        match escapedOctets? c.rest with
        | none => none
        | some octets => tagTail full n (octets.reverse ++ read) (c.move (3 * octets.length))
      else tagTail full n (d.toNat.toUInt8 :: read) (c.move 1)

def tagText? (full : Bool) (c : Cursor) : Option (Tag × Cursor) :=
  (tagTail full (c.rest.length + 1) [] c).map fun (read, c) => (read.reverse, c)

/-- The text of a tag, which is not empty. -/
def someTagText? (full : Bool) (c : Cursor) : Option (Tag × Cursor) :=
  match tagText? full c with
  | some (text, c) => if text.isEmpty then none else some (text.untilZero, c)
  | none => none

/-- An exclamation mark, the word after it, and one more mark if it is there. -/
def tagHandle (c : Cursor) : List Char × Cursor :=
  let word := (c.rest.drop 1).takeWhile isWord
  let after := c.move (1 + word.length)
  if after.head? = some '!' then ('!' :: word ++ ['!'], after.move 1)
  else ('!' :: word, after)

def isHandle (handle : List Char) : Bool := 2 ≤ handle.length && handle.getLast? == some '!'

/-- A tag as it is written: its handle, which is empty for a full tag, and the
rest of it. -/
structure WrittenTag where
  handle : String
  suffix : Tag
  deriving DecidableEq, Repr, Inhabited

def writtenTag? (c : Cursor) : Option (WrittenTag × Cursor) :=
  if (c.rest.drop 1).head? = some '<' then
    match someTagText? true (c.move 2) with
    | some (text, c) => if c.head? = some '>' then some (⟨"", text⟩, c.move 1) else none
    | none => none
  else
    let (handle, after) := tagHandle c
    if isHandle handle then
      (someTagText? false after).map fun (text, c) => (⟨String.ofList handle, text⟩, c)
    else
      (tagText? false after).map fun (text, c) =>
        let suffix := (Tag.ofString (String.ofList (handle.drop 1)) ++ text).untilZero
        (if suffix.isEmpty then ⟨"", .bare⟩ else ⟨"!", suffix⟩, c)

/-- The tag of a node, with a gap after it or, in a flow collection, a comma. -/
def nodeTag? (flow : Bool) (c : Cursor) : Option (WrittenTag × Cursor) :=
  match writtenTag? c with
  | some (t, c) => if c.atGap || (flow && c.head? == some ',') then some (t, c) else none
  | none => none

inductive Directive where
  | version (major minor : Nat)
  /-- What a handle stands for. -/
  | handle (handle : String) (meaning : Tag)
  deriving DecidableEq, Repr

namespace Directive

def isVersion : Directive → Bool
  | version .. => true
  | handle .. => false

/-- Whether it says what this handle stands for. -/
def defines (name : String) : Directive → Bool
  | version .. => false
  | handle other _ => other == name

end Directive

/-- A number of at most nine digits. -/
def versionNumber? (c : Cursor) : Option (Nat × Cursor) :=
  let digits := c.rest.takeWhile Char.isDigit
  if digits.isEmpty || 9 < digits.length then none
  else some (Json.decimalValue digits, c.move digits.length)

def version? (c : Cursor) : Option (Directive × Cursor) := do
  let (major, c) ← versionNumber? (c.skipWhile isGap)
  if c.head? ≠ some '.' then none
  let (minor, c) ← versionNumber? (c.move 1)
  return (.version major minor, c)

def handleMeaning? (c : Cursor) : Option (Directive × Cursor) :=
  let c := c.skipWhile isGap
  if c.head? ≠ some '!' then none
  else
    let (handle, c) := tagHandle c
    if handle ≠ ['!'] ∧ !isHandle handle then none
    else if !c.head?.any isGap then none
    else
      match someTagText? true (c.skipWhile isGap) with
      | some (text, c) =>
        if c.atGap then some (.handle (String.ofList handle) text, c) else none
      | none => none

/-- A directive, from its percent sign to the end of its line. -/
def directive? (c : Cursor) : Option (Directive × Cursor) :=
  let c := c.move 1
  let name := c.rest.takeWhile isWord
  let after := c.move name.length
  let read? :=
    if !after.atGap then none
    else if name = ['Y', 'A', 'M', 'L'] then version? after
    else if name = ['T', 'A', 'G'] then handleMeaning? after
    else none
  match read? with
  | none => none
  | some (d, c) => c.finishLine?.map fun c => (d, c)

/-- What the handles of a document stand for. -/
abbrev Handles := List (String × Tag)

/-- The handles that need no directive. -/
def Handles.standard : Handles := [("!", .bare), ("!!", .standard)]

/-- The handles of a document with these directives: one version at most, a known
one, and no handle twice. -/
def Handles.ofDirectives? : List Directive → Option Handles
  | [] => some .standard
  | .version major minor :: ds =>
    if major ≠ 1 ∨ (minor ≠ 1 ∧ minor ≠ 2) then none
    else if ds.any Directive.isVersion then none
    else ofDirectives? ds
  | .handle handle meaning :: ds =>
    if ds.any (Directive.defines handle) then none
    else (ofDirectives? ds).map ((handle, meaning) :: ·)

/-- The tag that a written one means; its handle has to be known. -/
def WrittenTag.resolve? (t : WrittenTag) (handles : Handles) : Option Tag :=
  if t.handle.isEmpty then some t.suffix
  else (handles.lookup t.handle).map (· ++ t.suffix)

end Descent.Yaml
