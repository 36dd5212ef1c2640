import Descent.Yaml.Token

/-!
Documents that hold one flat mapping, or nothing. The entries of the mapping are
scalars, or aliases of scalars that have an anchor. Every other document is
refused, and so is a text with more than one document.
-/

namespace Descent.Yaml

structure Scalar where
  style : Style
  tag? : Option Tag
  text : String
  deriving DecidableEq, Repr, Inhabited

/-- What is left out. -/
def Scalar.missing : Scalar := ⟨.plain, none, ""⟩

/-- What may be a key or a value. -/
inductive Node where
  | scalar (anchor? : Option String) (scalar : Scalar)
  | reference (name : String)
  deriving DecidableEq, Repr, Inhabited

def Node.missing : Node := .scalar none .missing

abbrev Entry := Node × Node

structure Properties where
  anchor? : Option String := none
  tag? : Option WrittenTag := none
  rest : List Token

/-- An anchor and a tag, in either order. -/
def properties : List Token → Properties
  | .anchor a :: .tag t :: rest => ⟨some a, some t, rest⟩
  | .anchor a :: rest => ⟨some a, none, rest⟩
  | .tag t :: .anchor a :: rest => ⟨some a, some t, rest⟩
  | .tag t :: rest => ⟨none, some t, rest⟩
  | rest => ⟨none, none, rest⟩

namespace Properties

def isEmpty (p : Properties) : Bool := p.anchor?.isNone && p.tag?.isNone

/-- The tag, none if there is none. -/
def resolve? (p : Properties) (handles : Handles) : Option (Option Tag) :=
  match p.tag? with
  | none => some none
  | some t => (t.resolve? handles).map some

end Properties

/-- Tokens that begin a collection. -/
def Token.opens : Token → Bool
  | .blockSequence | .blockMapping | .flowSequence | .flowMapping | .blockEntry => true
  | _ => false

/-- A scalar or an alias. With an anchor or a tag the scalar may be missing. -/
def node? (handles : Handles) (tokens : List Token) : Option (Node × List Token) :=
  match tokens with
  | .reference name :: rest => some (.reference name, rest)
  | _ =>
    let p := properties tokens
    match p.resolve? handles with
    | none => none
    | some tag? =>
      match p.rest with
      | .scalar style text :: rest => some (.scalar p.anchor? ⟨style, tag?, text⟩, rest)
      | rest =>
        if p.isEmpty || rest.head?.any Token.opens then none
        else some (.scalar p.anchor? { Scalar.missing with tag? := tag? }, rest)

/-- A node, or nothing before one of the tokens that close its place. -/
def nodeBefore? (closes : Token → Bool) (handles : Handles) (tokens : List Token) :
    Option (Node × List Token) :=
  if tokens.head?.any closes then some (.missing, tokens) else node? handles tokens

/-- The value of an entry, if it has one. -/
def valueBefore? (closes : Token → Bool) (handles : Handles) :
    List Token → Option (Node × List Token)
  | .value :: rest => nodeBefore? closes handles rest
  | rest => some (.missing, rest)

def closesBlockNode (t : Token) : Bool := t == .key || t == .value || t == .blockEnd

/-- The entries of a block mapping after its first token, and what comes after
it. The first argument bounds the entries. -/
def blockEntries? (handles : Handles) : Nat → List Token → Option (List Entry × List Token)
  | 0, _ => none
  | n + 1, tokens =>
    match tokens with
    | .blockEnd :: rest => some ([], rest)
    | .key :: rest => do
      let (k, rest) ← nodeBefore? closesBlockNode handles rest
      let (v, rest) ← valueBefore? closesBlockNode handles rest
      let (es, rest) ← blockEntries? handles n rest
      return ((k, v) :: es, rest)
    | _ => none

def closesFlowKey (t : Token) : Bool := t == .value || t == .flowEntry || t == .flowMappingEnd

def closesFlowValue (t : Token) : Bool := t == .flowEntry || t == .flowMappingEnd

/-- One entry of a flow mapping. A node that is no key has no value. -/
def flowEntry? (handles : Handles) : List Token → Option (Entry × List Token)
  | .key :: rest => do
    let (k, rest) ← nodeBefore? closesFlowKey handles rest
    let (v, rest) ← valueBefore? closesFlowValue handles rest
    return ((k, v), rest)
  | rest => (node? handles rest).map fun (k, rest) => ((k, .missing), rest)

/-- The entries of a flow mapping after its first token, and what comes after
it. -/
def flowEntries? (handles : Handles) : Nat → List Token → Option (List Entry × List Token)
  | 0, _ => none
  | n + 1, tokens =>
    match tokens with
    | .flowMappingEnd :: rest => some ([], rest)
    | _ => do
      let (e, rest) ← flowEntry? handles tokens
      match rest with
      | .flowMappingEnd :: rest => return ([e], rest)
      | .flowEntry :: rest =>
        let (es, rest) ← flowEntries? handles n rest
        return (e :: es, rest)
      | _ => none

/-- A document: the anchor of its mapping and the entries, none for an empty
one. -/
structure Document where
  anchor? : Option String := none
  entries : List Entry := []

/-- The mapping of a document, or an anchor and a tag without anything. -/
def root? (handles : Handles) (tokens : List Token) : Option (Document × List Token) :=
  let p := properties tokens
  match p.resolve? handles with
  | none => none
  | some _ =>
    match p.rest with
    | .blockMapping :: rest =>
      (blockEntries? handles (rest.length + 1) rest).map fun (es, rest) => (⟨p.anchor?, es⟩, rest)
    | .flowMapping :: rest =>
      (flowEntries? handles (rest.length + 1) rest).map fun (es, rest) => (⟨p.anchor?, es⟩, rest)
    | .scalar .. :: _ => none
    | rest => if p.isEmpty then none else some ({}, rest)

def directivesOf : List Token → List Directive × List Token
  | .directive d :: rest =>
    let (ds, rest) := directivesOf rest
    (d :: ds, rest)
  | rest => ([], rest)

/-- Tokens that stand between documents. -/
def Token.divides : Token → Bool
  | .directive _ | .documentStart | .documentEnd | .textEnd => true
  | _ => false

/-- The one document of a text, and what comes after it. -/
def document? (tokens : List Token) : Option (Document × List Token) :=
  match tokens with
  | .textEnd :: _ => some ({}, tokens)
  | _ =>
    match directivesOf tokens with
    | (ds, .documentStart :: rest) =>
      match Handles.ofDirectives? ds with
      | none => none
      | some handles =>
        if rest.head?.any Token.divides then some ({}, rest) else root? handles rest
    | ([], rest) => root? .standard rest
    | _ => none

/-- Nothing follows the document but marks of its end. -/
def closes (tokens : List Token) : Bool := tokens.dropWhile (· == .documentEnd) == [.textEnd]

/-- The anchors of a document: each name with its number, and each number with
the scalar it stands for, the latest first; the mapping itself is no scalar. -/
structure Anchors where
  numbers : List (String × Nat) := []
  targets : List (Nat × Option Scalar) := []

namespace Anchors

/-- A name takes the number of names so far. A name that comes once more changes
its number and not how many names there are, so the next new name gets the same
number, and then both stand for its scalar. -/
def add (a : Anchors) (name : String) (target? : Option Scalar) : Anchors :=
  let number := a.numbers.length
  { numbers := (name, number) :: a.numbers.filter (·.1 != name)
    targets := (number, target?) :: a.targets }

def addAll? (a : Anchors) (anchor? : Option String) (target? : Option Scalar) : Anchors :=
  match anchor? with
  | none => a
  | some name => a.add name target?

end Anchors

/-- A node whose alias is replaced by the number of the anchor. -/
abbrev Numbered := Scalar ⊕ Nat

def numberNode? (a : Anchors) : Node → Option (Numbered × Anchors)
  | .scalar anchor? s => some (.inl s, a.addAll? anchor? (some s))
  | .reference name => (a.numbers.lookup name).map fun n => (.inr n, a)

def numberEntries? (a : Anchors) : List Entry → Option (List (Numbered × Numbered) × Anchors)
  | [] => some ([], a)
  | (k, v) :: es => do
    let (k, a) ← numberNode? a k
    let (v, a) ← numberNode? a v
    let (es, a) ← numberEntries? a es
    return ((k, v) :: es, a)

def Anchors.resolve? (a : Anchors) : Numbered → Option Scalar
  | .inl s => some s
  | .inr n => (a.targets.lookup n).join

/-- The entries of a document with every alias replaced by what it stands for. -/
def Document.resolve? (d : Document) : Option (List (Scalar × Scalar)) := do
  let (es, a) ← numberEntries? (Anchors.addAll? {} d.anchor? none) d.entries
  es.mapM fun (k, v) => do return (← a.resolve? k, ← a.resolve? v)

/-- The entries of the one mapping in a text, none for an empty text. -/
def entries? (text : String) : Option (List (Scalar × Scalar)) := do
  let (d, rest) ← document? (← tokens? text)
  if closes rest then d.resolve? else none

end Descent.Yaml
