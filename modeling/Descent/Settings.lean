import Descent.Failure
import Descent.Json.Reader
import Descent.Parser.State
import Descent.Text
import Descent.Yaml.Mapping

/-!
What can be set about a front end: how many contexts the prediction cache may
hold, how deep rules may nest, and the rule to start with. Settings are read from
text, as JSON or as YAML. Whatever a document leaves out keeps its default; a key
that is unknown or comes twice, and a value of the wrong kind, spoil the document.
-/

namespace Descent

structure Settings where
  cacheThreshold : Nat := defaultThreshold
  maxRuleDepth : Nat := Parser.defaultMaxDepth
  startRule? : Option String := none
  deriving DecidableEq, Repr, Inhabited

namespace Settings

/-- The rule a parse starts with: the grammar's own unless another is set. -/
def startRule (s : Settings) (own : String) : String := s.startRule?.getD own

/-- A document as pairs of a key and a value, read into settings. -/
def ofMembers? {α : Type} (word? : α → Option Nat) (rule? : α → Option (Option String)) :
    List (String × α) → Option Settings
  | [] => some {}
  | (key, v) :: rest =>
    if rest.any (fun m => m.1 == key) then none
    else
      match ofMembers? word? rule? rest with
      | none => none
      | some s =>
        if key = "cache_threshold" then (word? v).map fun n => { s with cacheThreshold := n }
        else if key = "max_rule_depth" then (word? v).map fun n => { s with maxRuleDepth := n }
        else if key = "start_rule" then (rule? v).map fun r => { s with startRule? := r }
        else none

/-- The names of the settings in their order. -/
def keys : List String := ["cache_threshold", "max_rule_depth", "start_rule"]

def jsonRule? : Json → Option (Option String)
  | .null => some none
  | .string s => some (some s)
  | _ => none

/-- An object by name, or a list in order. -/
def ofJson? : Json → Option Settings
  | .object members => ofMembers? Json.word? jsonRule? members
  | .array items =>
    if keys.length < items.length then none
    else ofMembers? Json.word? jsonRule? (keys.zip items)
  | _ => none

/-- Digits of a base up to sixteen. -/
def digitsIn? (base : Nat) (cs : List Char) : Option Nat :=
  if cs.isEmpty then none
  else cs.foldl (fun n c => do
    let d ← Json.hexValue? c
    if d < base then return base * (← n) + d else none) (some 0)

/-- A decimal number with an optional plus sign, or one in base sixteen, eight
or two. More than one digit does not begin with a zero. -/
def numberValue? (text : String) : Option Nat :=
  let cs := text.toList
  let body := if cs.head? = some '+' then cs.tail else cs
  match body with
  | '0' :: 'x' :: ds => digitsIn? 16 ds
  | '0' :: 'o' :: ds => digitsIn? 8 ds
  | '0' :: 'b' :: ds => digitsIn? 2 ds
  | '0' :: _ :: _ => none
  | ds => digitsIn? 10 ds

/-- A number is written plainly, or in a literal block that is tagged as one. -/
def yamlWord? (s : Yaml.Scalar) : Option Nat :=
  if s.style = .plain ∨ (s.style = .literal ∧ s.tag? = some .int) then
    match numberValue? s.text with
    | some n => if n < 18446744073709551616 then some n else none
    | none => none
  else none

/-- The plain spellings of nothing. -/
def nulls : List String := ["~", "null", "Null", "NULL"]

/-- A plain scalar that is tagged as nothing has to spell it; without a tag it
may also be empty. Every other scalar is a name. -/
def yamlRule? (s : Yaml.Scalar) : Option (Option String) :=
  if s.style ≠ .plain then some (some s.text)
  else
    match s.tag? with
    | none => some (if s.text.isEmpty || nulls.contains s.text then none else some s.text)
    | some tag =>
      if tag ≠ .null then some (some s.text)
      else if nulls.contains s.text then some none
      else none

def refused : Failure := .settings "not a document of settings"

def readJson (text : String) : Except Failure Settings :=
  match (Json.parse? text).bind ofJson? with
  | some s => .ok s
  | none => .error refused

/-- A text of white space is an empty document. -/
def readYaml (text : String) : Except Failure Settings :=
  if Text.isBlank text then .ok {}
  else
    match Yaml.entries? text with
    | none => .error refused
    | some entries =>
      match ofMembers? yamlWord? yamlRule? (entries.map fun e => (e.1.text, e.2)) with
      | some s => .ok s
      | none => .error refused

end Settings

end Descent
