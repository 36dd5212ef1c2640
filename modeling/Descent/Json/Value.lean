/-!
JSON values. Numbers are integers, or decimals that are kept as they are spelled;
a negative zero is a decimal. Objects keep their members in order and may name
one more than once. Values are printed in the indented form: two blanks a level,
a line for every item and every member, empty lists and objects closed at once.
-/

namespace Descent

inductive Json where
  | null
  | bool (b : Bool)
  | int (n : Int)
  | decimal (spelling : String)
  | string (s : String)
  | array (items : List Json)
  | object (members : List (String × Json))
  deriving Repr, Inhabited

namespace Json

def ofNat (n : Nat) : Json := int n

/-- The values a list of members gives to a key. -/
def valuesOf (key : String) (members : List (String × Json)) : List Json :=
  (members.filter fun m => m.1 == key).map (·.2)

/-- The value of a key that is there exactly once. -/
def member? (key : String) (members : List (String × Json)) : Option Json :=
  match valuesOf key members with
  | [v] => some v
  | _ => none

def string? : Json → Option String
  | string s => some s
  | _ => none

/-- A whole number that fits 64 bits without a sign. -/
def word? : Json → Option Nat
  | int n => if 0 ≤ n ∧ n < 18446744073709551616 then some n.toNat else none
  | _ => none

def hexDigit (n : Nat) : Char := (Nat.toDigits 16 (n % 16)).headD '0'

/-- Quotes, backslashes and control characters are escaped, nothing else. -/
def quoteChar (c : Char) : List Char :=
  if c = '"' then ['\\', '"']
  else if c = '\\' then ['\\', '\\']
  else if c = '\x08' then ['\\', 'b']
  else if c = '\x0c' then ['\\', 'f']
  else if c = '\n' then ['\\', 'n']
  else if c = '\r' then ['\\', 'r']
  else if c = '\t' then ['\\', 't']
  else if c.toNat < 32 then
    ['\\', 'u', '0', '0', hexDigit (c.toNat / 16), hexDigit c.toNat]
  else [c]

def quote (s : String) : String :=
  "\"" ++ String.ofList (s.toList.flatMap quoteChar) ++ "\""

def newline (level : Nat) : String := "\n" ++ String.ofList (List.replicate (2 * level) ' ')

mutual

/-- A value that starts on a line of the given level. -/
def pretty (level : Nat) : Json → String
  | null => "null"
  | bool true => "true"
  | bool false => "false"
  | int n => toString n
  | decimal spelling => spelling
  | string s => quote s
  | array [] => "[]"
  | array (i :: items) =>
    "[" ++ newline (level + 1) ++ pretty (level + 1) i ++ prettyItems (level + 1) items ++
      newline level ++ "]"
  | object [] => "\x7b\x7d"
  | object ((key, v) :: members) =>
    "\x7b" ++ newline (level + 1) ++ quote key ++ ": " ++ pretty (level + 1) v ++
      prettyMembers (level + 1) members ++ newline level ++ "\x7d"

def prettyItems (level : Nat) : List Json → String
  | [] => ""
  | i :: items => "," ++ newline level ++ pretty level i ++ prettyItems level items

def prettyMembers (level : Nat) : List (String × Json) → String
  | [] => ""
  | (key, v) :: members =>
    "," ++ newline level ++ quote key ++ ": " ++ pretty level v ++ prettyMembers level members

end

end Json

end Descent
