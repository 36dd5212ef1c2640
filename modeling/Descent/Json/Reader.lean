import Descent.Json.Value

/-!
Reading JSON text. The reader is strict: nothing but blanks around the value, no
leading zeros, no control characters inside strings, and surrogates only in
pairs.
-/

namespace Descent.Json

def isBlank (c : Char) : Bool := c == ' ' || c == '\t' || c == '\n' || c == '\r'

def skipBlanks (cs : List Char) : List Char := cs.dropWhile isBlank

def hexValue? (c : Char) : Option Nat :=
  if '0' ≤ c ∧ c ≤ '9' then some (c.toNat - '0'.toNat)
  else if 'a' ≤ c ∧ c ≤ 'f' then some (c.toNat - 'a'.toNat + 10)
  else if 'A' ≤ c ∧ c ≤ 'F' then some (c.toNat - 'A'.toNat + 10)
  else none

def hexNumber? (cs : List Char) : Option Nat :=
  cs.foldl (fun n c => do return 16 * (← n) + (← hexValue? c)) (some 0)

def isHighSurrogate (n : Nat) : Bool := 0xD800 ≤ n && n ≤ 0xDBFF

def isLowSurrogate (n : Nat) : Bool := 0xDC00 ≤ n && n ≤ 0xDFFF

/-- The character of two surrogates that belong together. -/
def pairedChar (high low : Nat) : Char :=
  Char.ofNat (0x10000 + (high - 0xD800) * 0x400 + (low - 0xDC00))

def simpleEscape? : Char → Option Char
  | '"' => some '"'
  | '\\' => some '\\'
  | '/' => some '/'
  | 'b' => some '\x08'
  | 'f' => some '\x0c'
  | 'n' => some '\n'
  | 'r' => some '\r'
  | 't' => some '\t'
  | _ => none

/-- The rest of a string after its opening quote, and what comes after it. -/
def stringTail? : List Char → Option (List Char × List Char)
  | [] => none
  | '"' :: cs => some ([], cs)
  | '\\' :: 'u' :: a :: b :: c :: d :: cs =>
    match hexNumber? [a, b, c, d] with
    | none => none
    | some n =>
      if isLowSurrogate n then none
      else if isHighSurrogate n then
        match cs with
        | '\\' :: 'u' :: e :: f :: g :: h :: cs =>
          match hexNumber? [e, f, g, h] with
          | none => none
          | some m =>
            if isLowSurrogate m then
              (stringTail? cs).map fun (s, rest) => (pairedChar n m :: s, rest)
            else none
        | _ => none
      else (stringTail? cs).map fun (s, rest) => (Char.ofNat n :: s, rest)
  | '\\' :: c :: cs =>
    match simpleEscape? c with
    | none => none
    | some e => (stringTail? cs).map fun (s, rest) => (e :: s, rest)
  | c :: cs =>
    if c = '\\' ∨ c.toNat < 32 then none
    else (stringTail? cs).map fun (s, rest) => (c :: s, rest)

def decimalValue (digits : List Char) : Nat :=
  digits.foldl (fun n c => 10 * n + (c.toNat - '0'.toNat)) 0

/-- Splits off the digits in front, if there are any. -/
def digits? (cs : List Char) : Option (List Char × List Char) :=
  let ds := cs.takeWhile Char.isDigit
  if ds.isEmpty then none else some (ds, cs.dropWhile Char.isDigit)

/-- What comes after an optional fraction. -/
def afterFraction? : List Char → Option (List Char)
  | '.' :: cs => (digits? cs).map (·.2)
  | cs => some cs

/-- What comes after an optional exponent. -/
def afterExponent? : List Char → Option (List Char)
  | c :: cs =>
    if c = 'e' ∨ c = 'E' then
      match cs with
      | '+' :: cs => (digits? cs).map (·.2)
      | '-' :: cs => (digits? cs).map (·.2)
      | cs => (digits? cs).map (·.2)
    else some (c :: cs)
  | [] => some []

def number? (cs : List Char) : Option (Json × List Char) := do
  let negative := cs.head? == some '-'
  let (whole, afterWhole) ← digits? (if negative then cs.tail else cs)
  if 1 < whole.length && whole.head? == some '0' then none
  let rest ← afterExponent? (← afterFraction? afterWhole)
  let n := decimalValue whole
  if rest.length = afterWhole.length ∧ ¬(negative ∧ n = 0) then
    return (int (if negative then -n else n), rest)
  else
    return (decimal (String.ofList (cs.take (cs.length - rest.length))), rest)

mutual

/-- A value in front of a text; the first argument bounds the steps. -/
def value? : Nat → List Char → Option (Json × List Char)
  | 0, _ => none
  | n + 1, cs =>
    match skipBlanks cs with
    | 'n' :: 'u' :: 'l' :: 'l' :: rest => some (null, rest)
    | 't' :: 'r' :: 'u' :: 'e' :: rest => some (bool true, rest)
    | 'f' :: 'a' :: 'l' :: 's' :: 'e' :: rest => some (bool false, rest)
    | '"' :: rest => (stringTail? rest).map fun (s, rest) => (string (String.ofList s), rest)
    | '[' :: rest =>
      match skipBlanks rest with
      | ']' :: rest => some (array [], rest)
      | rest => (items? n rest).map fun (items, rest) => (array items, rest)
    | '\x7b' :: rest =>
      match skipBlanks rest with
      | '\x7d' :: rest => some (object [], rest)
      | rest => (members? n rest).map fun (members, rest) => (object members, rest)
    | rest => number? rest

/-- Items up to the closing bracket. -/
def items? : Nat → List Char → Option (List Json × List Char)
  | 0, _ => none
  | n + 1, cs =>
    match value? n cs with
    | none => none
    | some (v, rest) =>
      match skipBlanks rest with
      | ']' :: rest => some ([v], rest)
      | ',' :: rest => (items? n rest).map fun (items, rest) => (v :: items, rest)
      | _ => none

/-- Members up to the closing brace. -/
def members? : Nat → List Char → Option (List (String × Json) × List Char)
  | 0, _ => none
  | n + 1, cs =>
    match skipBlanks cs with
    | '"' :: rest =>
      match stringTail? rest with
      | none => none
      | some (key, rest) =>
        match skipBlanks rest with
        | ':' :: rest =>
          match value? n rest with
          | none => none
          | some (v, rest) =>
            let member := (String.ofList key, v)
            match skipBlanks rest with
            | '\x7d' :: rest => some ([member], rest)
            | ',' :: rest => (members? n rest).map fun (ms, rest) => (member :: ms, rest)
            | _ => none
        | _ => none
    | _ => none

end

/-- Every step but each second takes a character. -/
def parse? (text : String) : Option Json :=
  let cs := text.toList
  match value? (2 * cs.length + 2) cs with
  | some (v, rest) => if (skipBlanks rest).isEmpty then some v else none
  | none => none

end Descent.Json
