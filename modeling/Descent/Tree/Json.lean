import Descent.Frontend
import Descent.Json.Value

/-!
Parse trees, syntax errors and parse outputs as JSON values, and back. A tree is
an object with one member, which says what the node is and holds an object with
the fields of the node; a lenient reader takes a list of the fields in order as
well. Members nobody asked for are passed over. Reading a terminal takes its
text as it is.
-/

namespace Descent

namespace ParseTree

mutual

def toJson : ParseTree → Json
  | rule name children =>
    .object [("Rule", .object [("name", .string name), ("children", .array (toJsonAll children))])]
  | terminal symbol text =>
    .object [("Terminal", .object [("symbol", .string symbol), ("text", .string text)])]

def toJsonAll : List ParseTree → List Json
  | [] => []
  | t :: ts => t.toJson :: toJsonAll ts

end

def terminalOf? (lenient : Bool) : Json → Option ParseTree
  | .object members =>
    match Json.member? "symbol" members, Json.member? "text" members with
    | some (.string symbol), some (.string text) => some (terminal symbol text)
    | _, _ => none
  | .array [.string symbol, .string text] => if lenient then some (terminal symbol text) else none
  | _ => none

mutual

def ofJson? (lenient : Bool) : Json → Option ParseTree
  | .object [(tag, content)] =>
    if tag = "Rule" then ruleOf? lenient content
    else if tag = "Terminal" then terminalOf? lenient content
    else none
  | _ => none

def ruleOf? (lenient : Bool) : Json → Option ParseTree
  | .object members =>
    match Json.member? "name" members, childrenIn lenient members with
    | some (.string name), [some children] => some (rule name children)
    | _, _ => none
  | .array [.string name, children] =>
    if lenient then (childrenOf? lenient children).map (rule name) else none
  | _ => none

def childrenOf? (lenient : Bool) : Json → Option (List ParseTree)
  | .array items => ofJsonAll? lenient items
  | _ => none

/-- What each member of that name holds. -/
def childrenIn (lenient : Bool) : List (String × Json) → List (Option (List ParseTree))
  | [] => []
  | (key, v) :: members =>
    if key = "children" then childrenOf? lenient v :: childrenIn lenient members
    else childrenIn lenient members

def ofJsonAll? (lenient : Bool) : List Json → Option (List ParseTree)
  | [] => some []
  | v :: vs =>
    match ofJson? lenient v, ofJsonAll? lenient vs with
    | some t, some ts => some (t :: ts)
    | _, _ => none

end

end ParseTree

namespace SyntaxError

def toJson (e : SyntaxError) : Json :=
  .object [("message", (e.message?.map Json.string).getD .null), ("line", .ofNat e.line),
    ("column", .ofNat e.column)]

def ofFields? (message line column : Json) : Option SyntaxError := do
  let message? ← match message with
    | .null => some none
    | .string s => some (some s)
    | _ => none
  return ⟨message?, ← line.word?, ← column.word?⟩

/-- A missing message is no message. -/
def ofJson? : Json → Option SyntaxError
  | .object members => do
    let message ← match Json.valuesOf "message" members with
      | [] => some .null
      | [v] => some v
      | _ => none
    ofFields? message (← Json.member? "line" members) (← Json.member? "column" members)
  | .array [message, line, column] => ofFields? message line column
  | _ => none

def listOfJson? : Json → Option (List SyntaxError)
  | .array items => items.mapM ofJson?
  | _ => none

end SyntaxError

namespace ParseOutput

def toJson (o : ParseOutput) : Json :=
  .object [("tree", o.tree.toJson), ("lexer_errors", .array (o.lexerErrors.map (·.toJson))),
    ("parser_errors", .array (o.parserErrors.map (·.toJson)))]

def ofFields? (lenient : Bool) (tree lexerErrors parserErrors : Json) : Option ParseOutput := do
  return ⟨← ParseTree.ofJson? lenient tree, ← SyntaxError.listOfJson? lexerErrors,
    ← SyntaxError.listOfJson? parserErrors⟩

def ofJson? (lenient : Bool) : Json → Option ParseOutput
  | .object members => do
    ofFields? lenient (← Json.member? "tree" members) (← Json.member? "lexer_errors" members)
      (← Json.member? "parser_errors" members)
  | .array [tree, lexerErrors, parserErrors] => ofFields? lenient tree lexerErrors parserErrors
  | _ => none

end ParseOutput

end Descent
