import Descent.Failure
import Descent.Text

/-!
Trees. A parse tree has rules with ordered children, and terminals with the name of
their token type and their text. Its listing has a line for every node, indented by
its depth.

It is made of the tree a parser builds while it runs, which has a node for every
rule invocation, a leaf for every token, and slots that stay empty. A leaf is an
error leaf when its token was skipped, or made up because it was missing. In the
parse tree every rule number becomes the rule's name, every token the name of its
type and its text on one line, and empty slots go away. The first number without a
name, in the order a reader meets them, is the failure.
-/

namespace Descent

inductive ParseTree where
  | rule (name : String) (children : List ParseTree)
  | terminal (symbol text : String)
  deriving Repr, Inhabited

namespace ParseTree

/-- The name of a rule, or the symbol of a terminal. -/
def name : ParseTree → String
  | rule name _ => name
  | terminal symbol _ => symbol

def children : ParseTree → List ParseTree
  | rule _ children => children
  | terminal .. => []

def isRule : ParseTree → Bool
  | rule .. => true
  | terminal .. => false

mutual

/-- The terminals from left to right. -/
def leaves : ParseTree → List ParseTree
  | terminal symbol text => [terminal symbol text]
  | rule _ children => leavesAll children

def leavesAll : List ParseTree → List ParseTree
  | [] => []
  | t :: ts => t.leaves ++ leavesAll ts

end

mutual

def nodeCount : ParseTree → Nat
  | terminal .. => 1
  | rule _ children => 1 + nodeCountAll children

def nodeCountAll : List ParseTree → Nat
  | [] => 0
  | t :: ts => t.nodeCount + nodeCountAll ts

end

mutual

/-- The number of levels; a single node has one. -/
def depth : ParseTree → Nat
  | terminal .. => 1
  | rule _ children => 1 + depthAll children

def depthAll : List ParseTree → Nat
  | [] => 0
  | t :: ts => max t.depth (depthAll ts)

end

def indent (level : Nat) : String := String.ofList (List.replicate (2 * level) ' ')

mutual

/-- The lines of a node at a level, and of everything below it. -/
def rows (level : Nat) : ParseTree → String
  | terminal symbol text => indent level ++ symbol ++ "(\"" ++ text ++ "\")\n"
  | rule name children => indent level ++ name ++ "\n" ++ rowsAll (level + 1) children

def rowsAll (level : Nat) : List ParseTree → String
  | [] => ""
  | t :: ts => t.rows level ++ rowsAll level ts

end

/-- The listing under a label of its own on the first line. -/
def listing (label : String) (t : ParseTree) : String :=
  label ++ "\n" ++ rowsAll 1 t.children

def render (t : ParseTree) : String := t.listing t.name

end ParseTree

inductive RawTree where
  | leaf (token : Token) (error : Bool)
  /-- The rule's number, the index of the first token the invocation saw, and
  whether it reported an error and recovered. -/
  | node (rule start : Nat) (recovered : Bool) (slots : List (Option RawTree))
  deriving Repr, Inhabited

namespace RawTree

mutual

/-- The tokens of a tree from left to right. -/
def tokens : RawTree → List Token
  | leaf t _ => [t]
  | node _ _ _ slots => slotTokens slots

def slotTokens : List (Option RawTree) → List Token
  | [] => []
  | none :: slots => slotTokens slots
  | some t :: slots => t.tokens ++ slotTokens slots

end

mutual

def materialize (rules : List String) (v : Vocabulary) : RawTree → Except Failure ParseTree
  | leaf t _ =>
    match v.symbol? t.type with
    | none => .error (.unknownTokenType t.type)
    | some symbol => .ok (.terminal symbol (Text.escape t.text))
  | node index _ _ slots =>
    match rules[index]? with
    | none => .error (.unknownRule index)
    | some name =>
      match materializeSlots rules v slots with
      | .error e => .error e
      | .ok children => .ok (.rule name children)

def materializeSlots (rules : List String) (v : Vocabulary) :
    List (Option RawTree) → Except Failure (List ParseTree)
  | [] => .ok []
  | none :: slots => materializeSlots rules v slots
  | some t :: slots =>
    match t.materialize rules v with
    | .error e => .error e
    | .ok child =>
      match materializeSlots rules v slots with
      | .error e => .error e
      | .ok children => .ok (child :: children)

end

end RawTree

end Descent
