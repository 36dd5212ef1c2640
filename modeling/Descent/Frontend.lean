import Descent.Calc.Lexer
import Descent.Calc.Rules
import Descent.Settings
import Descent.Tree

/-!
The front end: one call lexes and parses a source text, or only lexes it, under
given settings and on a given prediction cache, and gives back the tree or the
tokens with the errors of both stages apart. Errors in the text never make the
call fail.
-/

namespace Descent

structure ParseOutput where
  tree : ParseTree
  lexerErrors : List SyntaxError
  parserErrors : List SyntaxError
  deriving Repr, Inhabited

namespace ParseOutput

def hasErrors (o : ParseOutput) : Bool := !o.lexerErrors.isEmpty || !o.parserErrors.isEmpty

def errorCount (o : ParseOutput) : Nat := o.lexerErrors.length + o.parserErrors.length

end ParseOutput

structure TokenizeOutput where
  tokens : List Token
  lexerErrors : List SyntaxError
  deriving Repr, Inhabited

namespace Calc

abbrev ParserState := Parser.State Lexer

/-- A parser over a lexer. Each of the two brings a recognizer, and the guard
runs for either. -/
def newParser (threshold : Nat) (lexer : Lexer) (c : PredictionCache) : ParserState :=
  let (_, c) := Recognizer.start threshold c
  let (recognizer, c) := Recognizer.start threshold c
  { buffer := .ofSource lexer, vocabulary := vocabulary, cache := .available c,
    recognizer := recognizer }

/-- Tree and errors of a parse that has come to its end, unless the lexer gave
up on the way. -/
def finish (tree : RawTree) (s : ParserState) : Except Failure ParseOutput :=
  match s.buffer.source.failure? with
  | some f => .error f
  | none =>
    match tree.materialize ruleNames vocabulary with
    | .error f => .error f
    | .ok t => .ok ⟨t, s.buffer.source.errors, s.errors⟩

/-- Parses a source. The start rule is looked up before anything is lexed. -/
def parseFrom (settings : Settings) (lexer : Lexer) :
    SharedCache → Except Failure ParseOutput × SharedCache
  | .unavailable => (.error .cacheUnavailable, .unavailable)
  | .available c =>
    let s := (newParser settings.cacheThreshold lexer c).setMaxDepth settings.maxRuleDepth
    let start := settings.startRule Rule.program.name
    match Rule.ofName? start with
    | none => (.error (.unknownEntryPoint start), s.cache)
    | some r =>
      match parseRule r s with
      | (.error f, s) => (.error f, s.cache)
      | (.ok tree, s) => (finish tree s, s.cache)

def tokenizeFrom (settings : Settings) (lexer : Lexer) :
    SharedCache → Except Failure TokenizeOutput × SharedCache
  | .unavailable => (.error .cacheUnavailable, .unavailable)
  | .available c =>
    let (_, c) := Recognizer.start settings.cacheThreshold c
    let b := (Buffer.ofSource lexer).fill
    match b.source.failure? with
    | some f => (.error f, .available c)
    | none => (.ok ⟨b.tokens.toList, b.source.errors⟩, .available c)

/-- A matcher that never gives up. -/
def never : Nat → Bool := fun _ => false

def parse (settings : Settings) (source : String) (cache : SharedCache) :
    Except Failure ParseOutput × SharedCache :=
  parseFrom settings (.ofString source never) cache

def tokenize (settings : Settings) (source : String) (cache : SharedCache) :
    Except Failure TokenizeOutput × SharedCache :=
  tokenizeFrom settings (.ofString source never) cache

end Calc

end Descent
