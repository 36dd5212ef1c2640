import Descent.Command.Args
import Descent.Command.Files
import Descent.Failure
import Descent.Diagnostic
import Descent.Diff
import Descent.Json.Value
import Descent.Settings
import Descent.Tree.Json

/-!
The commands. `parse` prints the tree of a file, `tokens` its tokens, `check`
goes through all sources below a path, and `diff` compares the trees of two
files. The exit status is 1 if there was a syntax error, a difference or a
failure, and 2 if the arguments make no sense. What was printed before a failure
stays printed.
-/

namespace Descent.Command

/-- What a command leaves behind. -/
structure Outcome where
  status : Nat := 0
  stdout : String := ""
  stderr : String := ""
  deriving DecidableEq, Repr

namespace Outcome

def ofClean (clean : Bool) (stdout stderr : String) : Outcome :=
  ⟨if clean then 0 else 1, stdout, stderr⟩

/-- Ends in a failure after some output. -/
def fail (f : Failure) (o : Outcome) : Outcome :=
  { o with status := 1, stderr := o.stderr ++ f.report }

end Outcome

/-- The part of a name after its last point, if there is something before it. -/
def extension? (name : String) : Option String :=
  if name = ".." then none
  else
    match name.toList.reverse.span (· != '.') with
    | (_, []) => none
    | (_, [_]) => none
    | (ext, _ :: _ :: _) => some (String.ofList ext.reverse)

/-- The last name of a path. -/
def fileName (path : String) : String :=
  ((path.splitOn "/").filter fun n => n != "" && n != ".").getLastD ""

def readText (files : Files) (path : String) : Except Failure String :=
  match files path with
  | .error r => .error (.unreadable path [r.text])
  | .ok (.directory _) => .error (.unreadable path [Refusal.isDirectory.text])
  | .ok (.file content) =>
    match String.fromUTF8? content with
    | none => .error (.unreadable path [Refusal.notText.text])
    | some text => .ok text

/-- Settings from a file, as JSON if its extension says so. -/
def readSettings (files : Files) (path : String) : Except Failure Settings := do
  let text ← readText files path
  let isJson := (extension? (fileName path)).any fun e => e.map Char.toLower == "json"
  if isJson then Settings.readJson text else Settings.readYaml text

def settings (files : Files) (i : Invocation) : Except Failure Settings := do
  let s ← match i.config? with
    | none => .ok {}
    | some path => readSettings files path
  return match i.rule? with
    | none => s
    | some rule => { s with startRule? := some rule }

def startRule (s : Settings) : String := s.startRule Calc.Rule.program.name

def diagnose (path source : String) (stage : Stage) (errors : List SyntaxError) : String :=
  String.join (errors.map fun e => (Diagnostic.mk stage e path source).printed)

/-- The errors of a parse, those of the lexer first. -/
def diagnoseOutput (path source : String) (o : ParseOutput) : String :=
  diagnose path source .lexer o.lexerErrors ++ diagnose path source .parser o.parserErrors

def runParse (files : Files) (s : Settings) (file : String) (json : Bool)
    (label? : Option String) : Except Failure Outcome := do
  let source ← readText files file
  let o ← (Calc.parse s source .fresh).1
  let stdout := if json then o.toJson.pretty 0 ++ "\n"
    else o.tree.listing (label?.getD (startRule s))
  return .ofClean (!o.hasErrors) stdout (diagnoseOutput file source o)

def runTokens (files : Files) (s : Settings) (file : String) : Except Failure Outcome := do
  let source ← readText files file
  let o ← (Calc.tokenize s source .fresh).1
  return .ofClean o.lexerErrors.isEmpty (Calc.vocabulary.listing o.tokens)
    (diagnose file source .lexer o.lexerErrors)

def joinPath (base name : String) : String :=
  if base.toList.getLast? = some '/' then base ++ name else base ++ "/" ++ name

/-- Whether a file of this name is looked at when a directory is searched. -/
def isSource (name : String) : Bool := extension? name == some "calc"

mutual

/-- The sources below a path, a directory's entries in the order of their
names. -/
def sourcesBelow (path : String) : FileTree → List String
  | .file _ => [path]
  | .directory entries =>
    ((sourcesIn path entries).mergeSort fun a b => a.1 ≤ b.1).flatMap (·.2)

/-- The sources of each entry. -/
def sourcesIn (path : String) : List (String × FileTree) → List (String × List String)
  | [] => []
  | (name, t) :: rest =>
    let found := match t with
      | .file _ => if isSource name then [joinPath path name] else []
      | .directory _ => sourcesBelow (joinPath path name) t
    (name, found) :: sourcesIn path rest

end

/-- The sources at a path. A file that is named itself is one whatever it is
called. -/
def sources (files : Files) (path : String) : Except Failure (List String) :=
  match files path with
  | .error r =>
    .error (.unreadable path [s!"IO error for operation on {path}: {r.text}", r.text])
  | .ok t => .ok (sourcesBelow path t)

def checkLine (path : String) (errors : Nat) : String :=
  if errors = 0 then s!"ok   {path}\n" else s!"FAIL {path} ({errors} syntax errors)\n"

def summary (count failed : Nat) : String :=
  s!"\nchecked {count} files: {count - failed} ok, {failed} with errors\n"

/-- Checks the files one after the other, on one prediction cache. -/
def checkFiles (files : Files) (s : Settings) (count : Nat) :
    List String → Nat → SharedCache → Outcome → Outcome
  | [], failed, _, o =>
    { o with status := if failed = 0 then 0 else 1, stdout := o.stdout ++ summary count failed }
  | path :: paths, failed, cache, o =>
    match readText files path with
    | .error f => o.fail f
    | .ok source =>
      match Calc.parse s source cache with
      | (.error f, _) => o.fail f
      | (.ok output, cache) =>
        checkFiles files s count paths (if output.hasErrors then failed + 1 else failed) cache
          { o with
            stdout := o.stdout ++ checkLine path output.errorCount
            stderr := o.stderr ++ diagnoseOutput path source output }

def runCheck (files : Files) (s : Settings) (path : String) : Except Failure Outcome := do
  let paths ← sources files path
  return checkFiles files s paths.length paths 0 .fresh {}

def runDiff (files : Files) (s : Settings) (left right : String) (label? : Option String) :
    Except Failure Outcome := do
  let label := label?.getD (startRule s)
  let leftSource ← readText files left
  let (first, cache) := Calc.parse s leftSource .fresh
  let leftTree := (← first).tree.listing label
  let rightSource ← readText files right
  let rightTree := (← (Calc.parse s rightSource cache).1).tree.listing label
  match Diff.diff? leftTree rightTree with
  | none => return .ofClean true "parse trees are identical\n" ""
  | some text => return .ofClean false text ""

def runRequest (files : Files) (s : Settings) : Request → Except Failure Outcome
  | .parse file json label? => runParse files s file json label?
  | .tokens file => runTokens files s file
  | .check path => runCheck files s path
  | .diff left right label? => runDiff files s left right label?

def runInvocation (files : Files) (i : Invocation) : Outcome :=
  match (do runRequest files (← settings files i) i.request : Except Failure Outcome) with
  | .ok o => o
  | .error f => Outcome.fail f {}

def usage : String :=
  "usage: arborist [--config FILE] [--rule RULE] COMMAND\n" ++
  "  parse FILE [--json] [--label LABEL]\n" ++
  "  tokens FILE\n" ++
  "  check [PATH]\n" ++
  "  diff LEFT RIGHT [--label LABEL]\n"

def stopped : Stop → Outcome
  | .usage => { status := 2, stderr := usage }
  | .version => { stdout := "arborist 0.1.0\n" }
  | .help => { stdout := usage }

/-- Runs the command line. -/
def run (files : Files) (args : List String) : Outcome :=
  match read args with
  | .error s => stopped s
  | .ok i => runInvocation files i

end Descent.Command
