import Descent.Command.Run

/-!
The program: it looks up the files that the arguments speak of, runs the
command on them, and prints what it leaves behind.
-/

namespace Descent.Command

def refusalOf : IO.Error → Refusal
  | .noFileOrDirectory .. => .notFound
  | .inappropriateType .. => .notDirectory
  | e => .other (toString e)

/-- A file, or a directory with everything in it. -/
partial def load (path : String) : IO FileTree := do
  let place ← IO.FS.realPath path
  if ← place.isDir then
    let entries ← place.readDir
    let found ← entries.toList.mapM fun e => do
      return (e.fileName, ← load e.path.toString)
    return .directory found
  else
    return .file (← IO.FS.readBinFile path)

def lookUp (path : String) : IO (Except Refusal FileTree) := do
  try
    return .ok (← load path)
  catch e =>
    return .error (refusalOf e)

/-- The paths a command looks at. -/
def pathsOf (i : Invocation) : List String :=
  i.config?.toList ++
    match i.request with
    | .parse file _ _ => [file]
    | .tokens file => [file]
    | .check path => [path]
    | .diff left right _ => [left, right]

/-- What is known of the files at some paths and below them. -/
def filesOf (known : List (String × Except Refusal FileTree)) : Files := fun path =>
  match known.lookup path with
  | some found => found
  | none =>
    let below := known.findSome? fun (base, found) =>
      match found with
      | .ok t =>
        if (joinPath base "").isPrefixOf path then
          some (FileTree.descend [] t ((path.drop (joinPath base "").length).toString.splitOn "/"))
        else none
      | .error _ => none
    below.getD (.error .notFound)

end Descent.Command

open Descent.Command in
def main (args : List String) : IO UInt32 := do
  let known ← match read args with
    | .ok i => (pathsOf i).mapM fun path => do return (path, ← lookUp path)
    | .error _ => pure []
  let outcome := run (filesOf known) args
  IO.print outcome.stdout
  IO.eprint outcome.stderr
  return outcome.status.toUInt32
