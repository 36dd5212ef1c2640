import Descent.Failure

/-!
The files a command sees. A path leads from a directory through its entries; a
lookup either ends at a file or a directory or says, in the words of the
operating system, why it does not.
-/

namespace Descent.Command

inductive FileTree where
  | file (content : ByteArray)
  | directory (entries : List (String × FileTree))
  deriving Inhabited

/-- Why the operating system refuses a path or a file. -/
inductive Refusal where
  | notFound
  | notDirectory
  | isDirectory
  | notText
  | other (text : String)
  deriving DecidableEq, Repr

def Refusal.text : Refusal → String
  | notFound => "No such file or directory (os error 2)"
  | notDirectory => "Not a directory (os error 20)"
  | isDirectory => "Is a directory (os error 21)"
  | notText => "stream did not contain valid UTF-8"
  | other text => text

/-- What a path leads to. -/
abbrev Files := String → Except Refusal FileTree

namespace FileTree

/-- Goes on from a tree, whose parents are given, by the names of a path. -/
def descend : List FileTree → FileTree → List String → Except Refusal FileTree
  | _, t, [] => .ok t
  | _, file _, _ :: _ => .error .notDirectory
  | parents, directory entries, name :: names =>
    if name = "" ∨ name = "." then descend parents (directory entries) names
    else if name = ".." then
      match parents with
      | [] => .error .notFound
      | p :: ps => descend ps p names
    else
      match entries.lookup name with
      | none => .error .notFound
      | some t => descend (directory entries :: parents) t names

/-- The files below a working directory. -/
def files (t : FileTree) : Files := fun path =>
  if path.toList.head? = some '/' then .error .notFound
  else descend [] t (path.splitOn "/")

/-- Directories one in the other around a tree. -/
def chain : List String → FileTree → FileTree
  | [], t => t
  | name :: names, t => directory [(name, chain names t)]

mutual

/-- A tree with something more at a path. What is there already stays. -/
def insert (new : FileTree) : List String → FileTree → FileTree
  | name :: names, directory entries =>
    if entries.any (fun e => e.1 == name) then directory (insertIn new name names entries)
    else directory (entries ++ [(name, chain names new)])
  | _, t => t

def insertIn (new : FileTree) (name : String) (names : List String) :
    List (String × FileTree) → List (String × FileTree)
  | [] => []
  | (n, t) :: entries =>
    (n, if n = name then insert new names t else t) :: insertIn new name names entries

end

end FileTree

end Descent.Command
