import Descent.Text

/-!
Line differences of two texts. A longest common subsequence of their pieces is
found by the usual table and a walk back from its last cell. A step of the walk
at the first piece of the right text compares with the cell that comes before
it in the table read row by row, which is the last one of the row above.
-/

namespace Descent.Diff

/-- The pieces of a text between newlines. -/
def pieces (text : String) : List String := (text.toList.splitOn '\n').map String.ofList

section Table

variable (a b : Array String)

/-- The value of a cell, from those before it. -/
def cell (table : Array Nat) (i j : Nat) : Nat :=
  let look (i j : Nat) : Nat := table.getD (i * b.size + j) 0
  if a.getD i "" = b.getD j "" then
    if i = 0 ∨ j = 0 then 1 else look (i - 1) (j - 1) + 1
  else if i = 0 then (if j = 0 then 0 else look 0 (j - 1))
  else if j = 0 then look (i - 1) 0
  else max (look i (j - 1)) (look (i - 1) j)

/-- Lengths of longest common subsequences, row by row. -/
def table : Array Nat :=
  (List.range (a.size * b.size)).foldl
    (fun t k => t.push (cell a b t (k / b.size) (k % b.size))) #[]

/-- The common pieces in front of row `i` and column `j`, ends included. -/
def walk (t : Array Nat) : Nat → (i j : Nat) → List String → List String
  | 0, _, _, found => found
  | n + 1, i, j, found =>
    if a.getD i "" = b.getD j "" then
      let found := a.getD i "" :: found
      if i = 0 ∨ j = 0 then found else walk t n (i - 1) (j - 1) found
    else if i = 0 ∧ j = 0 then found
    else if i = 0 ∨ t.getD ((i - 1) * b.size + j) 0 < t.getD (i * b.size + j - 1) 0 then
      if j = 0 then found else walk t n i (j - 1) found
    else walk t n (i - 1) j found

def common : List String :=
  walk a b (table a b) (a.size + b.size) (a.size - 1) (b.size - 1) []

end Table

inductive Chunk where
  | same (pieces : List String)
  | removed (pieces : List String)
  | added (pieces : List String)
  deriving DecidableEq, Repr

/-- The pieces in front that all three lists share. -/
def shared : List String → List String → List String → List String
  | x :: a, y :: b, z :: c => if x = z ∧ y = z then x :: shared a b c else []
  | _, _, _ => []

/-- The pieces in front of the next common one. -/
def beforeNext (common : List String) (xs : List String) : List String :=
  xs.takeWhile fun x => common.head? != some x

/-- Chunks in order; at most so many rounds of the three kinds. -/
def chunks : Nat → List String → List String → List String → List Chunk
  | 0, _, _, _ => []
  | n + 1, a, b, c =>
    if a.isEmpty && b.isEmpty then []
    else
      let same := shared a b c
      let (a, b, c) := (a.drop same.length, b.drop same.length, c.drop same.length)
      let removed := beforeNext c a
      let added := beforeNext c b
      (if same.isEmpty then [] else [.same same]) ++
        (if removed.isEmpty then [] else [.removed removed]) ++
        (if added.isEmpty then [] else [.added added]) ++
        chunks n (a.drop removed.length) (b.drop added.length) c

/-- A chunk line by line, each line behind a mark. -/
def Chunk.render : Chunk → String
  | same ps => marked " " ps
  | removed ps => marked "-" ps
  | added ps => marked "+" ps
where
  marked (mark : String) (ps : List String) : String :=
    String.join ((Text.lines ("\n".intercalate ps)).map fun line => mark ++ line ++ "\n")

/-- The difference of two texts; none if they are the same. -/
def diff? (left right : String) : Option String :=
  let a := pieces left
  let b := pieces right
  let c := common a.toArray b.toArray
  if a.length + b.length = 2 * c.length then none
  else
    let c := if c.isEmpty then [""] else c
    some (String.join ((chunks (a.length + b.length) a b c).map Chunk.render))

end Descent.Diff
