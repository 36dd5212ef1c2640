import Descent.Json.Reader
import Descent.Yaml.Cursor

/-!
The text of scalars. Plain scalars run up to a mark that cannot belong to them;
in quoted ones a quote is doubled or escaped by a backslash; block scalars take
whole lines that are indented. Plain and quoted scalars may go over several
lines: a newline becomes a blank, and each further one stays what it is, as the
separators of lines and paragraphs do.
-/

namespace Descent.Yaml

inductive Style where
  | plain | quoted | literal | folded
  deriving DecidableEq, Repr, Inhabited

/-- What stands between two pieces of a scalar, last character first: blanks on
the line, or a first line end, none if it was escaped, and further ones. -/
inductive Gap where
  | blanks (reversed : List Char)
  | lines (first further : List Char)

namespace Gap

def none : Gap := blanks []

def addBlank (c : Char) : Gap → Gap
  | blanks cs => blanks (c :: cs)
  | g => g

def addLineEnd (c : Char) : Gap → Gap
  | blanks _ => lines [c] []
  | lines first further => lines first (c :: further)

/-- In front of what was read so far, last character first. -/
def join (read : List Char) : Gap → List Char
  | blanks cs => cs ++ read
  | lines ['\n'] [] => ' ' :: read
  | lines ['\n'] further => further ++ read
  | lines first further => further ++ first ++ read

def crossesLine : Gap → Bool
  | blanks _ => false
  | lines .. => true

end Gap

/-- The marks that divide flow collections. -/
def isFlowMark (c : Char) : Bool :=
  c == ',' || c == '[' || c == ']' || c == '\x7b' || c == '\x7d'

/-- A piece of a plain scalar without gaps, last character first. A colon ends
it before a gap; inside a flow collection so does a flow mark, and a colon
right before one is an error. -/
def piece (flow : Bool) : List Char → Mark → List Char → Option (List Char × Cursor)
  | [], m, read => some (read, ⟨[], m⟩)
  | c :: cs, m, read =>
    if gapAhead (c :: cs) then some (read, ⟨c :: cs, m⟩)
    else if flow && c == ':' && cs.head?.any (fun d => isFlowMark d || d == '?') then none
    else if c = ':' ∧ gapAhead cs then some (read, ⟨c :: cs, m⟩)
    else if flow && isFlowMark c then some (read, ⟨c :: cs, m⟩)
    else piece flow cs (m.right 1) (c :: read)

/-- The gap after a piece of a plain scalar. A tab is no indentation, so it does
not stand left of the margin on a further line. -/
def plainGap (margin : Nat) : List Char → Mark → Gap → Option (Gap × Cursor)
  | [], m, g => some (g, ⟨[], m⟩)
  | c :: cs, m, g =>
    if isGap c then
      if c = '\t' ∧ g.crossesLine ∧ m.column < margin then none
      else plainGap margin cs (m.right 1) (g.addBlank c)
    else if isLineEnd c then plainGap margin cs m.down (g.addLineEnd c)
    else some (g, ⟨c :: cs, m⟩)

structure PlainScalar where
  text : String
  /-- Whether a line ended after it. -/
  lineEnded : Bool
  after : Cursor

/-- A plain scalar whose further lines start no further left than the margin; in
a flow collection they may start anywhere. The first argument bounds the
pieces. -/
def plainTail (flow : Bool) (margin : Nat) :
    Nat → Gap → List Char → Cursor → Option PlainScalar
  | 0, _, _, _ => none
  | n + 1, g, read, c =>
    let stop : Option PlainScalar := some ⟨String.ofList read.reverse, g.crossesLine, c⟩
    if c.atAnyDivider || c.head? == some '#' then stop
    else
      match piece flow c.rest c.mark [] with
      | none => none
      | some ([], _) => stop
      | some (more, c) =>
        let read := more ++ g.join read
        match plainGap margin c.rest c.mark .none with
        | none => none
        | some (g, next) =>
          if next.rest.length == c.rest.length || (!flow && next.column < margin) then
            some ⟨String.ofList read.reverse, g.crossesLine, next⟩
          else plainTail flow margin n g read next

def plain (flow : Bool) (margin : Nat) (c : Cursor) : Option PlainScalar :=
  plainTail flow margin (c.rest.length + 1) .none [] c

def escapeChar? : Char → Option Nat
  | '0' => some 0
  | 'a' => some 7
  | 'b' => some 8
  | 't' => some 9
  | '\t' => some 9
  | 'n' => some 10
  | 'v' => some 11
  | 'f' => some 12
  | 'r' => some 13
  | 'e' => some 27
  | ' ' => some 32
  | '"' => some 34
  | '/' => some 47
  | '\\' => some 92
  | 'N' => some 0x85
  | '_' => some 0xA0
  | 'L' => some 0x2028
  | 'P' => some 0x2029
  | _ => none

def escapeWidth? : Char → Option Nat
  | 'x' => some 2
  | 'u' => some 4
  | 'U' => some 8
  | _ => none

/-- The character that an escape stands for, and the number of characters after
the backslash that it takes. -/
def escape? : List Char → Option (Char × Nat)
  | [] => none
  | c :: cs =>
    match escapeChar? c with
    | some n => some (Char.ofNat n, 1)
    | none =>
      match escapeWidth? c with
      | none => none
      | some width =>
        match Json.hexNumber? (cs.take width) with
        | none => none
        | some n =>
          if cs.length < width ∨ ¬ n.isValidChar then none
          else some (Char.ofNat n, 1 + width)

/-- The rest of a quoted scalar after its opening quote. The first argument
bounds the characters. -/
def quotedTail (quote : Char) : Nat → Gap → List Char → Cursor → Option (String × Cursor)
  | 0, _, _, _ => none
  | n + 1, g, read, c =>
    match c.rest with
    | [] => none
    | d :: ds =>
      if isGap d then quotedTail quote n (g.addBlank d) read (c.move 1)
      else if isLineEnd d then quotedTail quote n (g.addLineEnd d) read c.passLineEnd
      else if c.atAnyDivider then none
      else
        let read := g.join read
        if d = quote then
          if quote = '\'' ∧ ds.head? = some '\'' then
            quotedTail quote n .none ('\'' :: read) (c.move 2)
          else some (String.ofList read.reverse, c.move 1)
        else if quote = '"' ∧ d = '\\' then
          if ds.head?.any isLineEnd then
            quotedTail quote n (.lines [] []) read (c.move 1).passLineEnd
          else
            match escape? ds with
            | none => none
            | some (e, width) => quotedTail quote n .none (e :: read) (c.move (1 + width))
        else quotedTail quote n .none (d :: read) (c.move 1)

/-- A quoted scalar, from its opening quote. -/
def quoted (quote : Char) (c : Cursor) : Option (String × Cursor) :=
  quotedTail quote (c.rest.length + 1) .none [] (c.move 1)

/-- What becomes of the line ends after a block scalar. -/
inductive Chomping where
  | strip | clip | keep
  deriving DecidableEq, Repr

def chomping? (c : Cursor) : Option Chomping :=
  if c.head? = some '+' then some .keep
  else if c.head? = some '-' then some .strip
  else none

/-- A digit that says how far the lines are indented; zero is none. -/
def indentation? (c : Cursor) : Option (Option Nat) :=
  match c.head? with
  | some d =>
    if d = '0' then none
    else if d.isDigit then some (some (d.toNat - '0'.toNat))
    else some none
  | none => some none

/-- Chomping and indentation after the mark of a block scalar, in either order. -/
def blockHeader? (c : Cursor) : Option (Chomping × Option Nat × Cursor) :=
  match chomping? c with
  | some chomping =>
    match indentation? (c.move 1) with
    | none => none
    | some none => some (chomping, none, c.move 1)
    | some (some n) => some (chomping, some n, c.move 2)
  | none =>
    match indentation? c with
    | none => none
    | some none => some (.clip, none, c)
    | some (some n) =>
      match chomping? (c.move 1) with
      | some chomping => some (chomping, some n, c.move 2)
      | none => some (.clip, some n, c.move 1)

/-- Passes over empty lines and the indentation of the line after them; gives
the widest indentation, the line ends, last first, and where it stopped. An
indentation that is not known yet may be of any width. -/
def blockBreaks (indent? : Option Nat) :
    List Char → Mark → Nat → List Char → Option (Nat × List Char × Cursor)
  | [], m, widest, breaks => some (max widest m.column, breaks, ⟨[], m⟩)
  | c :: cs, m, widest, breaks =>
    let inside := indent?.all (m.column < ·)
    if c = ' ' ∧ inside then blockBreaks indent? cs (m.right 1) widest breaks
    else if c = '\t' ∧ inside then none
    else if isLineEnd c then
      blockBreaks indent? cs m.down (max widest m.column) (c :: breaks)
    else some (max widest m.column, breaks, ⟨c :: cs, m⟩)

/-- What has been read of a block scalar. -/
structure BlockText where
  /-- Last character first. -/
  read : List Char := []
  /-- The end of the last line. -/
  lineEnd : List Char := []
  /-- The ends of the empty lines after it, last first. -/
  breaks : List Char := []
  /-- Whether the last line began with a blank. -/
  spaced : Bool := false

/-- One more line, which begins with a blank or not. Between two folded lines
that do not, a newline becomes a blank, or goes if there are empty lines. -/
def BlockText.openLine (t : BlockText) (folds spaced : Bool) : BlockText :=
  let read :=
    if folds && t.lineEnd == ['\n'] && !t.spaced && !spaced then
      if t.breaks.isEmpty then ' ' :: t.read else t.read
    else t.lineEnd ++ t.read
  { read := t.breaks ++ read, spaced := spaced }

/-- Lines that start in column `indent`. The first argument bounds them. -/
def blockLines (folds : Bool) (indent : Nat) : Nat → BlockText → Cursor →
    Option (BlockText × Cursor)
  | 0, _, _ => none
  | n + 1, t, c =>
    match c.rest with
    | [] => some (t, c)
    | d :: _ =>
      if c.column ≠ indent then some (t, c)
      else
        let t := t.openLine folds (isGap d)
        let line := c.rest.takeWhile (!isLineEnd ·)
        let ended := c.move line.length
        let next := ended.passLineEnd
        match blockBreaks (some indent) next.rest next.mark 0 [] with
        | none => none
        | some (_, breaks, next) =>
          blockLines folds indent n
            { t with read := line.reverse ++ t.read, lineEnd := ended.head?.toList,
                     breaks := breaks } next

/-- A block scalar, from the mark that begins it. Its lines are indented as far
as the mark says, else as far as the first of them, and no further left than
the margin. -/
def block (folds : Bool) (margin : Nat) (c : Cursor) : Option (String × Cursor) :=
  match blockHeader? (c.move 1) with
  | none => none
  | some (chomping, increment?, c) =>
    match c.finishLine? with
    | none => none
    | some c =>
      let given? := increment?.map (margin - 1 + ·)
      match blockBreaks given? c.rest c.mark 0 [] with
      | none => none
      | some (widest, breaks, c) =>
        let indent := given?.getD (max widest (max margin 1))
        match blockLines folds indent (c.rest.length + 1) { breaks := breaks } c with
        | none => none
        | some (t, c) =>
          let text := match chomping with
            | .strip => t.read
            | .clip => t.lineEnd ++ t.read
            | .keep => t.breaks ++ t.lineEnd ++ t.read
          some (String.ofList text.reverse, c)

end Descent.Yaml
