import Descent.Text
import Descent.Token

/-!
The token types of calc, a small language of expressions and assignments, with the
names they carry in messages and trees, and its lexemes. Each kind of lexeme says how many characters it takes from
the front of a text, if it fits there at all. The kinds are tried in order and
the first that fits wins; since no two of them begin with the same character,
the order decides nothing.
-/

namespace Descent.Calc

abbrev number : TokenType := 1
abbrev string : TokenType := 2
abbrev ident : TokenType := 3
abbrev plus : TokenType := 4
abbrev minus : TokenType := 5
abbrev star : TokenType := 6
abbrev slash : TokenType := 7
abbrev percent : TokenType := 8
abbrev caret : TokenType := 9
abbrev lparen : TokenType := 10
abbrev rparen : TokenType := 11
abbrev comma : TokenType := 12
abbrev assign : TokenType := 13
abbrev semi : TokenType := 14

/-- The eleven punctuation marks. -/
def marks : List (Char × TokenType) :=
  [('+', plus), ('-', minus), ('*', star), ('/', slash), ('%', percent), ('^', caret),
   ('(', lparen), (')', rparen), (',', comma), ('=', assign), (';', semi)]

def vocabulary : Vocabulary where
  literals :=
    [none, none, none, none, some "'+'", some "'-'", some "'*'", some "'/'", some "'%'",
     some "'^'", some "'('", some "')'", some "','", some "'='", some "';'"]
  symbols :=
    [none, some "NUMBER", some "STRING", some "ID", some "PLUS", some "MINUS", some "STAR",
     some "SLASH", some "PERCENT", some "CARET", some "LPAREN", some "RPAREN", some "COMMA",
     some "ASSIGN", some "SEMI"]

/-- The number of characters in front that satisfy `p`. -/
def span (p : Char → Bool) : List Char → Nat
  | [] => 0
  | c :: cs => if p c then span p cs + 1 else 0

/-- A positive number of characters, or no match. -/
def nonzero (n : Nat) : Option Nat := if n = 0 then none else some n

def isSpace (c : Char) : Bool := c == ' ' || c == '\t' || c == '\r' || c == '\n'

def isLineEnd (c : Char) : Bool := c == '\n' || c == '\r'

/-- A run of blanks, tabs and line ends. -/
def blanks? (cs : List Char) : Option Nat := nonzero (span isSpace cs)

/-- A number sign and everything up to the end of the line. -/
def comment? : List Char → Option Nat
  | '#' :: cs => some (span (fun c => !isLineEnd c) cs + 1)
  | _ => none

/-- Digits with an optional fraction, which may be empty after the point, or a
point and a fraction. -/
def mantissa? (cs : List Char) : Option Nat :=
  let whole := span Char.isDigit cs
  match cs.drop whole with
  | '.' :: rest =>
    let fraction := span Char.isDigit rest
    if whole = 0 ∧ fraction = 0 then none else some (whole + 1 + fraction)
  | _ => nonzero whole

def signLength : List Char → Nat
  | '+' :: _ => 1
  | '-' :: _ => 1
  | _ => 0

/-- The length of the exponent in front; zero when there is none, also when its
digits are missing. -/
def exponentLength : List Char → Nat
  | c :: cs =>
    if c = 'e' ∨ c = 'E' then
      let sign := signLength cs
      let digits := span Char.isDigit (cs.drop sign)
      if digits = 0 then 0 else 1 + sign + digits
    else 0
  | [] => 0

def number? (cs : List Char) : Option Nat :=
  (mantissa? cs).map fun m => m + exponentLength (cs.drop m)

/-- The rest of a string after its opening quote, closing quote included. A
backslash takes the character after it along, whatever it is. -/
def stringTail? : List Char → Option Nat
  | [] => none
  | '"' :: _ => some 1
  | '\\' :: _ :: cs => (stringTail? cs).map (· + 2)
  | c :: cs => if c = '\\' then none else (stringTail? cs).map (· + 1)

def string? : List Char → Option Nat
  | '"' :: cs => (stringTail? cs).map (· + 1)
  | _ => none

/-- The characters but for digits and blanks that begin a lexeme of a kind of their own. -/
def openers : List Char := ['#', '"', '.'] ++ marks.map Prod.fst

/-- What identifiers are made of: the characters that begin one and those that go on
with it. They keep clear of the other lexemes: neither a digit nor an opener begins an
identifier, and no blank belongs to one. -/
structure Letters where
  begins : Char → Bool
  continues : Char → Bool
  begins_of_isDigit : ∀ c, c.isDigit = true → begins c = false
  begins_of_isSpace : ∀ c, isSpace c = true → begins c = false
  continues_of_isSpace : ∀ c, isSpace c = true → continues c = false
  begins_of_mem_openers : ∀ c ∈ openers, begins c = false

def ident? (l : Letters) : List Char → Option Nat
  | c :: cs => if l.begins c then some (span l.continues cs + 1) else none
  | [] => none

def mark? (mark : Char) : List Char → Option Nat
  | c :: _ => if c = mark then some 1 else none
  | [] => none

/-- A kind of lexeme: the token type it makes, none for what the parser never
sees, and how far it reaches. -/
structure Lexeme where
  type? : Option TokenType
  length? : List Char → Option Nat

def lexemes (l : Letters) : List Lexeme :=
  [⟨none, blanks?⟩, ⟨none, comment?⟩, ⟨some number, number?⟩, ⟨some string, string?⟩,
   ⟨some ident, ident? l⟩] ++ marks.map fun (c, t) => ⟨some t, mark? c⟩

/-- The token type and the length of the lexeme in front. -/
def scan (l : Letters) (cs : List Char) : Option (Option TokenType × Nat) :=
  (lexemes l).findSome? fun x => (x.length? cs).map (x.type?, ·)

theorem isSpace_cases {c : Char} (h : isSpace c = true) :
    c = ' ' ∨ c = '\t' ∨ c = '\r' ∨ c = '\n' := by
  simpa [isSpace, or_assoc] using h

/-- No digit begins an identifier. -/
theorem isIdentStart_of_isDigit {c : Char} (h : c.isDigit = true) :
    Text.isIdentStart c = false := by
  have hbounds : 48 ≤ c.toNat ∧ c.toNat ≤ 57 := by
    simpa [Char.isDigit, UInt32.le_iff_toNat_le] using h
  have halpha : c.isAlpha = false := by
    delta Char.isAlpha Char.isUpper Char.isLower
    simp [UInt32.le_iff_toNat_le]
    omega
  have hunder : c ≠ '_' := by
    rintro rfl
    cases h
  have hascii : ¬ 128 ≤ c.toNat := by omega
  simp [Text.isIdentStart, halpha, hunder, hascii]

/-- The letters of calc are those of Unicode, and the underscore. -/
def letters : Letters where
  begins := Text.isIdentStart
  continues := Text.isIdentContinue
  begins_of_isDigit _ := isIdentStart_of_isDigit
  begins_of_isSpace c h := by
    rcases isSpace_cases h with rfl | rfl | rfl | rfl <;> decide
  continues_of_isSpace c h := by
    rcases isSpace_cases h with rfl | rfl | rfl | rfl <;> decide
  begins_of_mem_openers c h := by
    have hall : openers.all (fun c => !Text.isIdentStart c) = true := by decide
    simpa using List.all_eq_true.mp hall c h

theorem nonzero_pos {n k : Nat} (h : nonzero n = some k) : 0 < k := by
  unfold nonzero at h
  split at h
  · simp at h
  · simp only [Option.some.injEq] at h
    omega

theorem blanks?_pos {cs : List Char} {k : Nat} (h : blanks? cs = some k) : 0 < k :=
  nonzero_pos h

theorem comment?_pos {cs : List Char} {k : Nat} (h : comment? cs = some k) : 0 < k := by
  unfold comment? at h
  split at h
  · simp only [Option.some.injEq] at h
    omega
  · simp at h

theorem mantissa?_pos {cs : List Char} {k : Nat} (h : mantissa? cs = some k) : 0 < k := by
  unfold mantissa? at h
  dsimp only at h
  split at h
  · split at h
    · simp at h
    · simp only [Option.some.injEq] at h
      omega
  · exact nonzero_pos h

theorem number?_pos {cs : List Char} {k : Nat} (h : number? cs = some k) : 0 < k := by
  obtain ⟨m, hm, rfl⟩ := Option.map_eq_some_iff.1 h
  have := mantissa?_pos hm
  omega

theorem string?_pos {cs : List Char} {k : Nat} (h : string? cs = some k) : 0 < k := by
  unfold string? at h
  split at h
  · obtain ⟨m, _, rfl⟩ := Option.map_eq_some_iff.1 h
    omega
  · simp at h

theorem ident?_pos {l : Letters} {cs : List Char} {k : Nat} (h : ident? l cs = some k) :
    0 < k := by
  unfold ident? at h
  split at h
  · split at h
    · simp only [Option.some.injEq] at h
      omega
    · simp at h
  · simp at h

theorem mark?_pos {m : Char} {cs : List Char} {k : Nat} (h : mark? m cs = some k) : 0 < k := by
  unfold mark? at h
  split at h
  · split at h
    · simp only [Option.some.injEq] at h
      omega
    · simp at h
  · simp at h

theorem lexeme_pos {l : Letters} {x : Lexeme} (hx : x ∈ lexemes l) {cs : List Char} {k : Nat}
    (h : x.length? cs = some k) : 0 < k := by
  simp only [lexemes, List.mem_append, List.mem_cons, List.not_mem_nil, or_false,
    List.mem_map] at hx
  rcases hx with (rfl | rfl | rfl | rfl | rfl) | ⟨m, _, rfl⟩
  · exact blanks?_pos h
  · exact comment?_pos h
  · exact number?_pos h
  · exact string?_pos h
  · exact ident?_pos h
  · exact mark?_pos h

/-- A lexeme is never empty. -/
theorem scan_pos {l : Letters} {cs : List Char} {t : Option TokenType} {k : Nat}
    (h : scan l cs = some (t, k)) : 0 < k := by
  obtain ⟨x, hx, hk⟩ := List.exists_of_findSome?_eq_some h
  obtain ⟨m, hm, e⟩ := Option.map_eq_some_iff.1 hk
  cases e
  exact lexeme_pos hx hm

end Descent.Calc
