import Descent.Proofs.Seam
import Descent.Proofs.Sentences
import Mathlib.Data.List.Pairwise

/-! One step of the lexer takes as much as it can. The kinds of lexemes are regular
languages of characters, made of single characters by products, sums and
repetition. Each way of making a language comes with a rule for the longest
beginning of a text that belongs to it, and what a lexeme reads is found by these
rules. No two of the languages have a word with the same first character, so what
the first lexeme that fits takes is the longest beginning that belongs to any. All of
it holds for whatever letters identifiers are made of. -/

namespace Descent.Calc

open Computability

/-- The texts of one character of a class. -/
def char (p : Char → Bool) : Language Char := single fun c => p c = true

/-- The texts of one or more characters of a class. -/
def chars (p : Char → Bool) : Language Char := char p * (char p)∗

def isExponentMark (c : Char) : Bool := c == 'e' || c == 'E'

def isSign (c : Char) : Bool := c == '+' || c == '-'

/-- What may stand in a string as it is. -/
def isPlain (c : Char) : Bool := c != '"' && c != '\\'

def mantissaTexts : Language Char :=
  chars Char.isDigit * (1 + char (· == '.') * (char Char.isDigit)∗) +
    char (· == '.') * chars Char.isDigit

def exponentTexts : Language Char :=
  char isExponentMark * ((1 + char isSign) * chars Char.isDigit)

/-- What stands between the quotes of a string, one piece of it. -/
def pieceTexts : Language Char := char (· == '\\') * char (fun _ => true) + char isPlain

/-- The kinds of lexemes. -/
inductive LexicalClass where
  | blanks
  | comment
  | number
  | string
  | ident
  | mark (c : Char) (type : TokenType)
  deriving DecidableEq, Repr

namespace LexicalClass

/-- The type of the tokens that a kind of lexeme makes, if it makes any. -/
def type? : LexicalClass → Option TokenType
  | blanks => none
  | comment => none
  | number => some Calc.number
  | string => some Calc.string
  | ident => some Calc.ident
  | mark _ type => some type

/-- The language of a kind of lexeme. -/
def texts (l : Letters) : LexicalClass → Language Char
  | blanks => chars isSpace
  | comment => char (· == '#') * (char fun c => !isLineEnd c)∗
  | number => mantissaTexts * (1 + exponentTexts)
  | string => char (· == '"') * (pieceTexts∗ * char (· == '"'))
  | ident => char l.begins * (char l.continues)∗
  | mark c _ => char (· == c)

/-- How far a kind of lexeme reaches. -/
def length? (l : Letters) : LexicalClass → List Char → Option Nat
  | blanks => blanks?
  | comment => comment?
  | number => number?
  | string => string?
  | ident => ident? l
  | mark c _ => mark? c

/-- The characters that a lexeme of this kind begins with. -/
def starts (l : Letters) : LexicalClass → Char → Bool
  | blanks => isSpace
  | comment => (· == '#')
  | number => fun c => c.isDigit || c == '.'
  | string => (· == '"')
  | ident => l.begins
  | mark c _ => (· == c)

end LexicalClass

/-- All kinds of lexemes, with one for each of the punctuation marks. -/
def lexicalClasses : List LexicalClass :=
  [.blanks, .comment, .number, .string, .ident] ++ marks.map fun (c, t) => .mark c t

theorem lexemes_eq (l : Letters) :
    lexemes l = lexicalClasses.map fun x => ⟨x.type?, x.length? l⟩ := rfl

/-- What the longest beginning of a text is that belongs to a language: its length,
or none if no beginning does. -/
def Munch (L : Language Char) (cs : List Char) : Option Nat → Prop
  | none => ∀ w ∈ L, ¬ w <+: cs
  | some k => k ≤ cs.length ∧ cs.take k ∈ L ∧ ∀ w ∈ L, w <+: cs → w.length ≤ k

section Rules

variable {L M : Language Char} {cs : List Char} {r : Option Nat} {p : Char → Bool}

theorem Munch.one (cs : List Char) : Munch 1 cs (some 0) := by
  refine ⟨Nat.zero_le _, rfl, ?_⟩
  rintro w rfl -
  exact Nat.le_refl 0

/-- A language without the empty text is read nowhere but behind one of its first
characters. -/
theorem Opens.munch {P : Char → Prop} (h : Opens L P) (hcs : ∀ c ∈ cs.head?, ¬ P c) :
    Munch L cs none := by
  intro w hw hbegins
  cases w with
  | nil => exact h.nonempty hw
  | cons c w =>
    obtain ⟨more, rfl⟩ := hbegins
    exact hcs c rfl (h.first c w hw)

theorem Opens.munch_nil {P : Char → Prop} (h : Opens L P) : Munch L [] none := by
  refine h.munch fun c hc => ?_
  cases hc

theorem Opens.munch_cons {P : Char → Prop} {c : Char} (h : Opens L P) (hc : ¬ P c) :
    Munch L (c :: cs) none := by
  refine h.munch fun d hd => ?_
  rwa [← Option.some.inj hd]

theorem Opens.munch_of_ne {d : Char} (h : Opens L fun c => (c == d) = true)
    (hne : ∀ rest, cs ≠ d :: rest) : Munch L cs none := by
  refine h.munch fun c hc hcd => ?_
  obtain ⟨rest, rfl⟩ := List.head?_eq_some_iff.mp hc
  exact hne rest (by rw [beq_iff_eq.mp hcd])

theorem Munch.cons {c : Char} (hc : p c = true) (h : Munch M cs r) :
    Munch (char p * M) (c :: cs) (r.map (· + 1)) := by
  have hnil : [] ∉ char p * M := (Opens.single _).mul.nonempty
  cases r with
  | none =>
    intro w hw hbegins
    cases w with
    | nil => exact hnil hw
    | cons d w =>
      obtain ⟨-, hw⟩ := cons_mem_single_mul.mp hw
      exact h w hw (List.cons_prefix_cons.mp hbegins).2
  | some k =>
    obtain ⟨hk, htake, hlongest⟩ := h
    refine ⟨Nat.succ_le_succ hk, cons_mem_single_mul.mpr ⟨hc, htake⟩, ?_⟩
    intro w hw hbegins
    cases w with
    | nil => exact Nat.zero_le _
    | cons d w =>
      obtain ⟨-, hw⟩ := cons_mem_single_mul.mp hw
      exact Nat.succ_le_succ (hlongest w hw (List.cons_prefix_cons.mp hbegins).2)

/-- Of two languages one of which has nothing here, the other decides. -/
theorem Munch.add (h : Munch L cs r) (h' : Munch M cs none) : Munch (L + M) cs r := by
  cases r with
  | none =>
    rintro w (hw | hw)
    · exact h w hw
    · exact h' w hw
  | some k =>
    obtain ⟨hk, htake, hlongest⟩ := h
    refine ⟨hk, Or.inl htake, ?_⟩
    rintro w (hw | hw) hbegins
    · exact hlongest w hw hbegins
    · exact absurd hbegins (h' w hw)

theorem Munch.add_right (h : Munch L cs none) (h' : Munch M cs r) : Munch (L + M) cs r := by
  rw [add_comm]
  exact h'.add h

theorem Munch.mul_none (h : Munch L cs none) : Munch (L * M) cs none := by
  rintro w ⟨a, ha, b, -, rfl⟩ hbegins
  exact h a ha ((List.prefix_append a b).trans hbegins)

theorem mem_char_kstar {w : List Char} : w ∈ (char p)∗ ↔ ∀ c ∈ w, p c = true := by
  constructor
  · rintro ⟨ws, rfl, hws⟩ c hc
    obtain ⟨v, hv, hcv⟩ := List.mem_flatten.mp hc
    obtain ⟨d, hd, rfl⟩ := hws v hv
    rwa [List.mem_singleton.mp hcv]
  · intro h
    induction w with
    | nil => exact Language.nil_mem_kstar _
    | cons c w ih =>
      rw [← Language.one_add_self_mul_kstar_eq_kstar]
      exact Or.inr (cons_mem_single_mul.mpr ⟨h c List.mem_cons_self,
        ih fun d hd => h d (List.mem_cons_of_mem c hd)⟩)

theorem Munch.kstar (p : Char → Bool) (cs : List Char) :
    Munch (char p)∗ cs (some (span p cs)) := by
  refine ⟨span_le p cs, ?_, ?_⟩
  · rw [take_span]
    exact mem_char_kstar.mpr fun c hc => List.mem_takeWhile_imp hc
  · rintro w hw ⟨more, rfl⟩
    have hall := mem_char_kstar.mp hw
    clear hw
    induction w with
    | nil => exact Nat.zero_le _
    | cons c w ih =>
      rw [List.cons_append, span, if_pos (hall c List.mem_cons_self)]
      exact Nat.succ_le_succ (ih fun d hd => hall d (List.mem_cons_of_mem c hd))

theorem Munch.chars (p : Char → Bool) (cs : List Char) :
    Munch (chars p) cs (nonzero (span p cs)) := by
  cases cs with
  | nil => exact (Opens.single _).mul.munch_nil
  | cons c cs =>
    by_cases hc : p c = true
    · rw [span, if_pos hc]
      exact .cons hc (.kstar p cs)
    · rw [span, if_neg hc]
      exact (Opens.single _).mul.munch_cons hc

/-- The longest word of `L` is followed by what there is of `M` behind it: a shorter
one is followed by a character that belongs to words of `L` only. -/
theorem Munch.mul_opt {m : Nat} (h : Munch L cs (some m)) (h' : Munch M (cs.drop m) r)
    (hL : ∀ w ∈ L, w ∈ (char p)∗) (hM : Opens M fun c => p c = false) :
    Munch (L * (1 + M)) cs (some (m + r.getD 0)) := by
  obtain ⟨hm, htake, hlongest⟩ := h
  have hshort {a b : List Char} (ha : a ∈ L) (hb : b ∈ M) (hbegins : a ++ b <+: cs) :
      a = cs.take m ∧ b <+: cs.drop m := by
    have hle := hlongest a ha ((List.prefix_append a b).trans hbegins)
    obtain ⟨more, rfl⟩ := hbegins
    rcases Nat.eq_or_lt_of_le hle with rfl | hlt
    · rw [List.append_assoc, List.take_left, List.drop_left]
      exact ⟨rfl, List.prefix_append b more⟩
    · cases b with
      | nil => exact absurd hb hM.nonempty
      | cons c b =>
        have hmem : c ∈ (a ++ c :: b ++ more).take m := by
          refine List.mem_take_iff_getElem.mpr ⟨a.length, ?_, ?_⟩
          · simp only [List.length_append, List.length_cons]
            omega
          · simp
        have hc := mem_char_kstar.mp (hL _ htake) c hmem
        rw [hM.first c b hb] at hc
        cases hc
  cases r with
  | none =>
    have hmem : cs.take m ++ [] ∈ L * (1 + M) := Language.append_mem_mul htake (Or.inl rfl)
    rw [List.append_nil] at hmem
    refine ⟨hm, hmem, ?_⟩
    rintro w ⟨a, ha, b, (rfl | hb), rfl⟩ hbegins
    · simpa using hlongest a ha (by simpa using hbegins)
    · exact absurd (hshort ha hb hbegins).2 (h' b hb)
  | some k =>
    obtain ⟨hk, htake', hlongest'⟩ := h'
    rw [List.length_drop] at hk
    refine ⟨by simp only [Option.getD_some]; omega, ?_, ?_⟩
    · rw [Option.getD_some, List.take_add]
      exact Language.append_mem_mul htake (Or.inr htake')
    · rintro w ⟨a, ha, b, (rfl | hb), rfl⟩ hbegins
      · have := hlongest a ha (by simpa using hbegins)
        simp only [List.append_nil, Option.getD_some]
        omega
      · obtain ⟨rfl, hb'⟩ := hshort ha hb hbegins
        have := hlongest' b hb hb'
        simp only [List.length_append, List.length_take, Option.getD_some]
        omega

end Rules

section Kinds

/-! What each kind of lexeme reads. -/

theorem nonzero_getD (n : Nat) : (nonzero n).getD 0 = n := by
  unfold nonzero
  split
  · next h => rw [h, Option.getD_none]
  · rfl

theorem Munch.char (p : Char → Bool) (c : Char) (cs : List Char) :
    Munch (char p) (c :: cs) (if p c = true then some 1 else none) := by
  split
  · next hc =>
    rw [← mul_one (Calc.char p)]
    exact .cons hc (.one cs)
  · next hc => exact (Opens.single _).munch_cons hc

theorem fraction_munch (cs : List Char) :
    Munch (char (· == '.') * (char Char.isDigit)∗) cs
      (match cs with
       | '.' :: rest => some (1 + span Char.isDigit rest)
       | _ => none) := by
  split
  · next rest =>
    rw [Nat.add_comm]
    exact .cons rfl (.kstar Char.isDigit rest)
  · next hne => exact (Opens.single _).mul.munch_of_ne hne

/-- Digits in front, and what they are followed by. -/
theorem whole_munch {cs : List Char} (h : span Char.isDigit cs ≠ 0) :
    Munch (chars Char.isDigit * (1 + char (· == '.') * (char Char.isDigit)∗)) cs
      (mantissa? cs) := by
  have hwhole := Munch.chars Char.isDigit cs
  rw [nonzero, if_neg h] at hwhole
  have hdigits : chars Char.isDigit ≤ (char Char.isDigit)∗ := mul_kstar_le_kstar
  have hpoint : Opens (char (· == '.') * (char Char.isDigit)∗) fun c => c.isDigit = false := by
    refine (Opens.single _).mul.mono fun c hc => ?_
    rw [beq_iff_eq.mp hc]
    rfl
  have hboth := hwhole.mul_opt (fraction_munch _) (fun _ hw => hdigits hw) hpoint
  unfold mantissa?
  split at hboth
  · next rest hdrop =>
    simpa [hdrop, h, Nat.add_assoc] using hboth
  · next hne =>
    dsimp only
    split
    · next rest hdrop => exact absurd hdrop (hne rest)
    · rwa [nonzero, if_neg h]

/-- No digit in front. -/
theorem point_munch {cs : List Char} (h : span Char.isDigit cs = 0) :
    Munch (char (· == '.') * chars Char.isDigit) cs (mantissa? cs) := by
  simp only [mantissa?, h, List.drop_zero]
  split
  · next rest =>
    have hrest := Munch.cons (p := (· == '.')) (c := '.') rfl (.chars Char.isDigit rest)
    by_cases hzero : span Char.isDigit rest = 0
    · simpa [nonzero, hzero] using hrest
    · simpa [nonzero, hzero, Nat.add_comm] using hrest
  · next hne => exact (Opens.single _).mul.munch_of_ne hne

theorem mantissa?_munch (cs : List Char) : Munch mantissaTexts cs (mantissa? cs) := by
  by_cases h : span Char.isDigit cs = 0
  · have hwhole := Munch.chars Char.isDigit cs
    rw [nonzero, if_pos h] at hwhole
    exact hwhole.mul_none.add_right (point_munch h)
  · refine (whole_munch h).add ((Opens.single _).mul.munch_of_ne ?_)
    rintro rest rfl
    exact h rfl

/-- A mantissa is made of digits and points. -/
theorem mem_kstar_of_mantissa {w : List Char} (h : w ∈ mantissaTexts) :
    w ∈ (char fun c => c.isDigit || c == '.')∗ := by
  have hchar {p : Char → Bool} (hp : ∀ c, p c = true → (c.isDigit || c == '.') = true) :
      char p ≤ (char fun c => c.isDigit || c == '.')∗ := by
    rintro w ⟨c, hc, rfl⟩
    exact mem_char_kstar.mpr fun d hd => hp d (List.mem_singleton.mp hd ▸ hc)
  have hmul {L M : Language Char} (h : L ≤ (char fun c => c.isDigit || c == '.')∗)
      (h' : M ≤ (char fun c => c.isDigit || c == '.')∗) :
      L * M ≤ (char fun c => c.isDigit || c == '.')∗ :=
    (mul_le_mul' h h').trans (kstar_mul_kstar _).le
  have hdigit := hchar (p := Char.isDigit) fun c hc => by rw [hc, Bool.true_or]
  have hpoint := hchar (p := (· == '.')) fun c hc => by rw [hc, Bool.or_true]
  have hdigits : (char Char.isDigit)∗ ≤ (char fun c => c.isDigit || c == '.')∗ :=
    (kstar_mono hdigit).trans (kstar_idem _).le
  have hall : mantissaTexts ≤ (char fun c => c.isDigit || c == '.')∗ :=
    add_le (hmul (hmul hdigit hdigits) (add_le one_le_kstar (hmul hpoint hdigits)))
      (hmul hpoint (hmul hdigit hdigits))
  exact hall h

theorem signed_munch (cs : List Char) : Munch ((1 + char isSign) * chars Char.isDigit) cs
    ((nonzero (span Char.isDigit (cs.drop (signLength cs)))).map (· + signLength cs)) := by
  rw [add_mul, one_mul]
  cases cs with
  | nil => exact Munch.add (.chars Char.isDigit []) (Opens.single _).mul.munch_nil
  | cons c cs =>
    by_cases hc : isSign c = true
    · have hlength : signLength (c :: cs) = 1 := by
        rcases (by simpa [isSign] using hc : c = '+' ∨ c = '-') with rfl | rfl <;> rfl
      have hdigit : c.isDigit = false := by
        rcases (by simpa [isSign] using hc : c = '+' ∨ c = '-') with rfl | rfl <;> rfl
      rw [hlength]
      exact Munch.add_right ((Opens.single _).mul.munch_cons (ne_true_of_eq_false hdigit))
        (.cons hc (.chars Char.isDigit cs))
    · have hlength : signLength (c :: cs) = 0 := by
        unfold signLength
        split
        · next he => exact absurd (by rw [(List.cons.inj he).1]; rfl) hc
        · next he => exact absurd (by rw [(List.cons.inj he).1]; rfl) hc
        · rfl
      rw [hlength, List.drop_zero]
      refine Munch.add ?_ ((Opens.single _).mul.munch_cons hc)
      simpa using Munch.chars Char.isDigit (c :: cs)

theorem exponentLength_munch (cs : List Char) :
    Munch exponentTexts cs (nonzero (exponentLength cs)) := by
  cases cs with
  | nil => exact (Opens.single _).mul.munch_nil
  | cons c cs =>
    by_cases hc : isExponentMark c = true
    · have hboth := Munch.cons hc (signed_munch cs)
      have hmark : c = 'e' ∨ c = 'E' := by simpa [isExponentMark] using hc
      rw [exponentLength, if_pos hmark]
      dsimp only
      by_cases hzero : span Char.isDigit (cs.drop (signLength cs)) = 0
      · rw [nonzero, if_pos hzero] at hboth
        rwa [if_pos hzero, nonzero, if_pos rfl]
      · have hsum : 1 + signLength cs + span Char.isDigit (cs.drop (signLength cs)) =
            span Char.isDigit (cs.drop (signLength cs)) + signLength cs + 1 := by omega
        rw [nonzero, if_neg hzero] at hboth
        rwa [if_neg hzero, hsum, nonzero, if_neg (Nat.succ_ne_zero _)]
    · have hmark : ¬ (c = 'e' ∨ c = 'E') := by simpa [isExponentMark] using hc
      rw [exponentLength, if_neg hmark]
      exact (Opens.single _).mul.munch_cons hc

theorem number?_munch (cs : List Char) :
    Munch (mantissaTexts * (1 + exponentTexts)) cs (number? cs) := by
  have hmantissa := mantissa?_munch cs
  have hexponent : Opens exponentTexts fun c => (c.isDigit || c == '.') = false := by
    refine (Opens.single _).mul.mono fun c hc => ?_
    rcases (by simpa [isExponentMark] using hc : c = 'e' ∨ c = 'E') with rfl | rfl <;> rfl
  unfold number?
  cases hm : mantissa? cs with
  | none =>
    rw [hm] at hmantissa
    exact hmantissa.mul_none
  | some m =>
    rw [hm] at hmantissa
    have hboth := hmantissa.mul_opt (exponentLength_munch (cs.drop m))
      (fun _ hw => mem_kstar_of_mantissa hw) hexponent
    rwa [nonzero_getD] at hboth

/-- The rest of a string ends here, or goes on with a piece. -/
theorem rest_eq_quote_or_piece : pieceTexts∗ * char (· == '"') = char (· == '"') +
    (char (· == '\\') * (char (fun _ => true) * (pieceTexts∗ * char (· == '"'))) +
      char isPlain * (pieceTexts∗ * char (· == '"'))) := by
  conv_lhs => rw [← Language.one_add_self_mul_kstar_eq_kstar, add_mul, one_mul, mul_assoc]
  conv_lhs => enter [2, 1]; rw [pieceTexts]
  rw [add_mul, mul_assoc]

theorem stringTail?_munch (cs : List Char) :
    Munch (pieceTexts∗ * char (· == '"')) cs (stringTail? cs) := by
  fun_induction stringTail? cs with
  | case1 =>
    rw [rest_eq_quote_or_piece]
    exact Munch.add (Opens.single _).munch_nil
      (Munch.add (Opens.single _).mul.munch_nil (Opens.single _).mul.munch_nil)
  | case2 cs =>
    rw [rest_eq_quote_or_piece]
    exact Munch.add (Munch.char _ '"' cs) (Munch.add ((Opens.single _).mul.munch_cons (by decide))
      ((Opens.single _).mul.munch_cons (by decide)))
  | case3 c cs ih =>
    rw [rest_eq_quote_or_piece]
    have hescaped := Munch.cons (p := (· == '\\')) (c := '\\') rfl
      (.cons (p := fun _ => true) (c := c) rfl ih)
    rw [Option.map_map] at hescaped
    exact Munch.add_right ((Opens.single _).munch_cons (by decide))
      (Munch.add hescaped ((Opens.single _).mul.munch_cons (by decide)))
  | case4 cs _ hend =>
    -- a backslash at the end of the text
    obtain rfl : cs = [] := by
      cases cs with
      | nil => rfl
      | cons c cs => exact (hend c cs rfl rfl).elim
    rw [rest_eq_quote_or_piece]
    have hnothing : Munch (char (fun _ => true) * (pieceTexts∗ * char (· == '"'))) [] none :=
      (Opens.single _).mul.munch_nil
    exact Munch.add_right ((Opens.single _).munch_cons (by decide))
      (Munch.add (hnothing.cons rfl) ((Opens.single _).mul.munch_cons (by decide)))
  | case5 c cs hq _ hb ih =>
    rw [rest_eq_quote_or_piece]
    have hplain : isPlain c = true := by
      simp [isPlain, hb, show c ≠ '"' from hq]
    exact Munch.add_right ((Opens.single _).munch_cons fun hc => hq (beq_iff_eq.mp hc))
      (Munch.add_right ((Opens.single _).mul.munch_cons fun hc => hb (beq_iff_eq.mp hc))
        (.cons hplain ih))

theorem string?_munch (cs : List Char) :
    Munch (char (· == '"') * (pieceTexts∗ * char (· == '"'))) cs (string? cs) := by
  unfold string?
  split
  · next cs => exact .cons rfl (stringTail?_munch cs)
  · next hne => exact (Opens.single _).mul.munch_of_ne hne

theorem comment?_munch (cs : List Char) :
    Munch (char (· == '#') * (char fun c => !isLineEnd c)∗) cs (comment? cs) := by
  unfold comment?
  split
  · next cs => exact .cons rfl (.kstar _ cs)
  · next hne => exact (Opens.single _).mul.munch_of_ne hne

theorem ident?_munch (l : Letters) (cs : List Char) :
    Munch (char l.begins * (char l.continues)∗) cs (ident? l cs) := by
  cases cs with
  | nil => exact (Opens.single _).mul.munch_nil
  | cons c cs =>
    rw [ident?]
    split
    · next hc => exact .cons hc (.kstar _ cs)
    · next hc => exact (Opens.single _).mul.munch_cons hc

theorem mark?_munch (m : Char) (cs : List Char) : Munch (char (· == m)) cs (mark? m cs) := by
  cases cs with
  | nil => exact (Opens.single _).munch_nil
  | cons c cs =>
    have hchar := Munch.char (· == m) c cs
    simpa only [mark?, beq_iff_eq] using hchar

end Kinds

namespace LexicalClass

/-- Every kind of lexeme reads the longest beginning that belongs to it. -/
theorem munch (l : Letters) (x : LexicalClass) (cs : List Char) :
    Munch (x.texts l) cs (x.length? l cs) := by
  cases x with
  | blanks => exact Munch.chars isSpace cs
  | comment => exact comment?_munch cs
  | number => exact number?_munch cs
  | string => exact string?_munch cs
  | ident => exact ident?_munch l cs
  | mark c t => exact mark?_munch c cs

theorem opens (l : Letters) (x : LexicalClass) :
    Opens (x.texts l) fun c => x.starts l c = true := by
  cases x with
  | blanks => exact (Opens.single _).mul
  | comment => exact (Opens.single _).mul
  | number =>
    refine Opens.mul (.add ((Opens.single _).mul.mul.mono ?_) ((Opens.single _).mul.mono ?_))
    · intro c hc
      simp [starts, hc]
    · intro c hc
      simp [starts, hc]
  | string => exact (Opens.single _).mul
  | ident => exact (Opens.single _).mul
  | mark c t => exact Opens.single _

end LexicalClass

/-- No two kinds of lexemes begin with the same character. -/
theorem starts_disjoint (l : Letters) :
    lexicalClasses.Pairwise fun x y => ∀ c, x.starts l c = true → y.starts l c = false := by
  have hmarks : marks.Pairwise fun m n => m.1 ≠ n.1 := by decide
  have hothers : ∀ m ∈ marks, isSpace m.1 = false ∧ (m.1 == '#') = false ∧
      (m.1.isDigit || m.1 == '.') = false ∧ (m.1 == '"') = false := by decide
  have hblank {c : Char} (hc : isSpace c = true) : (c == '#') = false ∧
      (c.isDigit || c == '.') = false ∧ (c == '"') = false := by
    rcases isSpace_cases hc with rfl | rfl | rfl | rfl <;> decide
  have hopener {c d : Char} (hd : d ∈ openers) (hc : (c == d) = true) : l.begins c = false := by
    rw [beq_iff_eq.mp hc]
    exact l.begins_of_mem_openers d hd
  rw [lexicalClasses, List.pairwise_append]
  refine ⟨?_, ?_, ?_⟩
  · -- the kinds that have several characters, each against those behind it in the list
    simp only [List.pairwise_cons, List.mem_cons, List.not_mem_nil, or_false, forall_eq_or_imp,
      forall_eq, List.Pairwise.nil, and_true, IsEmpty.forall_iff, implies_true]
    refine ⟨⟨fun c hc => (hblank hc).1, fun c hc => (hblank hc).2.1, fun c hc => (hblank hc).2.2,
      l.begins_of_isSpace⟩, ⟨?_, ?_, fun c => hopener (by decide)⟩, ⟨?_, ?_⟩,
      fun c => hopener (by decide)⟩
    · intro c hc
      rw [beq_iff_eq.mp hc]
      rfl
    · intro c hc
      rw [beq_iff_eq.mp hc]
      rfl
    · intro c hc
      refine beq_eq_false_iff_ne.mpr ?_
      rintro rfl
      cases hc
    · intro c hc
      rcases Bool.or_eq_true_iff.mp hc with hdigit | hpoint
      · exact l.begins_of_isDigit c hdigit
      · exact hopener (by decide) hpoint
  · rw [List.pairwise_map]
    refine hmarks.imp fun hne c hc => beq_eq_false_iff_ne.mpr ?_
    rwa [beq_iff_eq.mp hc]
  · intro x hx y hy c hc
    obtain ⟨m, hm, rfl⟩ := List.mem_map.mp hy
    have hmark : x.starts l m.1 = false := by
      obtain ⟨hspace, hcomment, hnumber, hstring⟩ := hothers m hm
      simp only [List.mem_cons, List.not_mem_nil, or_false] at hx
      rcases hx with rfl | rfl | rfl | rfl | rfl
      · exact hspace
      · exact hcomment
      · exact hnumber
      · exact hstring
      · exact l.begins_of_mem_openers _ (List.mem_append_right _ (List.mem_map_of_mem hm))
    refine beq_eq_false_iff_ne.mpr ?_
    rintro rfl
    rw [hmark] at hc
    cases hc

section Scan

variable {l : Letters} {x y : LexicalClass} {cs v w : List Char}

/-- At most one kind of lexeme fits a text. -/
theorem class_unique (hx : x ∈ lexicalClasses) (hy : y ∈ lexicalClasses) (hw : w ∈ x.texts l)
    (hv : v ∈ y.texts l) (hwcs : w <+: cs) (hvcs : v <+: cs) : x = y := by
  have hsymm : Std.Symm fun x y : LexicalClass =>
      ∀ c, x.starts l c = true → y.starts l c = true → x = y :=
    ⟨fun x y h c hy hx => (h c hx hy).symm⟩
  have hpairs : lexicalClasses.Pairwise fun x y =>
      ∀ c, x.starts l c = true → y.starts l c = true → x = y := by
    refine (starts_disjoint l).imp fun h c hx hy => ?_
    rw [h c hx] at hy
    cases hy
  have hunique := hpairs.forall_of_forall fun _ _ _ _ _ => rfl
  cases w with
  | nil => exact absurd hw (x.opens l).nonempty
  | cons c w =>
    cases v with
    | nil => exact absurd hv (y.opens l).nonempty
    | cons d v =>
      obtain ⟨more, rfl⟩ := hwcs
      obtain ⟨rfl, -⟩ := List.cons_prefix_cons.mp hvcs
      exact hunique hx hy d ((x.opens l).first d w hw) ((y.opens l).first d v hv)

theorem scan_eq :
    scan l cs = lexicalClasses.findSome? fun x => (x.length? l cs).map (x.type?, ·) := by
  rw [scan, lexemes_eq, List.findSome?_map]
  rfl

theorem scan_eq_none_iff :
    scan l cs = none ↔ ∀ x ∈ lexicalClasses, ∀ w ∈ x.texts l, ¬ w <+: cs := by
  rw [scan_eq, List.findSome?_eq_none_iff]
  refine forall₂_congr fun x _ => ?_
  have hmunch := x.munch l cs
  cases hlength : x.length? l cs with
  | none =>
    rw [hlength] at hmunch
    exact iff_of_true rfl hmunch
  | some k =>
    rw [hlength] at hmunch
    obtain ⟨-, htake, -⟩ := hmunch
    exact iff_of_false nofun fun h => h _ htake (List.take_prefix k cs)

/-- What is scanned belongs to one of the languages, and no longer beginning of the
text belongs to any. -/
theorem scan_longest {t : Option TokenType} {k : Nat} (h : scan l cs = some (t, k)) :
    ∃ x ∈ lexicalClasses, x.type? = t ∧ k ≤ cs.length ∧ cs.take k ∈ x.texts l ∧
      ∀ y ∈ lexicalClasses, ∀ w ∈ y.texts l, w <+: cs → w.length ≤ k := by
  rw [scan_eq] at h
  obtain ⟨x, hx, hk⟩ := List.exists_of_findSome?_eq_some h
  obtain ⟨m, hm, heq⟩ := Option.map_eq_some_iff.mp hk
  obtain ⟨rfl, rfl⟩ := Prod.mk.inj heq
  have hmunch := x.munch l cs
  rw [hm] at hmunch
  obtain ⟨hle, htake, hlongest⟩ := hmunch
  refine ⟨x, hx, rfl, hle, htake, fun y hy w hw hbegins => ?_⟩
  obtain rfl := class_unique hx hy htake hw (List.take_prefix m cs) hbegins
  exact hlongest w hw hbegins

/-- And the longest beginning of the text that belongs to any of the languages is what
is scanned. -/
theorem scan_eq_some_iff {t : Option TokenType} {k : Nat} : scan l cs = some (t, k) ↔
    ∃ x ∈ lexicalClasses, x.type? = t ∧ k ≤ cs.length ∧ cs.take k ∈ x.texts l ∧
      ∀ y ∈ lexicalClasses, ∀ w ∈ y.texts l, w <+: cs → w.length ≤ k := by
  refine ⟨scan_longest, ?_⟩
  rintro ⟨x, hx, rfl, hle, htake, hlongest⟩
  cases hscan : scan l cs with
  | none => exact absurd (List.take_prefix k cs) (scan_eq_none_iff.mp hscan x hx _ htake)
  | some p =>
    obtain ⟨t, m⟩ := p
    obtain ⟨y, hy, rfl, hle', htake', hlongest'⟩ := scan_longest hscan
    have hkm := hlongest' x hx _ htake (List.take_prefix k cs)
    have hmk := hlongest y hy _ htake' (List.take_prefix m cs)
    rw [List.length_take_of_le hle] at hkm
    rw [List.length_take_of_le hle'] at hmk
    obtain rfl := class_unique hx hy htake htake' (List.take_prefix k cs) (List.take_prefix m cs)
    rw [Nat.le_antisymm hkm hmk]

end Scan

/-- One step of the lexer is maximal munch. Whatever text is in front of it, it takes
the longest beginning that belongs to any of the lexical languages, with the type of
tokens that this language makes, and finds nothing exactly where no beginning belongs
to any of them. It never takes the empty text, and no two of the languages have a
beginning of the same text. -/
theorem scan_is_longest (cs : List Char) :
    (∀ t k, scan letters cs = some (t, k) ↔
      ∃ x ∈ lexicalClasses, x.type? = t ∧ k ≤ cs.length ∧ cs.take k ∈ x.texts letters ∧
        ∀ y ∈ lexicalClasses, ∀ w ∈ y.texts letters, w <+: cs → w.length ≤ k) ∧
    (scan letters cs = none ↔ ∀ x ∈ lexicalClasses, ∀ w ∈ x.texts letters, ¬ w <+: cs) ∧
    (∀ t k, scan letters cs = some (t, k) → 0 < k) ∧
    ∀ x ∈ lexicalClasses, ∀ y ∈ lexicalClasses, ∀ w ∈ x.texts letters, ∀ v ∈ y.texts letters,
      w <+: cs → v <+: cs → x = y := by
  refine ⟨fun t k => scan_eq_some_iff, scan_eq_none_iff, fun t k => scan_pos, ?_⟩
  intro x hx y hy w hw v hv hwcs hvcs
  exact class_unique hx hy hw hv hwcs hvcs

-- An exponent without digits and a string without its end are left where they are.
example : scan letters "1.e+x".toList = some (some number, 2) := by decide
example : scan letters "\"a\\\"".toList = none := by decide

end Descent.Calc
