import Descent.Proofs.Grammar

/-! The sentences of calc as languages of token types. A right-hand side has the
language that its parts make, and a rule has that of its right-hand side; every
sentence of a rule begins with one of a few tokens. -/

namespace Descent

open Computability

/-- `R` says which lists stand for a word; a list that stands for two words in a
row is made of one for each. -/
structure Compositional {α : Type} (R : List Symbol → List α → Prop) : Prop where
  nil : ∀ ts, R [] ts ↔ ts = []
  append : ∀ v w ts, R (v ++ w) ts ↔ ∃ us, R v us ∧ ∃ vs, R w vs ∧ us ++ vs = ts

namespace Pattern

variable {α : Type} {R : List Symbol → List α → Prop}

/-- The lists that stand for the words of a right-hand side. -/
def image (R : List Symbol → List α → Prop) (p : Pattern) : Language α :=
  {ts | ∃ w ∈ p.words, R w ts}

theorem image_seq (h : Compositional R) (p q : Pattern) :
    (seq p q).image R = p.image R * q.image R := by
  ext ts
  constructor
  · rintro ⟨w, ⟨a, ha, b, hb, rfl⟩, hw⟩
    obtain ⟨us, hu, vs, hv, rfl⟩ := (h.append a b ts).mp hw
    exact Language.append_mem_mul ⟨a, ha, hu⟩ ⟨b, hb, hv⟩
  · rintro ⟨us, ⟨a, ha, hu⟩, vs, ⟨b, hb, hv⟩, rfl⟩
    exact ⟨a ++ b, Language.append_mem_mul ha hb, (h.append a b _).mpr ⟨us, hu, vs, hv, rfl⟩⟩

theorem image_alt (p q : Pattern) : (alt p q).image R = p.image R + q.image R := by
  ext ts
  constructor
  · rintro ⟨w, hw | hw, h⟩
    · exact Or.inl ⟨w, hw, h⟩
    · exact Or.inr ⟨w, hw, h⟩
  · rintro (⟨w, hw, h⟩ | ⟨w, hw, h⟩)
    · exact ⟨w, Or.inl hw, h⟩
    · exact ⟨w, Or.inr hw, h⟩

theorem image_opt (h : Compositional R) (p : Pattern) : (opt p).image R = 1 + p.image R := by
  ext ts
  constructor
  · rintro ⟨w, hw | hw, hts⟩
    · obtain rfl : w = [] := hw
      exact Or.inl ((h.nil ts).mp hts)
    · exact Or.inr ⟨w, hw, hts⟩
  · rintro (hts | ⟨w, hw, hts⟩)
    · exact ⟨[], Or.inl rfl, (h.nil ts).mpr hts⟩
    · exact ⟨w, Or.inr hw, hts⟩

theorem image_many (h : Compositional R) (p : Pattern) : (many p).image R = (p.image R)∗ := by
  ext ts
  constructor
  · rintro ⟨w, ⟨ws, rfl, hws⟩, hts⟩
    induction ws generalizing ts with
    | nil =>
      obtain rfl := (h.nil ts).mp hts
      exact Language.nil_mem_kstar _
    | cons w ws ih =>
      obtain ⟨us, hu, vs, hv, rfl⟩ := (h.append w ws.flatten ts).mp hts
      rw [← Language.one_add_self_mul_kstar_eq_kstar]
      exact Or.inr (Language.append_mem_mul ⟨w, hws w List.mem_cons_self, hu⟩
        (ih vs (fun y hy => hws y (List.mem_cons_of_mem w hy)) hv))
  · rintro ⟨tss, rfl, htss⟩
    induction tss with
    | nil => exact ⟨[], Language.nil_mem_kstar _, (h.nil []).mpr rfl⟩
    | cons us tss ih =>
      obtain ⟨w, hw, hu⟩ := htss us List.mem_cons_self
      obtain ⟨v, hv, hr⟩ := ih fun y hy => htss y (List.mem_cons_of_mem us hy)
      refine ⟨w ++ v, ?_, (h.append w v _).mpr ⟨us, hu, _, hr, rfl⟩⟩
      show w ++ v ∈ p.words∗
      rw [← Language.one_add_self_mul_kstar_eq_kstar]
      exact Or.inr (Language.append_mem_mul hw hv)

end Pattern

end Descent

namespace Descent.Calc

open Computability

theorem derivesAll_append {v w : List Symbol} {ts : List TokenType} :
    DerivesAll (v ++ w) ts ↔
      ∃ us, DerivesAll v us ∧ ∃ vs, DerivesAll w vs ∧ us ++ vs = ts := by
  induction v generalizing ts with
  | nil =>
    constructor
    · intro h
      exact ⟨[], .nil, ts, h, rfl⟩
    · rintro ⟨us, hu, vs, hv, rfl⟩
      cases hu
      exact hv
  | cons x v ih =>
    constructor
    · intro h
      cases h with
      | cons hx hr =>
        obtain ⟨us, hu, vs, hv, rfl⟩ := ih.mp hr
        exact ⟨_, .cons hx hu, vs, hv, List.append_assoc ..⟩
    · rintro ⟨us, hu, vs, hv, rfl⟩
      cases hu with
      | cons hx hr =>
        rw [List.append_assoc, List.cons_append]
        exact .cons hx (ih.mpr ⟨_, hr, vs, hv, rfl⟩)

theorem derivesAll_compositional : Compositional DerivesAll where
  nil := by
    intro ts
    constructor
    · intro h
      cases h
      rfl
    · rintro rfl
      exact .nil
  append _ _ _ := derivesAll_append

/-- The token types that a right-hand side stands for in the end. -/
def texts (p : Pattern) : Language TokenType := {ts | ∃ w ∈ p.words, DerivesAll w ts}

theorem texts_symbol (x : Symbol) : texts (.symbol x) = {ts | Derives x ts} := by
  ext ts
  constructor
  · rintro ⟨w, rfl, h⟩
    cases h with
    | cons hx hr =>
      cases hr
      rw [List.append_nil]
      exact hx
  · intro h
    exact ⟨[x], rfl, by simpa using DerivesAll.cons h .nil⟩

theorem texts_seq (p q : Pattern) : texts (.seq p q) = texts p * texts q :=
  Pattern.image_seq derivesAll_compositional p q

theorem texts_alt (p q : Pattern) : texts (.alt p q) = texts p + texts q :=
  Pattern.image_alt p q

theorem texts_opt (p : Pattern) : texts (.opt p) = 1 + texts p :=
  Pattern.image_opt derivesAll_compositional p

theorem texts_many (p : Pattern) : texts (.many p) = (texts p)∗ :=
  Pattern.image_many derivesAll_compositional p

/-- The sentences of a rule. -/
def sentences (r : Rule) : Language TokenType := texts (sub r)

theorem mem_sentences {r : Rule} {ts : List TokenType} : ts ∈ sentences r ↔ Sentence r ts := by
  rw [sentences, sub, texts_symbol]
  rfl

theorem sentences_eq (r : Rule) : sentences r = texts (production r) := by
  ext ts
  rw [mem_sentences]
  constructor
  · intro h
    unfold Sentence at h
    generalize hx : Symbol.rule r.index = x at h
    cases h with
    | token t => cases hx
    | rule r' hw hd =>
      obtain rfl := Rule.index_injective (Symbol.rule.inj hx)
      exact ⟨_, hw, hd⟩
  · rintro ⟨w, hw, hd⟩
    exact .rule r hw hd

section Openings

variable {α : Type} {L M : Language α} {P Q : α → Prop}

/-- The words of one letter, with a property. -/
def single (P : α → Prop) : Language α := {w | ∃ x, P x ∧ w = [x]}

theorem cons_mem_single_mul {x : α} {w : List α} : x :: w ∈ single P * L ↔ P x ∧ w ∈ L := by
  constructor
  · rintro ⟨a, ⟨y, hy, rfl⟩, b, hb, h⟩
    obtain ⟨rfl, rfl⟩ : y = x ∧ b = w := by simpa using h
    exact ⟨hy, hb⟩
  · rintro ⟨hx, hw⟩
    exact ⟨[x], ⟨x, hx, rfl⟩, w, hw, rfl⟩

/-- No word of `L` is empty, and their first letters satisfy `P`. -/
structure Opens (L : Language α) (P : α → Prop) : Prop where
  nonempty : [] ∉ L
  first : ∀ x w, x :: w ∈ L → P x

namespace Opens

theorem mono (h : Opens L P) (hPQ : ∀ x, P x → Q x) : Opens L Q :=
  ⟨h.nonempty, fun x w hw => hPQ x (h.first x w hw)⟩

theorem mul (h : Opens L P) : Opens (L * M) P := by
  constructor
  · rintro ⟨a, ha, b, -, hab⟩
    obtain ⟨rfl, -⟩ := List.append_eq_nil_iff.mp hab
    exact h.nonempty ha
  · rintro x w ⟨a, ha, b, -, hab⟩
    cases a with
    | nil => exact absurd ha h.nonempty
    | cons y a =>
      obtain ⟨rfl, -⟩ := List.cons.inj hab
      exact h.first _ a ha

theorem add (h : Opens L P) (h' : Opens M P) : Opens (L + M) P := by
  constructor
  · rintro (hl | hm)
    · exact h.nonempty hl
    · exact h'.nonempty hm
  · rintro x w (hl | hm)
    · exact h.first x w hl
    · exact h'.first x w hm

theorem single (P : α → Prop) : Opens (single P) P := by
  constructor
  · rintro ⟨x, -, h⟩
    cases h
  · rintro x w ⟨y, hy, h⟩
    obtain ⟨rfl, -⟩ := List.cons.inj h
    exact hy

end Opens

end Openings

/-- One token, of one of these types. -/
def oneOf (types : List TokenType) : Language TokenType := {w | ∃ t ∈ types, w = [t]}

theorem Opens.oneOf (types : List TokenType) : Opens (oneOf types) (· ∈ types) :=
  Opens.single (· ∈ types)

theorem texts_tok (t : TokenType) : texts (tok t) = oneOf [t] := by
  ext ts
  rw [tok, texts_symbol]
  constructor
  · intro h
    cases h
    exact ⟨t, List.mem_singleton_self t, rfl⟩
  · rintro ⟨u, hu, rfl⟩
    obtain rfl := List.mem_singleton.mp hu
    exact .token u

theorem oneOf_add (types more : List TokenType) :
    oneOf types + oneOf more = oneOf (types ++ more) := by
  ext w
  constructor
  · rintro (⟨t, ht, rfl⟩ | ⟨t, ht, rfl⟩)
    · exact ⟨t, List.mem_append_left _ ht, rfl⟩
    · exact ⟨t, List.mem_append_right _ ht, rfl⟩
  · rintro ⟨t, ht, rfl⟩
    rcases List.mem_append.mp ht with h | h
    · exact Or.inl ⟨t, h, rfl⟩
    · exact Or.inr ⟨t, h, rfl⟩

@[simp]
theorem cons_mem_oneOf_mul {types : List TokenType} {K : Language TokenType} {t : TokenType}
    {ts : List TokenType} : t :: ts ∈ oneOf types * K ↔ t ∈ types ∧ ts ∈ K :=
  cons_mem_single_mul

theorem nil_notMem_oneOf_mul {types : List TokenType} {K : Language TokenType} :
    [] ∉ oneOf types * K :=
  (Opens.single (· ∈ types)).mul.nonempty

def signs : Language TokenType := oneOf [plus, minus]

def scalings : Language TokenType := oneOf [star, slash, percent]

/-- What may follow a term in an expression. -/
def moreTerms : Language TokenType := (signs * sentences .term)∗

/-- What may follow a factor in a term. -/
def moreFactors : Language TokenType := (scalings * sentences .factor)∗

/-- What may follow a primary expression in a factor. -/
def power : Language TokenType := 1 + oneOf [caret] * sentences .factor

/-- What may follow the first argument of a call. -/
def moreArguments : Language TokenType := (oneOf [comma] * sentences .expression)∗

section Equations

theorem texts_sign : texts sign = signs := by
  rw [sign, texts_alt, texts_tok, texts_tok, oneOf_add]
  rfl

theorem texts_scaling : texts scaling = scalings := by
  rw [scaling, texts_alt, texts_alt, texts_tok, texts_tok, texts_tok, oneOf_add, oneOf_add]
  rfl

theorem program_eq : sentences .program = (sentences .statement)∗ := by
  rw [sentences_eq, production, texts_many]
  rfl

theorem statement_eq : sentences .statement =
    (sentences .assignment + sentences .expression) * (1 + oneOf [semi]) := by
  rw [sentences_eq, production, texts_seq, texts_alt, texts_opt, texts_tok]
  rfl

theorem assignment_eq :
    sentences .assignment = oneOf [ident] * (oneOf [assign] * sentences .expression) := by
  rw [sentences_eq, production, texts_seq, texts_seq, texts_tok, texts_tok]
  rfl

theorem expression_eq : sentences .expression = sentences .term * moreTerms := by
  rw [sentences_eq, production, texts_seq, texts_many, texts_seq, texts_sign]
  rfl

theorem term_eq : sentences .term = sentences .factor * moreFactors := by
  rw [sentences_eq, production, texts_seq, texts_many, texts_seq, texts_scaling]
  rfl

theorem factor_eq :
    sentences .factor = signs * sentences .factor + sentences .primary * power := by
  conv_lhs => rw [sentences_eq, production, texts_alt, texts_seq, texts_seq, texts_opt, texts_seq,
    texts_sign, texts_tok]
  rfl

theorem primary_eq : sentences .primary = oneOf [number, string, ident] + (sentences .call +
    oneOf [lparen] * (sentences .expression * oneOf [rparen])) := by
  rw [sentences_eq, production, texts_alt, texts_alt, texts_alt, texts_alt, texts_seq, texts_seq,
    texts_tok, texts_tok, texts_tok, texts_tok, texts_tok, ← add_assoc, ← add_assoc, oneOf_add,
    oneOf_add]
  rfl

theorem call_eq : sentences .call = oneOf [ident] * (oneOf [lparen] *
    ((1 + sentences .expression * moreArguments) * oneOf [rparen])) := by
  rw [sentences_eq, production, texts_seq, texts_seq, texts_seq, texts_opt, texts_seq, texts_many,
    texts_seq, texts_tok, texts_tok, texts_tok, texts_tok]
  rfl

end Equations

theorem Begins.of_primary {t : TokenType} (h : Begins .primary t) : Begins .factor t := by
  have hall : ∀ t ∈ primaryStart, t ∈ [number, string, ident, lparen, plus, minus] := by decide
  exact (expressionStart_contains t).mpr (hall t h)

/-- A sentence of a rule begins with a token at which the rule begins. -/
theorem sentences_opens {r : Rule} (hr : r ≠ .program) : Opens (sentences r) (Begins r) := by
  have hcall : Opens (sentences .call) (Begins .call) := by
    rw [call_eq]
    exact (Opens.oneOf [ident]).mul.mono fun t ht => List.mem_singleton.mp ht
  have hassignment : Opens (sentences .assignment) (Begins .assignment) := by
    rw [assignment_eq]
    exact (Opens.oneOf [ident]).mul.mono fun t ht => List.mem_singleton.mp ht
  have hprimary : Opens (sentences .primary) (Begins .primary) := by
    rw [primary_eq]
    refine ((Opens.oneOf _).mono ?_).add ((hcall.mono ?_).add ((Opens.oneOf _).mul.mono ?_))
    · exact fun t ht => List.mem_append_left [lparen] ht
    · rintro t rfl
      exact List.mem_of_elem_eq_true rfl
    · exact fun t ht => List.mem_append_right [number, string, ident] ht
  have hfactor : Opens (sentences .factor) (Begins .factor) := by
    rw [factor_eq]
    refine ((Opens.oneOf _).mul.mono ?_).add (hprimary.mul.mono fun t => Begins.of_primary)
    exact fun t ht => (expressionStart_contains t).mpr
      (List.mem_append_right [number, string, ident, lparen] ht)
  have hterm : Opens (sentences .term) (Begins .term) := by
    rw [term_eq]
    exact hfactor.mul
  have hexpression : Opens (sentences .expression) (Begins .expression) := by
    rw [expression_eq]
    exact hterm.mul
  cases r with
  | program => exact absurd rfl hr
  | statement =>
    rw [statement_eq]
    refine ((hassignment.mono ?_).add hexpression).mul
    rintro t rfl
    exact (expressionStart_contains ident).mpr (by decide)
  | assignment => exact hassignment
  | expression => exact hexpression
  | term => exact hterm
  | factor => exact hfactor
  | primary => exact hprimary
  | call => exact hcall

end Descent.Calc
