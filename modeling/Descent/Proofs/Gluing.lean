import Descent.Proofs.Sentences

/-! Greed does no harm. Where statements follow each other without a semicolon,
a sign or a parenthesis may begin the next statement or go on with this one.
Whatever follows an expression can be glued to it: what is left after a sign is
again an expression and its continuation, and what is left after a parenthesis
is an argument, a closing parenthesis, and a continuation. -/

namespace Descent.Calc

open Computability

variable {K : Language TokenType}

theorem kstar_mul_eq (types : List TokenType) (M K : Language TokenType) :
    (oneOf types * M)∗ * K = K + oneOf types * (M * ((oneOf types * M)∗ * K)) := by
  conv_lhs => rw [← Language.one_add_self_mul_kstar_eq_kstar]
  rw [add_mul, one_mul, mul_assoc, mul_assoc]

theorem opt_mul_eq (types : List TokenType) (M K : Language TokenType) :
    (1 + oneOf types * M) * K = K + oneOf types * (M * K) := by
  rw [add_mul, one_mul, mul_assoc]

/-- Without the token in front of it an optional part is not there. -/
theorem mem_of_absent {types : List TokenType} {N : Language TokenType} {ts : List TokenType}
    (h : ts ∈ K + oneOf types * N) (hfirst : ∀ t us, ts = t :: us → t ∉ types) : ts ∈ K := by
  rcases h with hk | hn
  · exact hk
  · cases ts with
    | nil => exact absurd hn nil_notMem_oneOf_mul
    | cons t us => exact absurd (cons_mem_oneOf_mul.mp hn).1 (hfirst t us rfl)

theorem cons_mem_of_absent {types : List TokenType} {N : Language TokenType} {t : TokenType}
    {ts : List TokenType} (h : t :: ts ∈ K + oneOf types * N) (ht : t ∉ types) : t :: ts ∈ K :=
  mem_of_absent h fun _ _ e => (List.cons.inj e).1 ▸ ht

/-- With the token in front of it, which cannot come after it, it is there. -/
theorem mem_of_present {types : List TokenType} {N : Language TokenType} {t : TokenType}
    {ts : List TokenType} (h : t :: ts ∈ K + oneOf types * N) (hk : t :: ts ∈ K → ts ∈ N) :
    ts ∈ N := by
  rcases h with h | h
  · exact hk h
  · exact (cons_mem_oneOf_mul.mp h).2

/-- What may come after a rule where `K` may come after an expression. -/
def after : Rule → Language TokenType → Language TokenType
  | .term, K => moreTerms * K
  | .factor, K => moreFactors * (moreTerms * K)
  | .primary, K => power * (moreFactors * (moreTerms * K))
  | .call, K => power * (moreFactors * (moreTerms * K))
  | _, K => K

theorem after_term_eq (K : Language TokenType) :
    after .term K = K + signs * (sentences .term * after .term K) := kstar_mul_eq ..

theorem after_factor_eq (K : Language TokenType) :
    after .factor K = after .term K + scalings * (sentences .factor * after .factor K) :=
  kstar_mul_eq ..

theorem after_primary_eq (K : Language TokenType) :
    after .primary K = after .factor K + oneOf [caret] * (sentences .factor * after .factor K) :=
  opt_mul_eq ..

theorem term_mul (K : Language TokenType) :
    sentences .term * after .term K = sentences .factor * after .factor K := by
  rw [term_eq, mul_assoc]
  rfl

theorem expression_mul (K : Language TokenType) :
    sentences .expression * K = sentences .term * after .term K := by
  rw [expression_eq, mul_assoc]
  rfl

theorem factor_mul (K : Language TokenType) :
    sentences .factor * after .factor K = signs * (sentences .factor * after .factor K) +
      sentences .primary * after .primary K := by
  conv_lhs => rw [factor_eq, add_mul, mul_assoc, mul_assoc]
  rfl

/-- An expression begins with a sign and is one without it, or with a primary
expression. -/
theorem expression_split (K : Language TokenType) :
    sentences .expression * K = signs * (sentences .expression * K) +
      sentences .primary * after .primary K := by
  rw [expression_mul, term_mul]
  exact factor_mul K

theorem primary_mul (K : Language TokenType) :
    sentences .primary * K = oneOf [number, string, ident] * K + (sentences .call * K +
      oneOf [lparen] * (sentences .expression * (oneOf [rparen] * K))) := by
  rw [primary_eq, add_mul, add_mul, mul_assoc, mul_assoc]

theorem call_mul (K : Language TokenType) :
    sentences .call * K = oneOf [ident] * (oneOf [lparen] *
      ((1 + sentences .expression * moreArguments) * (oneOf [rparen] * K))) := by
  rw [call_eq, mul_assoc, mul_assoc, mul_assoc]

section After

variable {t : TokenType} {ts : List TokenType}

theorem mem_of_after_term (ht : t ∉ [plus, minus]) (h : t :: ts ∈ after .term K) :
    t :: ts ∈ K := by
  rw [after_term_eq] at h
  exact cons_mem_of_absent h ht

theorem mem_of_after_factor (ht : t ∉ [star, slash, percent] ++ [plus, minus])
    (h : t :: ts ∈ after .factor K) : t :: ts ∈ K := by
  rw [List.mem_append, not_or] at ht
  rw [after_factor_eq] at h
  exact mem_of_after_term ht.2 (cons_mem_of_absent h ht.1)

/-- What follows a primary expression and is no operator follows the whole
expression. -/
theorem mem_of_after_primary (ht : t ∉ [caret] ++ ([star, slash, percent] ++ [plus, minus]))
    (h : t :: ts ∈ after .primary K) : t :: ts ∈ K := by
  rw [List.mem_append, not_or] at ht
  rw [after_primary_eq] at h
  exact mem_of_after_factor ht.2 (cons_mem_of_absent h ht.1)

end After

/-- A continuation of expressions that can be glued to them. -/
structure Glue (K : Language TokenType) : Prop where
  sign : ∀ t ts, t ∈ [plus, minus] → t :: ts ∈ K → ts ∈ sentences .expression * K
  paren : ∀ ts, lparen :: ts ∈ K →
    ts ∈ sentences .expression * (oneOf [rparen] * after .primary K)
  other : ∀ t ts, t ∈ [star, slash, percent, caret, assign] → t :: ts ∉ K

/-- Where no word begins with one of these tokens there is nothing to glue. -/
theorem Glue.of_first (h : ∀ t ts, t :: ts ∈ K →
    t ∉ [plus, minus, lparen, star, slash, percent, caret, assign]) : Glue K where
  sign t ts ht hts := absurd (List.mem_append_left [lparen, star, slash, percent, caret, assign] ht)
    (h t ts hts)
  paren ts hts := absurd (h _ ts hts) (by decide)
  other t ts ht hts := h t ts hts (List.mem_append_right [plus, minus, lparen] ht)

/-- Commas and closing parentheses leave nothing to glue. -/
theorem Glue.of_closing (h : ∀ t ts, t :: ts ∈ K → t ∈ [comma, rparen]) : Glue K := by
  refine .of_first fun t ts hts => ?_
  have hall : ∀ t ∈ [comma, rparen],
      t ∉ [plus, minus, lparen, star, slash, percent, caret, assign] := by decide
  exact hall t (h t ts hts)

namespace Glue

variable (h : Glue K)

include h

theorem sign_term {t : TokenType} {ts : List TokenType} (ht : t ∈ [plus, minus])
    (hts : t :: ts ∈ K) : ts ∈ sentences .term * after .term K := by
  rw [← expression_mul]
  exact h.sign t ts ht hts

/-- No multiplication follows a term. -/
theorem scaling_notMem {t : TokenType} {ts : List TokenType} (ht : t ∈ [star, slash, percent]) :
    t :: ts ∉ after .term K := by
  intro hts
  have hall : ∀ t ∈ [star, slash, percent],
      t ∉ [plus, minus] ∧ t ∈ [star, slash, percent, caret, assign] := by decide
  exact h.other t ts (hall t ht).2 (mem_of_after_term (hall t ht).1 hts)

theorem caret_notMem {ts : List TokenType} : caret :: ts ∉ after .factor K :=
  fun hts => h.other caret ts (by decide) (mem_of_after_factor (by decide) hts)

theorem paren_primary {ts : List TokenType} (hts : lparen :: ts ∈ after .primary K) :
    ts ∈ sentences .expression * (oneOf [rparen] * after .primary K) :=
  h.paren ts (mem_of_after_primary (by decide) hts)

theorem assign_notMem {ts : List TokenType} : assign :: ts ∉ after .primary K :=
  fun hts => h.other assign ts (by decide) (mem_of_after_primary (by decide) hts)

end Glue

section Primary

variable {ts : List TokenType}

theorem primary_literal {t : TokenType} (ht : t ∈ [number, string])
    (h : t :: ts ∈ sentences .primary * K) : ts ∈ K := by
  have hall : ∀ t ∈ [number, string], t ≠ ident ∧ t ∉ [lparen] := by decide
  rw [primary_mul] at h
  rcases h with hname | hcall | hparen
  · exact (cons_mem_oneOf_mul.mp hname).2
  · exact absurd ((sentences_opens (by decide)).mul.first t ts hcall) (hall t ht).1
  · exact absurd (cons_mem_oneOf_mul.mp hparen).1 (hall t ht).2

theorem primary_name (hts : ∀ us, ts ≠ lparen :: us) (h : ident :: ts ∈ sentences .primary * K) :
    ts ∈ K := by
  rw [primary_mul] at h
  rcases h with hname | hcall | hparen
  · exact (cons_mem_oneOf_mul.mp hname).2
  · rw [call_mul] at hcall
    have hopen := (cons_mem_oneOf_mul.mp hcall).2
    cases ts with
    | nil => exact absurd hopen nil_notMem_oneOf_mul
    | cons t us =>
      obtain rfl := List.mem_singleton.mp (cons_mem_oneOf_mul.mp hopen).1
      exact absurd rfl (hts us)
  · exact absurd (cons_mem_oneOf_mul.mp hparen).1 (by decide)

/-- A name before a parenthesis can always be read as a call. -/
theorem primary_call (hK : Glue K)
    (h : ident :: lparen :: ts ∈ sentences .primary * after .primary K) :
    ident :: lparen :: ts ∈ sentences .call * after .primary K := by
  rw [primary_mul] at h
  rcases h with hname | hcall | hparen
  · obtain ⟨e, he, b, hb, rfl⟩ := hK.paren_primary (cons_mem_oneOf_mul.mp hname).2
    have hargument : e ∈ 1 + sentences .expression * moreArguments := by
      refine Or.inr ⟨e, he, [], Language.nil_mem_kstar _, List.append_nil e⟩
    rw [call_mul]
    exact cons_mem_oneOf_mul.mpr ⟨List.mem_singleton_self _, cons_mem_oneOf_mul.mpr
      ⟨List.mem_singleton_self _, Language.append_mem_mul hargument hb⟩⟩
  · exact hcall
  · exact absurd (cons_mem_oneOf_mul.mp hparen).1 (by decide)

theorem primary_paren (h : lparen :: ts ∈ sentences .primary * K) :
    ts ∈ sentences .expression * (oneOf [rparen] * K) := by
  rw [primary_mul] at h
  rcases h with hname | hcall | hparen
  · exact absurd (cons_mem_oneOf_mul.mp hname).1 (by decide)
  · have hident : lparen = ident := (sentences_opens (r := .call) (by decide)).mul.first _ ts hcall
    exact absurd hident (by decide)
  · exact (cons_mem_oneOf_mul.mp hparen).2

end Primary

/-- An expression is not begun by a name and an equals sign. -/
theorem Glue.assignment_notMem (h : Glue K) {ts : List TokenType} :
    ident :: assign :: ts ∉ sentences .expression * K := by
  intro hts
  rw [expression_split] at hts
  have hprimary := cons_mem_of_absent (K := sentences .primary * after .primary K)
    (by rwa [add_comm] at hts) (by decide)
  have hname := primary_name (fun us e => absurd (List.cons.inj e).1 (by decide)) hprimary
  exact h.assign_notMem hname

/-- What follows an expression in a statement. -/
def rest : Language TokenType := (1 + oneOf [semi]) * (sentences .statement)∗

theorem rest_eq :
    rest = (sentences .statement)∗ + oneOf [semi] * (sentences .statement)∗ := by
  rw [rest, add_mul, one_mul]

theorem statement_mul : sentences .statement * (sentences .statement)∗ =
    sentences .assignment * rest + sentences .expression * rest := by
  calc sentences .statement * (sentences .statement)∗
      = (sentences .assignment + sentences .expression) * (1 + oneOf [semi]) *
          (sentences .statement)∗ := by rw [← statement_eq]
    _ = (sentences .assignment + sentences .expression) * rest := by rw [mul_assoc, rest]
    _ = sentences .assignment * rest + sentences .expression * rest := by rw [add_mul]

theorem cons_mem_statements {t : TokenType} {ts : List TokenType}
    (h : t :: ts ∈ (sentences .statement)∗) :
    t :: ts ∈ sentences .statement * (sentences .statement)∗ := by
  rw [← Language.one_add_self_mul_kstar_eq_kstar] at h
  rcases h with h | h
  · cases h
  · exact h

/-- The first token of a statement that is no name begins an expression. -/
theorem mem_expression_of_statements {t : TokenType} {ts : List TokenType} (ht : t ≠ ident)
    (h : t :: ts ∈ (sentences .statement)∗) : t :: ts ∈ sentences .expression * rest := by
  have hs := cons_mem_statements h
  rw [statement_mul] at hs
  rcases hs with ha | he
  · exact absurd ((sentences_opens (by decide)).mul.first t ts ha) ht
  · exact he

theorem statements_opens {t : TokenType} {ts : List TokenType}
    (h : t :: ts ∈ (sentences .statement)∗) : expressionStart.contains t = true :=
  (sentences_opens (r := .statement) (by decide)).mul.first t ts (cons_mem_statements h)

/-- Whatever statements come next can be glued to an expression. -/
theorem rest_glue : Glue rest where
  sign := by
    intro t ts ht hts
    have hall : ∀ t ∈ [plus, minus], t ∉ [semi] ∧ t ≠ ident ∧ t ∉ primaryStart := by decide
    obtain ⟨hsemi, hident, hprimary⟩ := hall t ht
    rw [rest_eq] at hts
    have he := mem_expression_of_statements hident (cons_mem_of_absent hts hsemi)
    rw [expression_split] at he
    rcases he with h | h
    · exact (cons_mem_oneOf_mul.mp h).2
    · exact absurd ((sentences_opens (by decide)).mul.first t ts h) hprimary
  paren := by
    intro ts hts
    rw [rest_eq] at hts
    have he := mem_expression_of_statements (by decide) (cons_mem_of_absent hts (by decide))
    rw [expression_split] at he
    rcases he with h | h
    · exact absurd (cons_mem_oneOf_mul.mp h).1 (by decide)
    · exact primary_paren h
  other := by
    intro t ts ht hts
    have hall : ∀ t ∈ [star, slash, percent, caret, assign],
        t ∉ [semi] ∧ t ∉ [number, string, ident, lparen, plus, minus] := by decide
    rw [rest_eq] at hts
    have hs := cons_mem_of_absent hts (hall t ht).1
    exact (hall t ht).2 ((expressionStart_contains t).mp (statements_opens hs))

end Descent.Calc
