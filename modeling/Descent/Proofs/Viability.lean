import Descent.Proofs.Gluing

/-! Beginnings of words. What may still become a word of a language is said of
the languages that continuations are made of, each of which has a word, and what
is glued to an expression can be glued to it also where something else follows. -/

namespace Descent.Calc

open Computability

variable {K L M : Language TokenType} {t : TokenType} {v : List TokenType}

/-- Some word of `L` begins with `v`. -/
def Viable (L : Language TokenType) (v : List TokenType) : Prop := ∃ z, v ++ z ∈ L

theorem Viable.of_mem (h : v ∈ L) : Viable L [] := ⟨v, h⟩

theorem Viable.of_append {w : List TokenType} (h : Viable L (v ++ w)) : Viable L v := by
  obtain ⟨z, hz⟩ := h
  exact ⟨w ++ z, by rwa [← List.append_assoc]⟩

theorem Viable.mono (h : Viable L v) (hle : ∀ x, v ++ x ∈ L → v ++ x ∈ M) : Viable M v := by
  obtain ⟨z, hz⟩ := h
  exact ⟨z, hle z hz⟩

/-- A word of a product ends in a word of its second factor. -/
theorem Viable.right (h : Viable (L * M) []) : Viable M [] := by
  obtain ⟨z, a, -, b, hb, -⟩ := h
  exact ⟨b, hb⟩

theorem Viable.mul (h : Viable L []) (h' : Viable M []) : Viable (L * M) [] := by
  obtain ⟨a, ha⟩ := h
  obtain ⟨b, hb⟩ := h'
  rw [List.nil_append] at ha hb
  exact .of_mem (Language.append_mem_mul ha hb)

theorem viable_oneOf {choice : List TokenType} (h : t ∈ choice) : Viable (oneOf choice) [] :=
  ⟨[t], t, h, rfl⟩

theorem viable_cons {choice : List TokenType} :
    Viable (oneOf choice * K) (t :: v) ↔ t ∈ choice ∧ Viable K v := by
  constructor
  · rintro ⟨z, hz⟩
    obtain ⟨ht, hv⟩ := cons_mem_oneOf_mul.mp hz
    exact ⟨ht, z, hv⟩
  · rintro ⟨ht, z, hz⟩
    exact ⟨z, cons_mem_oneOf_mul.mpr ⟨ht, hz⟩⟩

/-- No word of `L` begins with a token at which `L` does not open. -/
theorem Opens.not_viable {P : TokenType → Prop} (h : Opens L P) (ht : ¬ P t) :
    ¬ Viable L (t :: v) := by
  rintro ⟨z, hz⟩
  exact ht (h.first t _ hz)

theorem kstar_viable (L : Language TokenType) : Viable L∗ [] := .of_mem (Language.nil_mem_kstar L)

/-- A name alone is a statement, and all that a statement may be made of alone. -/
theorem ident_mem_sentences {r : Rule}
    (hr : r ∈ [Rule.statement, .expression, .term, .factor, .primary]) :
    [ident] ∈ sentences r := by
  have hprimary : [ident] ∈ sentences .primary := by
    rw [primary_eq]
    exact Or.inl ⟨ident, by decide, rfl⟩
  have hfactor : [ident] ∈ sentences .factor := by
    rw [factor_eq]
    exact Or.inr ⟨[ident], hprimary, [], Or.inl rfl, rfl⟩
  have hterm : [ident] ∈ sentences .term := by
    rw [term_eq]
    exact ⟨[ident], hfactor, [], Language.nil_mem_kstar _, rfl⟩
  have hexpression : [ident] ∈ sentences .expression := by
    rw [expression_eq]
    exact ⟨[ident], hterm, [], Language.nil_mem_kstar _, rfl⟩
  have hstatement : [ident] ∈ sentences .statement := by
    rw [statement_eq]
    exact ⟨[ident], Or.inr hexpression, [], Or.inl rfl, rfl⟩
  simp only [List.mem_cons, List.not_mem_nil, or_false] at hr
  rcases hr with rfl | rfl | rfl | rfl | rfl
  · exact hstatement
  · exact hexpression
  · exact hterm
  · exact hfactor
  · exact hprimary

theorem sentences_viable {r : Rule}
    (hr : r ∈ [Rule.statement, .expression, .term, .factor, .primary]) : Viable (sentences r) [] :=
  .of_mem (ident_mem_sentences hr)

theorem mem_primary_of_literal {x : TokenType} (hx : x ∈ [number, string, ident])
    (h : v ∈ oneOf [x] * K) : v ∈ sentences .primary * K := by
  obtain ⟨a, ⟨y, hy, rfl⟩, b, hb, rfl⟩ := h
  obtain rfl := List.mem_singleton.mp hy
  rw [primary_mul]
  exact Or.inl (cons_mem_oneOf_mul.mpr ⟨hx, hb⟩)

theorem after_mul (r : Rule) (K E : Language TokenType) : after r K * E = after r (K * E) := by
  cases r <;> simp only [after, mul_assoc]

/-- What can be glued to an expression can be so before whatever does not go on
with one. -/
theorem Glue.mul {E : Language TokenType} (h : Glue K) (hE : ∀ t ts, t :: ts ∈ E →
    t ∉ [plus, minus, lparen, star, slash, percent, caret, assign]) : Glue (K * E) where
  sign := by
    rintro t ts ht ⟨a, ha, b, hb, hab⟩
    cases a with
    | nil => exact absurd (List.mem_append_left _ ht) (hE t ts (hab ▸ hb))
    | cons u a =>
      obtain ⟨rfl, rfl⟩ := List.cons.inj hab
      rw [← mul_assoc]
      exact Language.append_mem_mul (h.sign u a ht ha) hb
  paren := by
    rintro ts ⟨a, ha, b, hb, hab⟩
    cases a with
    | nil => exact absurd (hE lparen ts (hab ▸ hb)) (by decide)
    | cons u a =>
      obtain ⟨rfl, rfl⟩ := List.cons.inj hab
      rw [← after_mul, ← mul_assoc, ← mul_assoc, mul_assoc (sentences .expression)]
      exact Language.append_mem_mul (h.paren a ha) hb
  other := by
    rintro t ts ht ⟨a, ha, b, hb, hab⟩
    cases a with
    | nil => exact hE t ts (hab ▸ hb) (List.mem_append_right [plus, minus, lparen] ht)
    | cons u a =>
      obtain ⟨rfl, -⟩ := List.cons.inj hab
      exact h.other _ a ht ha

end Descent.Calc
