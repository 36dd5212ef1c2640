import Descent.Proofs.Lexer
import Mathlib.Data.Prod.Lex

/-! Tokens stand in the order of their lines and columns. Every character moves
the place of the lexer on, to a later column or to the next line, and a token
stands where the lexer was when it came to its first character. -/

namespace Descent

/-- Line and column. -/
def Token.position (t : Token) : Nat × Nat := (t.line, t.column)

/-- Line and column. -/
def SyntaxError.position (e : SyntaxError) : Nat × Nat := (e.line, e.column)

/-- On an earlier line, or in an earlier column of the same line. -/
abbrev Earlier : Nat × Nat → Nat × Nat → Prop := Prod.Lex (· < ·) (· < ·)

/-- Not later: in the same place, or earlier. -/
def Upto (p q : Nat × Nat) : Prop := p = q ∨ Earlier p q

theorem Earlier.trans {p q r : Nat × Nat} (h : Earlier p q) (h' : Earlier q r) : Earlier p r :=
  IsTrans.trans p q r h h'

theorem Earlier.ne {p q : Nat × Nat} (h : Earlier p q) : p ≠ q := by
  rintro rfl
  have hlex := Prod.lex_def.mp h
  omega

theorem Earlier.trans_upto {p q r : Nat × Nat} (h : Earlier p q) (h' : Upto q r) :
    Earlier p r := by
  rcases h' with rfl | h'
  · exact h
  · exact h.trans h'

theorem Upto.trans {p q r : Nat × Nat} (h : Upto p q) (h' : Upto q r) : Upto p r := by
  rcases h with rfl | h
  · exact h'
  · exact Or.inr (h.trans_upto h')

namespace Calc

namespace Place

def position (p : Place) : Nat × Nat := (p.line, p.column)

theorem step_earlier (p : Place) (c : Char) : Earlier p.position (p.step c).position := by
  unfold step
  split
  · exact Prod.Lex.left _ _ (Nat.lt_succ_self p.line)
  · exact Prod.Lex.right _ (Nat.lt_succ_self p.column)

theorem advance_upto (cs : List Char) (p : Place) : Upto p.position (p.advance cs).position := by
  induction cs generalizing p with
  | nil => exact Or.inl rfl
  | cons c cs ih => exact Upto.trans (Or.inr (step_earlier p c)) (ih (p.step c))

theorem advance_earlier (c : Char) (cs : List Char) (p : Place) :
    Earlier p.position (p.advance (c :: cs)).position :=
  (step_earlier p c).trans_upto (advance_upto cs (p.step c))

end Place

namespace Lexer

theorem skip_upto (l : Lexer) (n : Nat) : Upto l.place.position (l.skip n).place.position :=
  Place.advance_upto _ l.place

/-- The next token does not stand before the lexer, and the lexer stands behind
it afterwards, if it does not end the input. -/
theorem nextWithin_position (n : Nat) (l : Lexer) :
    Upto l.place.position (nextWithin n l).1.position ∧
      ((nextWithin n l).1.type ≠ eof →
        Earlier (nextWithin n l).1.position (nextWithin n l).2.place.position) := by
  induction n generalizing l with
  | zero => exact ⟨Or.inl rfl, fun h => absurd rfl h⟩
  | succ n ih =>
    unfold nextWithin
    split
    · exact ⟨Or.inl rfl, fun h => absurd rfl h⟩
    · next c cs hrest =>
      split
      · exact ⟨l.skip_upto _, fun h => absurd rfl h⟩
      · split
        · obtain ⟨hfrom, hto⟩ := ih (l.reject c)
          exact ⟨(l.skip_upto 1).trans hfrom, hto⟩
        · next k hscan =>
          obtain ⟨hfrom, hto⟩ := ih (l.skip k)
          exact ⟨(l.skip_upto k).trans hfrom, hto⟩
        · next t k hscan =>
          refine ⟨Or.inl rfl, fun _ => ?_⟩
          obtain ⟨k, rfl⟩ := Nat.exists_eq_succ_of_ne_zero (Nat.ne_of_gt (scan_pos hscan))
          simp only [skip, hrest, List.take_succ_cons]
          exact Place.advance_earlier c _ l.place

end Lexer

end Calc

namespace Buffer

open Descent.Calc

/-- The tokens drawn so far stand in order, and before the lexer as long as it
has not come to the end of the input. -/
structure InOrder (b : Buffer Lexer) : Prop where
  tokens : b.tokens.toList.Pairwise fun t u => Earlier t.position u.position
  source : b.ended = false → ∀ t ∈ b.tokens.toList, Earlier t.position b.source.place.position

theorem InOrder.fetch {b : Buffer Lexer} (h : b.InOrder) (he : b.ended = false) :
    b.fetch.InOrder := by
  obtain ⟨hfrom, hto⟩ := Lexer.nextWithin_position b.source.rest.length b.source
  constructor
  · simp only [Buffer.fetch, Array.toList_push, List.pairwise_append, List.pairwise_singleton,
      List.mem_singleton, true_and]
    refine ⟨h.tokens, ?_⟩
    rintro t ht u rfl
    exact (h.source he t ht).trans_upto hfrom
  · intro hne t ht
    have hlast := hto ((isEof_eq_false_iff _).mp hne)
    simp only [Buffer.fetch, Array.toList_push, List.mem_append, List.mem_singleton] at ht
    rcases ht with ht | rfl
    · exact ((h.source he t ht).trans_upto hfrom).trans hlast
    · exact hlast

theorem InOrder.pull {b : Buffer Lexer} (h : b.InOrder) (n : Nat) : (pull n b).InOrder := by
  induction n generalizing b with
  | zero => exact h
  | succ n ih =>
    unfold Buffer.pull
    split
    · exact h
    · next he => exact ih (h.fetch (by simpa using he))

/-- The tokens of a text, the one that ends it included, stand in order. -/
theorem fill_inOrder (l : Lexer) : (ofSource l).fill.InOrder :=
  InOrder.pull ⟨by simp [ofSource], by simp [ofSource]⟩ _

end Buffer

end Descent
