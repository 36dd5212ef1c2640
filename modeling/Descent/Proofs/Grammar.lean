import Descent.Calc.Rules
import Descent.Proofs.TokenSet
import Mathlib.Computability.Language

/-! The grammar of calc as data, the words a rule may be made of, the sentences
they derive, and what it means for a tree to be a derivation. -/

namespace Descent

open Computability

/-- What a rule is made of: tokens of a type, and rules by number. -/
inductive Symbol where
  | token (type : TokenType)
  | rule (index : Nat)
  deriving DecidableEq, Repr

/-- The right-hand side of a rule. -/
inductive Pattern where
  | symbol (x : Symbol)
  | seq (p q : Pattern)
  | alt (p q : Pattern)
  | many (p : Pattern)
  | opt (p : Pattern)
  deriving DecidableEq, Repr

/-- The words of symbols that a right-hand side allows. -/
def Pattern.words : Pattern → Language Symbol
  | symbol x => {[x]}
  | seq p q => p.words * q.words
  | alt p q => p.words + q.words
  | many p => p.words∗
  | opt p => 1 + p.words

namespace Calc

theorem Rule.index_injective {r r' : Rule} (h : r.index = r'.index) : r = r' := by
  cases r <;> cases r' <;> first | rfl | cases h

def tok (t : TokenType) : Pattern := .symbol (.token t)

def sub (r : Rule) : Pattern := .symbol (.rule r.index)

def sign : Pattern := .alt (tok plus) (tok minus)

def scaling : Pattern := .alt (tok star) (.alt (tok slash) (tok percent))

/-- The rules of calc; the end of the input after a program is no part of it. -/
def production : Rule → Pattern
  | .program => .many (sub .statement)
  | .statement => .seq (.alt (sub .assignment) (sub .expression)) (.opt (tok semi))
  | .assignment => .seq (tok ident) (.seq (tok assign) (sub .expression))
  | .expression => .seq (sub .term) (.many (.seq sign (sub .term)))
  | .term => .seq (sub .factor) (.many (.seq scaling (sub .factor)))
  | .factor =>
    .alt (.seq sign (sub .factor)) (.seq (sub .primary) (.opt (.seq (tok caret) (sub .factor))))
  | .primary =>
    .alt (tok number) (.alt (tok string) (.alt (tok ident) (.alt (sub .call)
      (.seq (tok lparen) (.seq (sub .expression) (tok rparen))))))
  | .call =>
    .seq (tok ident) (.seq (tok lparen) (.seq
      (.opt (.seq (sub .expression) (.many (.seq (tok comma) (sub .expression)))))
      (tok rparen)))

mutual

/-- The token types a symbol stands for in the end. -/
inductive Derives : Symbol → List TokenType → Prop where
  | token (t : TokenType) : Derives (.token t) [t]
  | rule (r : Rule) {w : List Symbol} {ts : List TokenType} :
      w ∈ (production r).words → DerivesAll w ts → Derives (.rule r.index) ts

inductive DerivesAll : List Symbol → List TokenType → Prop where
  | nil : DerivesAll [] []
  | cons {x : Symbol} {w : List Symbol} {ts us : List TokenType} :
      Derives x ts → DerivesAll w us → DerivesAll (x :: w) (ts ++ us)

end

/-- Token types that form a text of a rule. -/
def Sentence (r : Rule) (ts : List TokenType) : Prop := Derives (.rule r.index) ts

mutual

/-- Trees without errors in which every node is made as its rule says. -/
inductive Derivation : Symbol → RawTree → Prop where
  | leaf (t : Token) : Derivation (.token t.type) (.leaf t false)
  | node (r : Rule) (start : Nat) {w : List Symbol} {slots : List (Option RawTree)} :
      w ∈ (production r).words → Derivations w slots →
      Derivation (.rule r.index) (.node r.index start false slots)

inductive Derivations : List Symbol → List (Option RawTree) → Prop where
  | nil : Derivations [] []
  | cons {x : Symbol} {w : List Symbol} {t : RawTree} {slots : List (Option RawTree)} :
      Derivation x t → Derivations w slots → Derivations (x :: w) (some t :: slots)

end

theorem expressionStart_contains (t : TokenType) : expressionStart.contains t = true ↔
    t ∈ [number, string, ident, lparen, plus, minus] :=
  TokenSet.contains_ofList _ t (by decide)

theorem additive_contains (t : TokenType) :
    additive.contains t = true ↔ t ∈ [plus, minus] :=
  TokenSet.contains_ofList _ t (by decide)

theorem multiplicative_contains (t : TokenType) :
    multiplicative.contains t = true ↔ t ∈ [star, slash, percent] :=
  TokenSet.contains_ofList _ t (by decide)

theorem comma_contains (t : TokenType) :
    (TokenSet.ofList [comma]).contains t = true ↔ t ∈ [comma] :=
  TokenSet.contains_ofList _ t (by decide)

/-- The tokens a primary expression can begin with. -/
def primaryStart : List TokenType := [number, string, ident, lparen]

/-- The tokens at which it makes sense to invoke a rule. -/
def Begins : Rule → TokenType → Prop
  | .program, _ => False
  | .assignment, t => t = ident
  | .call, t => t = ident
  | .primary, t => t ∈ primaryStart
  | _, t => expressionStart.contains t = true

end Calc

end Descent
