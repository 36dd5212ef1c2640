import Descent.Proofs.Sentences
import Descent.Proofs.Tree

/-! Derivations as trees: how high they are, what they stand for, and what is made
of them when the tokens of an input are put at their leaves. The children that a
right-hand side allows are a language, as the texts are that it stands for. -/

namespace Descent.RawTree

mutual

/-- The number of nodes one below the other. -/
def height : RawTree → Nat
  | leaf .. => 0
  | node _ _ _ slots => slotHeight slots + 1

def slotHeight : List (Option RawTree) → Nat
  | [] => 0
  | none :: slots => slotHeight slots
  | some t :: slots => max t.height (slotHeight slots)

end

mutual

/-- The same tree over the input from index `i` on: its leaves are the tokens of
the input in their order, and nothing in it is marked. -/
def plant (input : List Token) : Nat → RawTree → RawTree
  | i, leaf .. => .leaf (input.getD i default) false
  | i, node rule _ _ slots => .node rule i false (plantSlots input i slots)

def plantSlots (input : List Token) : Nat → List (Option RawTree) → List (Option RawTree)
  | _, [] => []
  | i, none :: slots => none :: plantSlots input i slots
  | i, some t :: slots =>
    some (t.plant input i) :: plantSlots input (i + t.tokens.length) slots

end

/-- The token types at the leaves, from left to right. -/
def yields (slots : List (Option RawTree)) : List TokenType := (slotTokens slots).map Token.type

@[simp]
theorem yields_append (slots more : List (Option RawTree)) :
    yields (slots ++ more) = yields slots ++ yields more := by
  rw [yields, slotTokens_append, List.map_append, yields, yields]

@[simp]
theorem yields_leaf (t : Token) (error : Bool) : yields [some (.leaf t error)] = [t.type] := rfl

@[simp]
theorem slotHeight_append (slots more : List (Option RawTree)) :
    slotHeight (slots ++ more) = max (slotHeight slots) (slotHeight more) := by
  induction slots with
  | nil => simp [slotHeight]
  | cons slot slots ih =>
    cases slot with
    | none => exact ih
    | some t => simp only [List.cons_append, slotHeight, ih, Nat.max_assoc]

@[simp]
theorem slotHeight_singleton (t : RawTree) : slotHeight [some t] = t.height := by
  simp [slotHeight]

@[simp]
theorem plantSlots_append (input : List Token) (i : Nat) (slots more : List (Option RawTree)) :
    plantSlots input i (slots ++ more) =
      plantSlots input i slots ++ plantSlots input (i + (slotTokens slots).length) more := by
  induction slots generalizing i with
  | nil => rfl
  | cons slot slots ih =>
    cases slot with
    | none => simp only [List.cons_append, plantSlots, slotTokens, ih]
    | some t =>
      simp only [List.cons_append, plantSlots, slotTokens, ih, List.length_append, Nat.add_assoc]

@[simp]
theorem plantSlots_singleton (input : List Token) (i : Nat) (t : RawTree) :
    plantSlots input i [some t] = [some (t.plant input i)] := by
  simp [plantSlots]

mutual

/-- The leaves of a planted tree are the tokens of the input from there on. -/
theorem tokens_plant (input : List Token) : ∀ (i : Nat) (t : RawTree),
    i + t.tokens.length ≤ input.length →
    (t.plant input i).tokens = (input.drop i).take t.tokens.length
  | i, .leaf t error, h => by
    have hi : i < input.length := h
    rw [plant, tokens, tokens, List.length_singleton, List.take_one, List.head?_drop,
      List.getElem?_eq_getElem hi, List.getD_eq_getElem _ _ hi]
    rfl
  | i, .node rule start recovered slots, h => by
    rw [plant, tokens, tokens]
    exact slotTokens_plant input i slots h

theorem slotTokens_plant (input : List Token) : ∀ (i : Nat) (slots : List (Option RawTree)),
    i + (slotTokens slots).length ≤ input.length →
    slotTokens (plantSlots input i slots) = (input.drop i).take (slotTokens slots).length
  | _, [], _ => by simp [plantSlots, slotTokens]
  | i, none :: slots, h => by
    rw [plantSlots, slotTokens]
    exact slotTokens_plant input i slots h
  | i, some t :: slots, h => by
    rw [slotTokens, List.length_append] at h
    rw [plantSlots, slotTokens, slotTokens, tokens_plant input i t (by omega),
      slotTokens_plant input (i + t.tokens.length) slots (by omega), List.length_append,
      List.take_add, List.drop_drop]

end

end Descent.RawTree

namespace Descent.Calc

open Computability RawTree

theorem derivations_compositional : Compositional Derivations where
  nil := by
    intro slots
    constructor
    · intro h
      cases h
      rfl
    · rintro rfl
      exact .nil
  append := by
    intro v w slots
    induction v generalizing slots with
    | nil =>
      constructor
      · intro h
        exact ⟨[], .nil, slots, h, rfl⟩
      · rintro ⟨a, ha, b, hb, rfl⟩
        cases ha
        exact hb
    | cons x v ih =>
      constructor
      · intro h
        cases h with
        | cons hx hr =>
          obtain ⟨a, ha, b, hb, rfl⟩ := (ih _).mp hr
          exact ⟨_, .cons hx ha, b, hb, rfl⟩
      · rintro ⟨a, ha, b, hb, rfl⟩
        cases ha with
        | cons hx hr => exact .cons hx ((ih _).mpr ⟨_, hr, b, hb, rfl⟩)

/-- The children that a right-hand side allows, all of them derivations. -/
def forests (p : Pattern) : Language (Option RawTree) := p.image Derivations

theorem forests_seq (p q : Pattern) : forests (.seq p q) = forests p * forests q :=
  Pattern.image_seq derivations_compositional p q

theorem forests_alt (p q : Pattern) : forests (.alt p q) = forests p + forests q :=
  Pattern.image_alt p q

theorem forests_opt (p : Pattern) : forests (.opt p) = 1 + forests p :=
  Pattern.image_opt derivations_compositional p

theorem forests_many (p : Pattern) : forests (.many p) = (forests p)∗ :=
  Pattern.image_many derivations_compositional p

theorem mem_forests_tok {x : TokenType} {slots : List (Option RawTree)}
    (h : slots ∈ forests (tok x)) : ∃ t, slots = [some (.leaf t false)] ∧ t.type = x := by
  obtain ⟨w, rfl, h⟩ := h
  cases h with
  | cons hx hr =>
    cases hr
    cases hx with
    | leaf t => exact ⟨t, rfl, rfl⟩

theorem mem_forests_sub {r : Rule} {slots : List (Option RawTree)} (h : slots ∈ forests (sub r)) :
    ∃ tree, slots = [some tree] ∧ Derivation (.rule r.index) tree := by
  obtain ⟨w, rfl, h⟩ := h
  cases h with
  | cons hx hr =>
    cases hr
    exact ⟨_, rfl, hx⟩

/-- A derivation of a rule is a node of it with children that it allows. -/
theorem Derivation.exists_slots {r : Rule} {tree : RawTree}
    (h : Derivation (.rule r.index) tree) :
    ∃ start, ∃ slots ∈ forests (production r), tree = .node r.index start false slots := by
  generalize hx : Symbol.rule r.index = x at h
  cases h with
  | leaf t => cases hx
  | node r' start hw hs =>
    obtain rfl := Rule.index_injective (Symbol.rule.inj hx)
    exact ⟨start, _, ⟨_, hw, hs⟩, rfl⟩

mutual

/-- A derivation stands for the types at its leaves. -/
theorem Derivation.derives : ∀ {x : Symbol} {tree : RawTree}, Derivation x tree →
    Derives x (tree.tokens.map Token.type)
  | _, _, .leaf t => .token t.type
  | _, _, .node r _ hw hs => .rule r hw hs.derivesAll

theorem Derivations.derivesAll : ∀ {w : List Symbol} {slots : List (Option RawTree)},
    Derivations w slots → DerivesAll w (yields slots)
  | _, _, .nil => .nil
  | _, _, .cons hx hs => by
    rw [yields, slotTokens, List.map_append]
    exact .cons hx.derives hs.derivesAll

end

end Descent.Calc
