import Descent.Proofs.Grammar

/-! Trees as a reader sees them: everything below a tree, what is marked as an
error in it, and the word that the children of a node spell. -/

namespace Descent.RawTree

mutual

/-- A tree and everything below it. -/
def subtrees : RawTree → List RawTree
  | leaf t error => [leaf t error]
  | node rule start recovered slots => node rule start recovered slots :: slotSubtrees slots

def slotSubtrees : List (Option RawTree) → List RawTree
  | [] => []
  | none :: slots => slotSubtrees slots
  | some t :: slots => t.subtrees ++ slotSubtrees slots

end

/-- An error leaf, or the node of a rule that gave up. -/
def marked : RawTree → Bool
  | leaf _ error => error
  | node _ _ recovered _ => recovered

/-- The symbol a child stands for. A skipped token stands for none; a token that
was made up covers nothing and stands for its type. -/
def symbol? : RawTree → Option Symbol
  | leaf t error => if error ∧ t.start < t.stop then none else some (.token t.type)
  | node rule _ _ _ => some (.rule rule)

/-- The word that the children of a node spell. -/
def spelling (slots : List (Option RawTree)) : List Symbol :=
  slots.filterMap fun slot => slot.bind symbol?

@[simp]
theorem spelling_append (slots more : List (Option RawTree)) :
    spelling (slots ++ more) = spelling slots ++ spelling more := List.filterMap_append

@[simp]
theorem slotSubtrees_append (slots more : List (Option RawTree)) :
    slotSubtrees (slots ++ more) = slotSubtrees slots ++ slotSubtrees more := by
  induction slots with
  | nil => rfl
  | cons slot slots ih =>
    cases slot with
    | none => exact ih
    | some t => simp only [List.cons_append, slotSubtrees, ih, List.append_assoc]

@[simp]
theorem slotTokens_append (slots more : List (Option RawTree)) :
    slotTokens (slots ++ more) = slotTokens slots ++ slotTokens more := by
  induction slots with
  | nil => rfl
  | cons slot slots ih =>
    cases slot with
    | none => exact ih
    | some t => simp only [List.cons_append, slotTokens, ih, List.append_assoc]

@[simp]
theorem slotSubtrees_singleton (t : RawTree) : slotSubtrees [some t] = t.subtrees := by
  simp [slotSubtrees]

@[simp]
theorem slotTokens_singleton (t : RawTree) : slotTokens [some t] = t.tokens := by
  simp [slotTokens]

theorem mem_subtrees_self (t : RawTree) : t ∈ t.subtrees := by
  cases t <;> simp [subtrees]

/-- Skipped tokens add leaves only. -/
theorem slotSubtrees_leaves (ts : List Token) (error : Bool) :
    slotSubtrees (ts.map fun t => some (.leaf t error)) = ts.map fun t => .leaf t error := by
  induction ts with
  | nil => rfl
  | cons t ts ih => simp [slotSubtrees, subtrees, ih]

theorem slotTokens_leaves (ts : List Token) (error : Bool) :
    slotTokens (ts.map fun t => some (.leaf t error)) = ts := by
  induction ts with
  | nil => rfl
  | cons t ts ih => simp [slotTokens, tokens, ih]

end Descent.RawTree

namespace Descent.Calc

open RawTree

mutual

/-- A tree with no error mark whose nodes spell what their rules allow is a
derivation. -/
theorem derivation_of_clean : ∀ (t : RawTree) (x : Symbol), t.symbol? = some x →
    (∀ u ∈ t.subtrees, u.marked = false) →
    (∀ rule start slots, .node rule start false slots ∈ t.subtrees →
      none ∉ slots ∧ ∃ r : Rule, r.index = rule ∧ spelling slots ∈ (production r).words) →
    Derivation x t
  | .leaf t error, x, hx, hclean, _ => by
    have he : error = false := hclean _ (mem_subtrees_self _)
    subst he
    simp only [symbol?, Bool.false_eq_true, false_and, ↓reduceIte, Option.some.injEq] at hx
    exact hx ▸ .leaf t
  | .node rule start recovered slots, x, hx, hclean, hwords => by
    have hr : recovered = false := hclean _ (mem_subtrees_self _)
    subst hr
    obtain ⟨hfilled, r, rfl, hw⟩ := hwords rule start slots (mem_subtrees_self _)
    simp only [symbol?, Option.some.injEq] at hx
    subst hx
    refine .node r start hw (derivations_of_clean slots hfilled ?_ ?_)
    · intro u hu
      exact hclean u (by simp [subtrees, hu])
    · intro rule' start' slots' hmem
      exact hwords rule' start' slots' (by simp [subtrees, hmem])

theorem derivations_of_clean : ∀ (slots : List (Option RawTree)), none ∉ slots →
    (∀ u ∈ slotSubtrees slots, u.marked = false) →
    (∀ rule start slots', .node rule start false slots' ∈ slotSubtrees slots →
      none ∉ slots' ∧ ∃ r : Rule, r.index = rule ∧ spelling slots' ∈ (production r).words) →
    Derivations (spelling slots) slots
  | [], _, _, _ => .nil
  | none :: slots, hfilled, _, _ => absurd List.mem_cons_self hfilled
  | some t :: slots, hfilled, hclean, hwords => by
    have htail := derivations_of_clean slots (fun h => hfilled (List.mem_cons_of_mem _ h))
      (fun u hu => hclean u (by simp [slotSubtrees, hu]))
      (fun rule start slots' h => hwords rule start slots' (by simp [slotSubtrees, h]))
    have ht : t.marked = false := hclean t (by simp [slotSubtrees, mem_subtrees_self])
    obtain ⟨x, hx⟩ : ∃ x, t.symbol? = some x := by
      cases t with
      | leaf t error =>
        have he : error = false := ht
        simp [symbol?, he]
      | node rule start recovered slots => exact ⟨_, rfl⟩
    have hhead := derivation_of_clean t x hx (fun u hu => hclean u (by simp [slotSubtrees, hu]))
      (fun rule start slots' h => hwords rule start slots' (by simp [slotSubtrees, h]))
    have hs : spelling (some t :: slots) = x :: spelling slots := by
      simp [spelling, hx]
    rw [hs]
    exact .cons hhead htail

end

end Descent.Calc
