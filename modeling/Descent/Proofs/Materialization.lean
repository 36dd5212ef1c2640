import Descent.Proofs.Names

/-! What becomes of a tree when its numbers are replaced by names. The shape stays as
it is, less the empty slots: every node and every leaf is renamed where it stands.
That a name is missing shows at the first place, in the order of reading, where there
is none, and nowhere else. -/

namespace Descent.RawTree

variable {rules : List String} {v : Vocabulary}

mutual

/-- A parse tree that is a tree with names for its numbers and without its empty
slots. -/
inductive Renamed (rules : List String) (v : Vocabulary) : RawTree → ParseTree → Prop where
  | leaf {t : Token} {error : Bool} {symbol : String} :
      v.symbol? t.type = some symbol →
      Renamed rules v (.leaf t error) (.terminal symbol (Text.escape t.text))
  | node {index start : Nat} {recovered : Bool} {slots : List (Option RawTree)} {name : String}
      {children : List ParseTree} :
      rules[index]? = some name → RenamedAll rules v slots children →
      Renamed rules v (.node index start recovered slots) (.rule name children)

inductive RenamedAll (rules : List String) (v : Vocabulary) :
    List (Option RawTree) → List ParseTree → Prop where
  | nil : RenamedAll rules v [] []
  | empty {slots : List (Option RawTree)} {children : List ParseTree} :
      RenamedAll rules v slots children → RenamedAll rules v (none :: slots) children
  | filled {t : RawTree} {p : ParseTree} {slots : List (Option RawTree)}
      {children : List ParseTree} :
      Renamed rules v t p → RenamedAll rules v slots children →
      RenamedAll rules v (some t :: slots) (p :: children)

end

mutual

theorem renamed_of_materialize : ∀ (t : RawTree) {p : ParseTree},
    t.materialize rules v = .ok p → Renamed rules v t p
  | .leaf t error, p, h => by
    rw [materialize] at h
    split at h
    · cases h
    · next hs =>
      cases h
      exact .leaf hs
  | .node index start recovered slots, p, h => by
    rw [materialize] at h
    split at h
    · cases h
    · next hr =>
      split at h
      · cases h
      · next hc =>
        cases h
        exact .node hr (renamedAll_of_materializeSlots slots hc)

theorem renamedAll_of_materializeSlots : ∀ (slots : List (Option RawTree)) {ps : List ParseTree},
    materializeSlots rules v slots = .ok ps → RenamedAll rules v slots ps
  | [], ps, h => by
    rw [materializeSlots] at h
    cases h
    exact .nil
  | none :: slots, ps, h => by
    rw [materializeSlots] at h
    exact .empty (renamedAll_of_materializeSlots slots h)
  | some t :: slots, ps, h => by
    rw [materializeSlots] at h
    split at h
    · cases h
    · next ht =>
      split at h
      · cases h
      · next hs =>
        cases h
        exact .filled (renamed_of_materialize t ht) (renamedAll_of_materializeSlots slots hs)

end

mutual

theorem Renamed.materialize {t : RawTree} {p : ParseTree} (h : Renamed rules v t p) :
    t.materialize rules v = .ok p := by
  cases h with
  | leaf hs => rw [RawTree.materialize, hs]
  | node hr hc => rw [RawTree.materialize, hr, hc.materializeSlots]

theorem RenamedAll.materializeSlots {slots : List (Option RawTree)} {ps : List ParseTree}
    (h : RenamedAll rules v slots ps) : materializeSlots rules v slots = .ok ps := by
  cases h with
  | nil => rw [RawTree.materializeSlots]
  | empty hs => rw [RawTree.materializeSlots, hs.materializeSlots]
  | filled ht hs => rw [RawTree.materializeSlots, ht.materialize, hs.materializeSlots]

end

theorem materialize_eq_ok_iff {t : RawTree} {p : ParseTree} :
    t.materialize rules v = .ok p ↔ Renamed rules v t p :=
  ⟨renamed_of_materialize t, Renamed.materialize⟩

/-- The leaf that a token becomes. -/
def Pictures (v : Vocabulary) (t : Token) (p : ParseTree) : Prop :=
  ∃ symbol, v.symbol? t.type = some symbol ∧ p = .terminal symbol (Text.escape t.text)

mutual

/-- Every slot of a tree and of what is below it, in the order of reading. -/
def allSlots : RawTree → List (Option RawTree)
  | leaf .. => []
  | node _ _ _ slots => slotsBelow slots

def slotsBelow : List (Option RawTree) → List (Option RawTree)
  | [] => []
  | none :: slots => none :: slotsBelow slots
  | some t :: slots => some t :: (t.allSlots ++ slotsBelow slots)

end

mutual

theorem Renamed.leaves {t : RawTree} {p : ParseTree} (h : Renamed rules v t p) :
    List.Forall₂ (Pictures v) t.tokens p.leaves := by
  cases h with
  | leaf hs =>
    rw [tokens, ParseTree.leaves]
    exact .cons ⟨_, hs, rfl⟩ .nil
  | node hr hc =>
    rw [tokens, ParseTree.leaves]
    exact hc.leaves

theorem RenamedAll.leaves {slots : List (Option RawTree)} {ps : List ParseTree}
    (h : RenamedAll rules v slots ps) :
    List.Forall₂ (Pictures v) (slotTokens slots) (ParseTree.leavesAll ps) := by
  cases h with
  | nil => exact .nil
  | empty hs =>
    rw [slotTokens]
    exact hs.leaves
  | filled ht hs =>
    rw [slotTokens, ParseTree.leavesAll]
    exact List.rel_append ht.leaves hs.leaves

end

mutual

theorem Renamed.nodeCount {t : RawTree} {p : ParseTree} (h : Renamed rules v t p) :
    p.nodeCount = 1 + t.allSlots.countP Option.isSome := by
  cases h with
  | leaf hs => rfl
  | node hr hc => rw [ParseTree.nodeCount, allSlots, hc.nodeCount]

theorem RenamedAll.nodeCount {slots : List (Option RawTree)} {ps : List ParseTree}
    (h : RenamedAll rules v slots ps) :
    ParseTree.nodeCountAll ps = (slotsBelow slots).countP Option.isSome := by
  cases h with
  | nil => rfl
  | empty hs =>
    rw [slotsBelow, List.countP_cons_of_neg (by simp)]
    exact hs.nodeCount
  | filled ht hs =>
    rw [ParseTree.nodeCountAll, slotsBelow, List.countP_cons_of_pos (by simp), List.countP_append,
      ht.nodeCount, hs.nodeCount]
    omega

end

instance (rules : List String) (v : Vocabulary) : DecidablePred (Named rules v)
  | leaf t _ => decidable_of_iff ((v.symbol? t.type).isSome = true) Option.isSome_iff_exists
  | node index .. => decidable_of_iff (rules[index]?.isSome = true) Option.isSome_iff_exists

/-- What is said of a leaf or a node that has no name. -/
def offence : RawTree → Failure
  | leaf t _ => .unknownTokenType t.type
  | node index .. => .unknownRule index

/-- The failure at a leaf or a node itself, if it has no name. -/
def offence? (rules : List String) (v : Vocabulary) (t : RawTree) : Option Failure :=
  if t.Named rules v then none else some t.offence

theorem offence?_eq_none_iff {t : RawTree} : t.offence? rules v = none ↔ t.Named rules v := by
  unfold offence?
  split
  · next h => exact iff_of_true rfl h
  · next h => exact iff_of_false nofun h

theorem offence?_eq_some_iff {t : RawTree} {f : Failure} :
    t.offence? rules v = some f ↔ ¬ t.Named rules v ∧ f = t.offence := by
  unfold offence?
  split
  · next h => exact iff_of_false nofun fun hnot => hnot.1 h
  · next h => rw [Option.some.injEq, eq_comm, and_iff_right h]

/-- The failure that a result is, if it is one. -/
def failure? {α : Type} : Except Failure α → Option Failure
  | .error f => some f
  | .ok _ => none

mutual

/-- What goes wrong is the first thing that has no name. -/
theorem failure?_materialize : ∀ t : RawTree,
    failure? (t.materialize rules v) = t.subtrees.findSome? (offence? rules v)
  | .leaf t error => by
    rw [materialize, subtrees, List.findSome?_cons, List.findSome?_nil]
    split
    · next hs =>
      have hunnamed : ¬ Named rules v (.leaf t error) := by
        rintro ⟨symbol, hsymbol⟩
        cases hs.symm.trans hsymbol
      rw [offence?_eq_some_iff.mpr ⟨hunnamed, rfl⟩]
      rfl
    · next symbol hs =>
      have hnamed : Named rules v (.leaf t error) := ⟨symbol, hs⟩
      rw [offence?_eq_none_iff.mpr hnamed]
      rfl
  | .node index start recovered slots => by
    rw [materialize, subtrees, List.findSome?_cons, ← failure?_materializeSlots slots]
    split
    · next hr =>
      have hunnamed : ¬ Named rules v (.node index start recovered slots) := by
        rintro ⟨name, hname⟩
        cases hr.symm.trans hname
      rw [offence?_eq_some_iff.mpr ⟨hunnamed, rfl⟩]
      rfl
    · next name hr =>
      have hnamed : Named rules v (.node index start recovered slots) := ⟨name, hr⟩
      rw [offence?_eq_none_iff.mpr hnamed]
      cases materializeSlots rules v slots <;> rfl

theorem failure?_materializeSlots : ∀ slots : List (Option RawTree),
    failure? (materializeSlots rules v slots) =
      (slotSubtrees slots).findSome? (offence? rules v)
  | [] => by
    rw [materializeSlots]
    rfl
  | none :: slots => by
    rw [materializeSlots, slotSubtrees, failure?_materializeSlots slots]
  | some t :: slots => by
    rw [materializeSlots, slotSubtrees, List.findSome?_append, ← failure?_materialize t,
      ← failure?_materializeSlots slots]
    cases t.materialize rules v with
    | error f => rfl
    | ok p => cases materializeSlots rules v slots <;> rfl

end

theorem materialize_returns_iff {t : RawTree} :
    (∃ p, t.materialize rules v = .ok p) ↔ ∀ u ∈ t.subtrees, u.Named rules v := by
  refine ⟨?_, materialize_returns rules v t⟩
  rintro ⟨p, hp⟩ u hu
  have hnone : failure? (t.materialize rules v) = _ := failure?_materialize t
  rw [hp] at hnone
  exact offence?_eq_none_iff.mp (List.findSome?_eq_none_iff.mp hnone.symm u hu)

theorem materialize_eq_error_iff {t : RawTree} {f : Failure} :
    t.materialize rules v = .error f ↔ ∃ before u after, t.subtrees = before ++ u :: after ∧
      (∀ x ∈ before, x.Named rules v) ∧ ¬ u.Named rules v ∧ f = u.offence := by
  have hfailure : t.materialize rules v = .error f ↔
      t.subtrees.findSome? (offence? rules v) = some f := by
    rw [← failure?_materialize]
    cases t.materialize rules v <;> simp [failure?]
  rw [hfailure, List.findSome?_eq_some_iff]
  constructor
  · rintro ⟨before, u, after, hsplit, hu, hbefore⟩
    obtain ⟨hunnamed, hf⟩ := offence?_eq_some_iff.mp hu
    exact ⟨before, u, after, hsplit, fun x hx => offence?_eq_none_iff.mp (hbefore x hx), hunnamed,
      hf⟩
  · rintro ⟨before, u, after, hsplit, hbefore, hunnamed, hf⟩
    exact ⟨before, u, after, hsplit, offence?_eq_some_iff.mpr ⟨hunnamed, hf⟩,
      fun x hx => offence?_eq_none_iff.mpr (hbefore x hx)⟩

/-- Giving names to a tree keeps its shape. Whatever its numbers are and wherever it
has empty slots, it becomes a parse tree exactly if all its nodes have rules of the
table and all its leaves types with a name, which the end of the input always has; then
it is this tree without its empty slots, each number replaced by its name, so its leaves
are the tokens one by one, and it has a node for the root and for every slot that is not
empty. Otherwise the failure is that of the first node or leaf without a name, a node
coming before what is below it. -/
theorem materialize_renames (rules : List String) (v : Vocabulary) (t : RawTree) :
    ((∃ p, t.materialize rules v = .ok p) ↔ ∀ u ∈ t.subtrees, u.Named rules v) ∧
    (∀ x error, x.type = eof → Named rules v (.leaf x error)) ∧
    (∀ p, t.materialize rules v = .ok p ↔ Renamed rules v t p) ∧
    (∀ p, t.materialize rules v = .ok p → List.Forall₂ (Pictures v) t.tokens p.leaves ∧
      p.nodeCount = 1 + t.allSlots.countP Option.isSome) ∧
    (∀ f, t.materialize rules v = .error f ↔ ∃ before u after, t.subtrees = before ++ u :: after ∧
      (∀ x ∈ before, x.Named rules v) ∧ ¬ u.Named rules v ∧ f = u.offence) := by
  refine ⟨materialize_returns_iff, ?_, fun p => materialize_eq_ok_iff, ?_,
    fun f => materialize_eq_error_iff⟩
  · intro x error hx
    exact ⟨"EOF", by rw [Vocabulary.symbol?, if_pos hx]⟩
  · intro p hp
    have hrenamed := materialize_eq_ok_iff.mp hp
    exact ⟨hrenamed.leaves, hrenamed.nodeCount⟩

-- The rule without a name is met before the token without one that is below it.
example : failure? ((node 0 0 false [none, some (node 1 0 false
    [some (leaf ⟨1, "x", 1, 0, 0, 1, 0⟩ false)])]).materialize ["root"] ⟨[], []⟩) =
    some (.unknownRule 1) := by decide

end Descent.RawTree
