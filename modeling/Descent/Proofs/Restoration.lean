import Descent.Proofs.Completeness
import Descent.Proofs.Leaves
import Descent.Proofs.Shapes

/-! Parsing undoes flattening. A parser that stands before the leaves of a
derivation, with as many levels left as the derivation is high, builds that
derivation again and stops behind its last leaf, unless the token that comes then
could still belong to it. At every choice one or two tokens tell which
alternative the derivation takes. -/

namespace Descent

/-- A node whose last child is a semicolon. -/
def RawTree.closed : RawTree → Prop
  | .leaf .. => False
  | .node _ _ _ slots => ∃ t, slots.getLast? = some (some (.leaf t false)) ∧ t.type = Calc.semi

/-- A node all of whose children but the last are closed. -/
def RawTree.separated : RawTree → Prop
  | .leaf .. => False
  | .node _ _ _ slots => ∀ slot ∈ slots.dropLast, ∃ t, slot = some t ∧ t.closed

namespace Calc

open Computability Descent.Parser RawTree

variable {σ : Type} [TokenSource σ]

/-- A parser with enough levels for the children `slots`, whose leaves are to come,
and then `ts`. -/
structure Faces (c₀ : PredictionCache) (n : Nat) (slots : List (Option RawTree))
    (ts : List TokenType) (s : State σ) : Prop extends Sound c₀ n s where
  height_le : slotHeight slots ≤ n
  types_eq : types s = yields slots ++ ts

/-- From `s` to `t` the children `slots` are built over the tokens to come, and
nothing is reported. -/
structure Restores (c₀ : PredictionCache) (slots : List (Option RawTree)) (s t : State σ) :
    Prop where
  kept : Kept s t
  trusts : Trusts simulate c₀ t
  errors : t.errors = s.errors
  index : t.index = s.index + (slotTokens slots).length
  slots : t.slots = s.slots ++ plantSlots s.buffer.input s.index slots

/-- A piece that succeeds and builds the children `slots`. -/
def Restored (c₀ : PredictionCache) (slots : List (Option RawTree)) (s : State σ)
    (out : Except Interrupt Unit × State σ) : Prop :=
  ∃ t, out = (.ok (), t) ∧ Restores c₀ slots s t

variable {c₀ : PredictionCache} {levels : Nat} {a b slots : List (Option RawTree)}
  {ts : List TokenType} {s t u : State σ} {tree : RawTree} {r : Rule}

theorem length_yields (slots : List (Option RawTree)) :
    (yields slots).length = (slotTokens slots).length := List.length_map _

theorem Derivation.tokens_pos (h : Derivation (.rule r.index) tree) (hr : r ≠ .program) :
    0 < tree.tokens.length := by
  rw [List.length_pos_iff]
  intro hnil
  have hmem : tree.tokens.map Token.type ∈ sentences r := mem_sentences.mpr h.derives
  rw [hnil] at hmem
  exact (sentences_opens hr).nonempty hmem

namespace Restores

theorem trans (h : Restores c₀ a s t) (h' : Restores c₀ b t u) : Restores c₀ (a ++ b) s u where
  kept := h.kept.trans h'.kept
  trusts := h'.trusts
  errors := h'.errors.trans h.errors
  index := by rw [h'.index, h.index, slotTokens_append, List.length_append, Nat.add_assoc]
  slots := by
    rw [h'.slots, h.slots, h.kept.input, h.index, plantSlots_append, List.append_assoc]

theorem decided (h : Sound c₀ levels s) (hd : Decided s t) : Restores c₀ [] s t where
  kept := hd.run.kept h.ok
  trusts := (h.run hd.run).trusts
  errors := hd.errors
  index := hd.index
  slots := by rw [hd.slots, plantSlots, List.append_nil]

theorem types_drop (h : Restores c₀ slots s t) :
    types t = (types s).drop (slotTokens slots).length := by
  have hi : t.buffer.position = s.buffer.position + (slotTokens slots).length := h.index
  simp only [types, State.rest, Buffer.rest, h.kept.input, hi, List.map_drop, List.drop_drop]

end Restores

namespace Faces

theorem left (h : Faces c₀ levels (a ++ b) ts s) : Faces c₀ levels a (yields b ++ ts) s where
  toSound := h.toSound
  height_le := by
    have hle := h.height_le
    rw [slotHeight_append] at hle
    omega
  types_eq := by rw [h.types_eq, yields_append, List.append_assoc]

/-- What is left to build after the first children. -/
theorem rest (h : Faces c₀ levels (a ++ b) ts s) (hr : Restores c₀ a s t) :
    Faces c₀ levels b ts t where
  ok := hr.kept.ok
  levels := by
    rw [State.depth, hr.kept.follow, hr.kept.maxDepth]
    exact h.levels
  trusts := hr.trusts
  height_le := by
    have hle := h.height_le
    rw [slotHeight_append] at hle
    omega
  types_eq := by
    rw [hr.types_drop, h.left.types_eq, ← length_yields, List.drop_left]

theorem decided (h : Faces c₀ levels slots ts s) (hd : Decided s t) :
    Faces c₀ levels slots ts t :=
  Faces.rest (a := []) h (.decided h.toSound hd)

theorem look (h : Faces c₀ levels slots ts s) (k : Nat) : Faces c₀ levels slots ts (s.reach k) :=
  h.decided (.look s k)

theorem current (h : Faces c₀ levels slots ts s) :
    s.current.type = (yields slots ++ ts).getD 0 eof := by
  rw [current_type_eq h.ok, h.types_eq]

theorem second (h : Faces c₀ levels slots ts s) :
    (s.buffer.ahead 2).type = (yields slots ++ ts).getD 1 eof := by
  rw [second_type_eq h.ok, h.types_eq]

theorem current_leaf {x : Token} (h : Faces c₀ levels ([some (.leaf x false)] ++ b) ts s) :
    s.current.type = x.type := h.left.current

theorem types_mem (h : Faces c₀ levels ([some tree] ++ b) ts s)
    (hd : Derivation (.rule r.index) tree) :
    types s ∈ sentences r * {yields b ++ ts} := by
  rw [h.left.types_eq]
  refine Language.append_mem_mul (mem_sentences.mpr ?_) rfl
  rw [yields, slotTokens_singleton]
  exact hd.derives

/-- Before a derivation stands a token at which its rule begins. -/
theorem begins (h : Faces c₀ levels ([some tree] ++ b) ts s)
    (hd : Derivation (.rule r.index) tree) (hr : r ≠ .program) : Begins r s.current.type := by
  have hmem := h.types_mem hd
  have hopens := (sentences_opens hr).mul (M := {yields b ++ ts})
  rw [current_type_eq h.ok]
  cases hts : types s with
  | nil => exact absurd (hts ▸ hmem) hopens.nonempty
  | cons x xs => exact hopens.first x xs (hts ▸ hmem)

end Faces

namespace Restored

theorem pure (h : Sound c₀ levels s) :
    Restored c₀ [] s ((Pure.pure () : Parser σ Unit) s) :=
  ⟨s, rfl, .refl h.ok, h.trusts, rfl, rfl, (List.append_nil _).symm⟩

theorem bind {p : Parser σ Unit} {k : Unit → Parser σ Unit}
    (h : Faces c₀ levels (a ++ b) ts s)
    (hp : Faces c₀ levels a (yields b ++ ts) s → Restored c₀ a s (p s))
    (hk : ∀ t, Faces c₀ levels b ts t → Restored c₀ b t (k () t)) :
    Restored c₀ (a ++ b) s ((p >>= k) s) := by
  obtain ⟨t, ht, hr⟩ := hp h.left
  obtain ⟨u, hu, hr'⟩ := hk t (h.rest hr)
  exact ⟨u, by rw [bind_ok ht, hu], hr.trans hr'⟩

/-- Looks and decisions in front of a piece change nothing about it. -/
theorem after {out : Except Interrupt Unit × State σ} (h : Sound c₀ levels s) (hd : Decided s t)
    (hr : Restored c₀ slots t out) : Restored c₀ slots s out := by
  obtain ⟨u, hu, hr⟩ := hr
  exact ⟨u, hu, Restores.trans (.decided h hd) hr⟩

end Restored

/-- The current token becomes the next leaf. -/
theorem Restores.take {x : Token} (h : Faces c₀ levels [some (.leaf x false)] ts s)
    (hx : x.type ∈ grammar.tokens) : Restores c₀ [some (.leaf x false)] s (s.reach 1).take := by
  have hcur : (s.reach 1).current.type = x.type := by
    rw [State.current_reach]
    exact h.current
  have hne : s.current.type ≠ eof := by
    rw [h.current]
    exact fun e => grammar.eof_notMem (e ▸ hx)
  have hrun : Run grammar s [.token (s.reach 1).current.type] (s.reach 1).take :=
    .take (.look 1 (.refl s)) (hcur ▸ hx)
  have hget := State.current_get h.ok.buffer hne
  refine ⟨hrun.kept h.ok, (h.toSound.run hrun).trusts, ?_, ?_, ?_⟩
  · rw [State.take_eq]
    rfl
  · rw [State.take_index (by rwa [State.current_reach]), State.index_reach]
    rfl
  · rw [State.take_eq, plantSlots_singleton, plant, List.getD_eq_getElem?_getD, hget,
      State.current_reach]
    rfl

theorem matchToken_restored {x : TokenType} {y : Token} (hx : x ∈ grammar.tokens)
    (hy : y.type = x) (h : Faces c₀ levels [some (.leaf y false)] ts s) :
    Restored c₀ [some (.leaf y false)] s (matchToken x s) :=
  ⟨_, matchToken_of_eq (h.current.trans hy), .take h (hy ▸ hx)⟩

theorem matchNext_restored {y : Token} (hy : y.type ∈ grammar.tokens)
    (h : Faces c₀ levels [some (.leaf y false)] ts s) :
    Restored c₀ [some (.leaf y false)] s (matchNext s) :=
  ⟨_, matchNext_apply s, .take h hy⟩

/-- The tokens that would go on with a text of a rule, and so must not follow it. -/
def extending : Rule → List TokenType
  | .primary => [lparen]
  | .factor => [lparen, caret]
  | .term => [lparen, caret, star, slash, percent]
  | .expression => [lparen, caret, star, slash, percent, plus, minus, assign]
  | .assignment => [lparen, caret, star, slash, percent, plus, minus, assign]
  | .statement => [lparen, caret, star, slash, percent, plus, minus, assign, semi]
  | _ => []

/-- A text of the rule is over where `ts` comes next. -/
def Over (r : Rule) (ts : List TokenType) : Prop := ts.getD 0 eof ∉ extending r

instance (r : Rule) (ts : List TokenType) : Decidable (Over r ts) :=
  inferInstanceAs (Decidable (_ ∉ _))

theorem Over.mono {r' : Rule} (h : Over r ts) (hsub : ∀ t ∈ extending r', t ∈ extending r) :
    Over r' ts := fun hmem => h (hsub _ hmem)

/-- The rules below statements build the derivations whose leaves are to come. -/
def Restoring (c₀ : PredictionCache) (levels : Nat) (inv : Rule → TokenSet → Parser σ Unit) :
    Prop :=
  ∀ r, r ≠ .program → r ≠ .statement → ∀ {follow tree ts s}, Derivation (.rule r.index) tree →
    Over r ts → Faces c₀ levels [some tree] ts s → Restored c₀ [some tree] s (inv r follow s)

theorem mem_forests_sign {slots : List (Option RawTree)} (h : slots ∈ forests sign) :
    ∃ t, slots = [some (.leaf t false)] ∧ t.type ∈ [plus, minus] := by
  rw [sign, forests_alt] at h
  rcases h with h | h <;> obtain ⟨t, rfl, ht⟩ := mem_forests_tok h
  · exact ⟨t, rfl, by simp [ht]⟩
  · exact ⟨t, rfl, by simp [ht]⟩

theorem mem_forests_scaling {slots : List (Option RawTree)} (h : slots ∈ forests scaling) :
    ∃ t, slots = [some (.leaf t false)] ∧ t.type ∈ [star, slash, percent] := by
  rw [scaling, forests_alt, forests_alt] at h
  rcases h with h | h | h <;> obtain ⟨t, rfl, ht⟩ := mem_forests_tok h
  · exact ⟨t, rfl, by simp [ht]⟩
  · exact ⟨t, rfl, by simp [ht]⟩
  · exact ⟨t, rfl, by simp [ht]⟩

section Operands

variable {set follow : TokenSet} {choice : List TokenType} {operand : Rule} {p : Pattern}
  {inv : Rule → TokenSet → Parser σ Unit}
  (hset : ∀ t, set.contains t = true ↔ t ∈ choice)
  (htok : ∀ t ∈ choice, t ∈ grammar.tokens)
  (hp : ∀ y ∈ forests p, ∃ x, y = [some (.leaf x false)] ∧ x.type ∈ choice)
  (hnext : ∀ t ∈ choice, t ∉ extending operand)
  (hop : ∀ {tree us t}, Derivation (.rule operand.index) tree → Over operand us →
    Faces c₀ levels [some tree] us t → Restored c₀ [some tree] t (inv operand follow t))
  (hend : ts.getD 0 eof ∉ choice) (hover : Over operand ts)

include hp hnext hover in
/-- An operand is over before the next operator as it is before what follows. -/
theorem over_operations {parts : List (List (Option RawTree))}
    (hparts : ∀ y ∈ parts, y ∈ forests p * forests (sub operand)) :
    Over operand (yields parts.flatten ++ ts) := by
  cases parts with
  | nil => exact hover
  | cons y parts =>
    obtain ⟨v, hv, w, -, rfl⟩ := hparts y List.mem_cons_self
    obtain ⟨x, rfl, hx⟩ := hp v hv
    exact hnext x.type hx

include hset htok hp hnext hop hend hover

/-- A loop over operands builds as many as the derivation has. -/
theorem whileNext_restored (parts : List (List (Option RawTree)))
    (hparts : ∀ y ∈ parts, y ∈ forests p * forests (sub operand)) (fuel : Nat) (s : State σ)
    (hfuel : (types s).length < fuel) (h : Faces c₀ levels parts.flatten ts s) :
    Restored c₀ parts.flatten s (whileNext set (do matchNext; inv operand follow) fuel s) := by
  induction parts generalizing fuel s with
  | nil =>
    obtain ⟨fuel, rfl⟩ := Nat.exists_eq_succ_of_ne_zero (Nat.ne_of_gt (Nat.zero_lt_of_lt hfuel))
    have hcur : set.contains s.current.type = false := by
      rw [Bool.eq_false_iff, ne_eq, hset, h.current]
      exact hend
    rw [whileNext, next_bind, hcur]
    exact .after h.toSound (.look s 1) (.pure (h.look 1).toSound)
  | cons y parts ih =>
    obtain ⟨fuel, rfl⟩ := Nat.exists_eq_succ_of_ne_zero (Nat.ne_of_gt (Nat.zero_lt_of_lt hfuel))
    have hover' := over_operations hp hnext hover fun z hz => hparts z (List.mem_cons_of_mem y hz)
    obtain ⟨v, hv, w, hw, rfl⟩ := hparts y List.mem_cons_self
    obtain ⟨x, rfl, hx⟩ := hp v hv
    obtain ⟨tree, rfl, hd⟩ := mem_forests_sub hw
    rw [List.flatten_cons] at h ⊢
    have hcur : set.contains s.current.type = true := by
      rw [hset, h.left.current_leaf]
      exact hx
    rw [whileNext, next_bind, if_pos hcur]
    refine .after h.toSound (.look s 1) (.bind (h.look 1) (fun h => ?_) fun t ht => ?_)
    · exact .bind h (matchNext_restored (htok _ hx)) fun t ht => hop hd hover' ht
    · refine ih (fun z hz => hparts z (List.mem_cons_of_mem _ hz)) fuel t ?_ ht
      rw [h.types_eq, yields_append, List.append_assoc, List.length_append, yields_append,
        List.length_append, yields_leaf, List.length_singleton] at hfuel
      rw [ht.types_eq]
      omega

theorem operatorBody_restored
    (hslots : slots ∈ forests (.seq (sub operand) (.many (.seq p (sub operand)))))
    (h : Faces c₀ levels slots ts s) :
    Restored c₀ slots s (operatorBody inv set operand follow s) := by
  rw [forests_seq, forests_many, forests_seq] at hslots
  obtain ⟨v, hv, w, ⟨parts, rfl, hparts⟩, rfl⟩ := hslots
  obtain ⟨tree, rfl, hd⟩ := mem_forests_sub hv
  refine .bind h (hop hd (over_operations hp hnext hover hparts)) fun t ht => ?_
  rw [operations, get_bind]
  refine whileNext_restored hset htok hp hnext hop hend hover parts hparts _ t ?_ ht
  have hrest : t.rest.length ≤ t.buffer.remaining := ht.ok.buffer.rest_le
  rw [types, List.length_map]
  omega

end Operands

theorem terminator_restored (hslots : slots ∈ forests (.opt (tok semi)))
    (hover : slots = [] → ts.getD 0 eof ≠ semi) (h : Faces c₀ levels slots ts s) :
    Restored c₀ slots s (terminator s) := by
  rw [forests_opt] at hslots
  rw [terminator, next_bind]
  refine .after h.toSound (.look s 1) ?_
  rcases hslots with hnil | hslots
  · obtain rfl : slots = [] := hnil
    have hcur : s.current.type ≠ semi := by
      rw [h.current]
      exact hover rfl
    rw [if_neg hcur]
    exact .pure (h.look 1).toSound
  · obtain ⟨x, rfl, hx⟩ := mem_forests_tok hslots
    rw [if_pos (h.current.trans hx)]
    exact matchToken_restored (mem_tokens (by decide)) hx (h.look 1)

/-- An expression that is over is not taken for an assignment. -/
theorem Faces.not_assignment (h : Faces c₀ levels ([some tree] ++ b) ts s)
    (hd : Derivation (.rule Rule.expression.index) tree)
    (hover : Over .expression (yields b ++ ts)) :
    ¬ (s.current.type = ident ∧ (s.buffer.ahead 2).type = assign) := by
  rintro ⟨hident, hassign⟩
  have hmem := h.types_mem hd
  have hglue : Glue {yields b ++ ts} := by
    refine .of_first fun t us hts hmem => ?_
    have hall : ∀ t ∈ [plus, minus, lparen, star, slash, percent, caret, assign],
        t ∈ extending .expression := by decide
    rw [Over, ← show t :: us = yields b ++ ts from hts] at hover
    exact hover (hall t hmem)
  rw [current_type_eq h.ok] at hident
  rw [second_type_eq h.ok] at hassign
  cases hts : types s with
  | nil =>
    rw [hts] at hident
    exact absurd hident (by decide)
  | cons x xs =>
    rw [hts] at hident hassign hmem
    obtain rfl : x = ident := hident
    cases xs with
    | nil => exact absurd hassign (by decide)
    | cons y ys =>
      obtain rfl : y = assign := hassign
      exact hglue.assignment_notMem hmem

section Bodies

variable {inv : Rule → TokenSet → Parser σ Unit} (hinv : Restoring c₀ levels inv)

include hinv

theorem expressionBody_restored (hslots : slots ∈ forests (production .expression))
    (hover : Over .expression ts) (h : Faces c₀ levels slots ts s) :
    Restored c₀ slots s (operatorBody inv additive .term additive s) := by
  refine operatorBody_restored additive_contains
    (fun t ht => (additive_words ((additive_contains t).mpr ht)).2) (fun y => mem_forests_sign)
    (by decide) (hinv .term (by decide) (by decide)) ?_ (hover.mono (by decide)) hslots h
  have hall : ∀ t ∈ [plus, minus], t ∈ extending .expression := by decide
  exact fun hmem => hover (hall _ hmem)

theorem termBody_restored (hslots : slots ∈ forests (production .term))
    (hover : Over .term ts) (h : Faces c₀ levels slots ts s) :
    Restored c₀ slots s (operatorBody inv multiplicative .factor multiplicative s) := by
  refine operatorBody_restored multiplicative_contains
    (fun t ht => (multiplicative_words ((multiplicative_contains t).mpr ht)).2)
    (fun y => mem_forests_scaling) (by decide) (hinv .factor (by decide) (by decide)) ?_
    (hover.mono (by decide)) hslots h
  have hall : ∀ t ∈ [star, slash, percent], t ∈ extending .term := by decide
  exact fun hmem => hover (hall _ hmem)

theorem exponent_restored
    (hslots : slots ∈ forests (.opt (.seq (tok caret) (sub .factor))))
    (hover : Over .factor ts) (h : Faces c₀ levels slots ts s) :
    Restored c₀ slots s (exponent inv s) := by
  rw [forests_opt, forests_seq] at hslots
  rw [exponent, next_bind]
  refine .after h.toSound (.look s 1) ?_
  rcases hslots with hnil | ⟨v, hv, w, hw, rfl⟩
  · obtain rfl : slots = [] := hnil
    have hcur : s.current.type ≠ caret := by
      rw [h.current]
      exact fun e => hover (List.mem_cons_of_mem lparen (List.mem_singleton.mpr e))
    rw [if_neg hcur]
    exact .pure (h.look 1).toSound
  · obtain ⟨x, rfl, hx⟩ := mem_forests_tok hv
    obtain ⟨tree, rfl, hd⟩ := mem_forests_sub hw
    rw [if_pos (h.current_leaf.trans hx)]
    exact .bind (h.look 1) (matchToken_restored (mem_tokens (by decide)) hx) fun t ht =>
      hinv .factor (by decide) (by decide) hd hover ht

theorem factorBody_restored (hslots : slots ∈ forests (production .factor))
    (hover : Over .factor ts) (h : Faces c₀ levels slots ts s) :
    Restored c₀ slots s (factorBody inv s) := by
  rw [production, forests_alt, forests_seq, forests_seq] at hslots
  rw [factorBody, next_bind]
  refine .after h.toSound (.look s 1) ?_
  rcases hslots with ⟨v, hv, w, hw, rfl⟩ | ⟨v, hv, w, hw, rfl⟩
  · obtain ⟨x, rfl, hx⟩ := mem_forests_sign hv
    obtain ⟨tree, rfl, hd⟩ := mem_forests_sub hw
    have hc := (additive_contains x.type).mpr hx
    rw [if_pos (h.current_leaf ▸ hc)]
    exact .bind (h.look 1) (matchNext_restored (additive_words hc).2) fun t ht =>
      hinv .factor (by decide) (by decide) hd hover ht
  · obtain ⟨tree, rfl, hd⟩ := mem_forests_sub hv
    have hall : ∀ t ∈ primaryStart, t ∉ [plus, minus] := by decide
    have hc : ¬ additive.contains s.current.type = true := by
      rw [additive_contains]
      exact hall _ (h.begins hd (by decide))
    have hover' : Over .primary (yields w ++ ts) := by
      rw [forests_opt, forests_seq] at hw
      rcases hw with hnil | ⟨y, hy, z, -, rfl⟩
      · obtain rfl : w = [] := hnil
        exact hover.mono (by decide)
      · obtain ⟨x, rfl, hx⟩ := mem_forests_tok hy
        show x.type ∉ [lparen]
        rw [hx]
        decide
    rw [if_neg hc]
    exact .bind (h.look 1) (hinv .primary (by decide) (by decide) hd hover') fun t ht =>
      exponent_restored hinv hw hover ht

theorem primaryBody_restored (hslots : slots ∈ forests (production .primary))
    (hover : Over .primary ts) (h : Faces c₀ levels slots ts s) :
    Restored c₀ slots s (primaryBody inv s) := by
  rw [production, forests_alt, forests_alt, forests_alt, forests_alt, forests_seq,
    forests_seq] at hslots
  rcases hslots with hv | hv | hv | hv | ⟨v, hv, w, ⟨y, hy, z, hz, rfl⟩, rfl⟩
  · obtain ⟨x, rfl, hx⟩ := mem_forests_tok hv
    have hcur : s.current.type = number := h.current.trans hx
    obtain ⟨t, hd, he⟩ := primaryBody_eq inv h.toSound (hcur ▸ by decide)
    rw [he, if_pos hcur]
    exact .after h.toSound hd (matchToken_restored (mem_tokens (by decide)) hx (h.decided hd))
  · obtain ⟨x, rfl, hx⟩ := mem_forests_tok hv
    have hcur : s.current.type = string := h.current.trans hx
    obtain ⟨t, hd, he⟩ := primaryBody_eq inv h.toSound (hcur ▸ by decide)
    rw [he, if_neg (hcur ▸ by decide), if_pos hcur]
    exact .after h.toSound hd (matchToken_restored (mem_tokens (by decide)) hx (h.decided hd))
  · -- A name that is not called is over before anything but a parenthesis.
    obtain ⟨x, rfl, hx⟩ := mem_forests_tok hv
    have hcur : s.current.type = ident := h.current.trans hx
    have hsecond : (s.buffer.ahead 2).type ≠ lparen := by
      rw [h.second]
      exact fun e => hover (List.mem_singleton.mpr e)
    obtain ⟨t, hd, he⟩ := primaryBody_eq inv h.toSound (hcur ▸ by decide)
    rw [he, if_neg (hcur ▸ by decide), if_neg (hcur ▸ by decide), if_pos hcur, if_neg hsecond]
    exact .after h.toSound hd (matchToken_restored (mem_tokens (by decide)) hx (h.decided hd))
  · obtain ⟨tree, rfl, hcall⟩ := mem_forests_sub hv
    have hmem := Faces.types_mem (b := []) h hcall
    rw [call_mul] at hmem
    obtain ⟨x, xs, hts, hx, hopen⟩ := exists_cons_of_oneOf_mul hmem
    obtain ⟨y, ys, rfl, hy, -⟩ := exists_cons_of_oneOf_mul hopen
    have hcur : s.current.type = ident := by
      rw [current_type_eq h.ok, hts]
      exact List.mem_singleton.mp hx
    have hsecond : (s.buffer.ahead 2).type = lparen := by
      rw [second_type_eq h.ok, hts]
      exact List.mem_singleton.mp hy
    obtain ⟨t, hd, he⟩ := primaryBody_eq inv h.toSound (hcur ▸ by decide)
    rw [he, if_neg (hcur ▸ by decide), if_neg (hcur ▸ by decide), if_pos hcur, if_pos hsecond]
    exact .after h.toSound hd (hinv .call (by decide) (by decide) hcall
      (hover.mono (by decide)) (h.decided hd))
  · obtain ⟨x, rfl, hx⟩ := mem_forests_tok hv
    obtain ⟨tree, rfl, hexpr⟩ := mem_forests_sub hy
    obtain ⟨x', rfl, hx'⟩ := mem_forests_tok hz
    have hcur : s.current.type = lparen := h.current_leaf.trans hx
    obtain ⟨t, hd, he⟩ := primaryBody_eq inv h.toSound (hcur ▸ by decide)
    rw [he, if_neg (hcur ▸ by decide), if_neg (hcur ▸ by decide), if_neg (hcur ▸ by decide)]
    refine .after h.toSound hd (.bind (h.decided hd)
      (matchToken_restored (mem_tokens (by decide)) hx) fun u hu => ?_)
    refine .bind hu (hinv .expression (by decide) (by decide) hexpr ?_) fun v hv =>
      matchToken_restored (mem_tokens (by decide)) hx' hv
    show x'.type ∉ _
    rw [hx']
    decide

theorem arguments_restored
    (hslots : slots ∈ forests (.opt (.seq (sub .expression)
      (.many (.seq (tok comma) (sub .expression))))))
    (hclose : ts.getD 0 eof = rparen) (h : Faces c₀ levels slots ts s) :
    Restored c₀ slots s (arguments inv s) := by
  rw [forests_opt] at hslots
  rw [arguments, next_bind]
  refine .after h.toSound (.look s 1) ?_
  rcases hslots with hnil | hslots
  · obtain rfl : slots = [] := hnil
    have hcur : s.current.type = rparen := h.current.trans hclose
    have hc : ¬ expressionStart.contains s.current.type = true := by
      rw [expressionStart_contains, hcur]
      decide
    rw [if_neg hc]
    exact .pure (h.look 1).toSound
  · have hc : expressionStart.contains s.current.type = true := by
      rw [forests_seq] at hslots
      obtain ⟨v, hv, w, -, rfl⟩ := hslots
      obtain ⟨tree, rfl, hd⟩ := mem_forests_sub hv
      exact h.begins hd (by decide)
    rw [if_pos hc]
    refine operatorBody_restored comma_contains
      (fun t ht => (comma_words ((comma_contains t).mpr ht)).2) (fun y hy => ?_) (by decide)
      (hinv .expression (by decide) (by decide)) ?_ ?_ hslots (h.look 1)
    · obtain ⟨x, rfl, hx⟩ := mem_forests_tok hy
      exact ⟨x, rfl, List.mem_singleton.mpr hx⟩
    · rw [hclose]
      decide
    · rw [Over, hclose]
      decide

theorem callBody_restored (hslots : slots ∈ forests (production .call))
    (h : Faces c₀ levels slots ts s) : Restored c₀ slots s (callBody inv s) := by
  rw [production, forests_seq, forests_seq, forests_seq] at hslots
  obtain ⟨u, hu, v, ⟨w, hw, x, ⟨y, hy, z, hz, rfl⟩, rfl⟩, rfl⟩ := hslots
  obtain ⟨name, rfl, hname⟩ := mem_forests_tok hu
  obtain ⟨left, rfl, hleft⟩ := mem_forests_tok hw
  obtain ⟨right, rfl, hright⟩ := mem_forests_tok hz
  refine .bind h (matchToken_restored (mem_tokens (by decide)) hname) fun t ht => ?_
  refine .bind ht (matchToken_restored (mem_tokens (by decide)) hleft) fun t ht => ?_
  refine .bind ht (arguments_restored hinv hy hright) fun t ht => ?_
  exact matchToken_restored (mem_tokens (by decide)) hright ht

theorem assignmentBody_restored (hslots : slots ∈ forests (production .assignment))
    (hover : Over .assignment ts) (h : Faces c₀ levels slots ts s) :
    Restored c₀ slots s (assignmentBody inv s) := by
  rw [production, forests_seq, forests_seq] at hslots
  obtain ⟨u, hu, v, ⟨w, hw, x, hx, rfl⟩, rfl⟩ := hslots
  obtain ⟨name, rfl, hname⟩ := mem_forests_tok hu
  obtain ⟨equals, rfl, hequals⟩ := mem_forests_tok hw
  obtain ⟨tree, rfl, hd⟩ := mem_forests_sub hx
  refine .bind h (matchToken_restored (mem_tokens (by decide)) hname) fun t ht => ?_
  refine .bind ht (matchToken_restored (mem_tokens (by decide)) hequals) fun t ht => ?_
  exact hinv .expression (by decide) (by decide) hd hover ht

/-- A statement is over behind its semicolon, or before what could not go on with
it. -/
theorem statementBody_restored (hslots : slots ∈ forests (production .statement))
    (hover : (∃ x, slots.getLast? = some (some (.leaf x false)) ∧ x.type = semi) ∨
      Over .statement ts)
    (h : Faces c₀ levels slots ts s) : Restored c₀ slots s (statementBody inv s) := by
  rw [production, forests_seq, forests_alt] at hslots
  obtain ⟨v, hv, w, hw, rfl⟩ := hslots
  obtain ⟨tree, r, rfl, hr, hd⟩ : ∃ (tree : RawTree) (r : Rule), v = [some tree] ∧
      (r = .assignment ∨ r = .expression) ∧ Derivation (.rule r.index) tree := by
    rcases hv with hv | hv <;> obtain ⟨tree, rfl, hd⟩ := mem_forests_sub hv
    · exact ⟨tree, .assignment, rfl, Or.inl rfl, hd⟩
    · exact ⟨tree, .expression, rfl, Or.inr rfl, hd⟩
  have hlast : w = [] → Over .statement ts := by
    rintro rfl
    refine hover.resolve_left ?_
    rintro ⟨x, hx, -⟩
    obtain ⟨start, slots, -, rfl⟩ := hd.exists_slots
    simp at hx
  have hstop : Over .expression (yields w ++ ts) := by
    have hw := forests_opt (tok semi) ▸ hw
    rcases hw with hnil | hw
    · obtain rfl : w = [] := hnil
      exact (hlast rfl).mono (by decide)
    · obtain ⟨x, rfl, hx⟩ := mem_forests_tok hw
      show x.type ∉ _
      rw [hx]
      decide
  have hkind : (if s.current.type = ident ∧ (s.buffer.ahead 2).type = assign then Rule.assignment
      else .expression) = r := by
    rcases hr with rfl | rfl
    · have hmem := h.types_mem hd
      rw [assignment_eq, mul_assoc, mul_assoc] at hmem
      obtain ⟨x, xs, hts, hx, hequals⟩ := exists_cons_of_oneOf_mul hmem
      obtain ⟨y, ys, rfl, hy, -⟩ := exists_cons_of_oneOf_mul hequals
      refine if_pos ⟨?_, ?_⟩
      · rw [current_type_eq h.ok, hts]
        exact List.mem_singleton.mp hx
      · rw [second_type_eq h.ok, hts]
        exact List.mem_singleton.mp hy
    · exact if_neg (h.not_assignment hd hstop)
  have hstart : expressionStart.contains s.current.type = true := by
    rcases hr with rfl | rfl
    · have hident : s.current.type = ident := h.begins hd (by decide)
      rw [hident, expressionStart_contains]
      decide
    · exact h.begins hd (by decide)
  obtain ⟨t, hdec, he⟩ := statementBody_eq inv h.toSound hstart
  rw [he, hkind]
  refine .after h.toSound hdec (.bind (h.decided hdec) ?_ fun u hu =>
    terminator_restored hw (fun e hsemi => hlast e (hsemi ▸ by decide)) hu)
  rcases hr with rfl | rfl
  · exact hinv .assignment (by decide) (by decide) hd hstop
  · exact hinv .expression (by decide) (by decide) hd hstop

theorem body_restored (hr : r ≠ .program) (hr' : r ≠ .statement)
    (hslots : slots ∈ forests (production r)) (hover : Over r ts)
    (h : Faces c₀ levels slots ts s) : Restored c₀ slots s (body inv r s) := by
  cases r with
  | program => exact absurd rfl hr
  | statement => exact absurd rfl hr'
  | assignment => exact assignmentBody_restored hinv hslots hover h
  | expression => exact expressionBody_restored hinv hslots hover h
  | term => exact termBody_restored hinv hslots hover h
  | factor => exact factorBody_restored hinv hslots hover h
  | primary => exact primaryBody_restored hinv hslots hover h
  | call => exact callBody_restored hinv hslots h

end Bodies

/-- Inside the node of a rule its children are to be built. -/
theorem Faces.openRule {start : Nat} (follow : TokenSet)
    (h : Faces c₀ (levels + 1) [some (.node r.index start false slots)] ts s) :
    Faces c₀ levels slots ts (s.openRule follow) where
  toSound := h.toSound.openRule follow
  height_le := by
    have hle := h.height_le
    rw [slotHeight_singleton, height] at hle
    exact Nat.le_of_succ_le_succ hle
  types_eq := by
    have hts := h.types_eq
    rw [yields, slotTokens_singleton, tokens] at hts
    exact hts

/-- A rule whose body builds the children of a derivation builds the derivation. -/
theorem invokeWithin_restores {start : Nat} (follow : TokenSet)
    (h : Faces c₀ (levels + 1) [some (.node r.index start false slots)] ts s)
    (hb : Restored c₀ slots (s.openRule follow) (body (invoker levels) r (s.openRule follow))) :
    ∃ t, invokeWithin (levels + 1) r follow s =
        (.ok ((node r.index start false slots).plant s.buffer.input s.index), t) ∧
      Restores c₀ [some (.node r.index start false slots)] s
        (t.attach ((node r.index start false slots).plant s.buffer.input s.index)) := by
  obtain ⟨t, ht, hr⟩ := hb
  have hd : s.depth < s.maxDepth := by
    have hl := h.levels
    omega
  have hslots : t.slots = plantSlots s.buffer.input s.index slots := hr.slots
  unfold invoker at ht
  refine ⟨t.closeRule s, ?_, hr.kept.close _, hr.trusts.of_eq rfl rfl, hr.errors, ?_, ?_⟩
  · simp only [invokeWithin, rule_of_lt hd, ht, finishRule, hslots, plant]
  · rw [slotTokens_singleton, tokens]
    exact hr.index
  · rw [plantSlots_singleton]
    rfl

/-- A derivation of no height does not exist, and any other leaves a level for
every node below its root. -/
theorem invoker_restored {follow : TokenSet} (hd : Derivation (.rule r.index) tree)
    (h : Faces c₀ levels [some tree] ts s)
    (hb : ∀ n slots start (t : State σ), levels = n + 1 → tree = .node r.index start false slots →
      slots ∈ forests (production r) → Faces c₀ n slots ts t →
      Restored c₀ slots t (body (invoker n) r t)) :
    Restored c₀ [some tree] s (invoker levels r follow s) := by
  obtain ⟨start, slots, hslots, rfl⟩ := hd.exists_slots
  cases levels with
  | zero =>
    have hle := h.height_le
    rw [slotHeight_singleton, height] at hle
    omega
  | succ n =>
    obtain ⟨t, ht, hr⟩ := invokeWithin_restores follow h
      (hb n slots start _ rfl rfl hslots (h.openRule follow))
    refine ⟨_, ?_, hr⟩
    simp only [invoker, attach, ht]

theorem invoker_restoring (levels : Nat) :
    Restoring c₀ levels (invoker levels : Rule → TokenSet → Parser σ Unit) := by
  induction levels with
  | zero =>
    intro r hr hr' follow tree ts s hd hover h
    exact invoker_restored hd h fun n slots start t hn => absurd hn (Nat.succ_ne_zero n).symm
  | succ levels ih =>
    intro r hr hr' follow tree ts s hd hover h
    refine invoker_restored hd h fun n slots start t hn _ hslots ht => ?_
    obtain rfl := Nat.succ.inj hn
    exact body_restored ih hr hr' hslots hover ht

theorem statement_restored {follow : TokenSet}
    (hd : Derivation (.rule Rule.statement.index) tree)
    (hover : tree.closed ∨ Over .statement ts) (h : Faces c₀ levels [some tree] ts s) :
    Restored c₀ [some tree] s (invoker levels .statement follow s) := by
  refine invoker_restored hd h fun n slots start t _ htree hslots ht => ?_
  subst htree
  exact statementBody_restored (invoker_restoring n) hslots hover ht

/-- The loop of a program builds all its statements if each but the last of them
is closed. -/
theorem programLoop_restored (parts : List (List (Option RawTree)))
    (hparts : ∀ y ∈ parts, y ∈ forests (sub .statement))
    (hclosed : ∀ slot ∈ parts.flatten.dropLast, ∃ t, slot = some t ∧ RawTree.closed t)
    (fuel : Nat) (s : State σ) (hfuel : (types s).length < fuel)
    (h : Faces c₀ levels parts.flatten [] s) :
    Restored c₀ parts.flatten s (programLoop (invoker levels) fuel s) := by
  induction parts generalizing fuel s with
  | nil =>
    obtain ⟨fuel, rfl⟩ := Nat.exists_eq_succ_of_ne_zero (Nat.ne_of_gt (Nat.zero_lt_of_lt hfuel))
    have hcur : s.current.type = eof := h.current
    rw [programLoop, next_bind, if_pos hcur]
    exact .after h.toSound (.look s 1) (.pure (h.look 1).toSound)
  | cons y parts ih =>
    obtain ⟨fuel, rfl⟩ := Nat.exists_eq_succ_of_ne_zero (Nat.ne_of_gt (Nat.zero_lt_of_lt hfuel))
    obtain ⟨tree, rfl, hd⟩ := mem_forests_sub (hparts y List.mem_cons_self)
    rw [List.flatten_cons] at h hclosed ⊢
    have hbegins : Begins .statement s.current.type := h.begins hd (by decide)
    have hstart : expressionStart.contains s.current.type = true := hbegins
    rw [programLoop, next_bind, if_neg hbegins.ne_eof]
    refine .after h.toSound (.look s 1) (.bind (h.look 1) (fun hy => ?_) fun t ht => ?_)
    · rw [programRound, next_bind, State.current_reach, if_pos hstart]
      refine .after hy.toSound (.look _ 1) (statement_restored hd ?_ (hy.look 1))
      -- Only behind the last statement there is nothing to come.
      cases hrest : parts.flatten with
      | nil => exact Or.inr (by decide)
      | cons slot slots =>
        obtain ⟨t, ht, hc⟩ := hclosed (some tree) (by simp [hrest])
        exact Or.inl (Option.some.inj ht ▸ hc)
    · refine ih (fun z hz => hparts z (List.mem_cons_of_mem _ hz)) (fun slot hslot => ?_) fuel t ?_
        ht
      · have hne : parts.flatten ≠ [] := fun e => by simp [e] at hslot
        refine hclosed slot ?_
        rw [List.singleton_append, List.dropLast_cons_of_ne_nil hne]
        exact List.mem_cons_of_mem _ hslot
      · have hpos : 0 < (yields [some tree]).length := by
          rw [length_yields, slotTokens_singleton]
          exact hd.tokens_pos (by decide)
        rw [h.types_eq, yields_append, List.append_assoc, List.length_append] at hfuel
        rw [ht.types_eq]
        omega

theorem programBody_restored (hslots : slots ∈ forests (production .program))
    (hclosed : ∀ slot ∈ slots.dropLast, ∃ t, slot = some t ∧ RawTree.closed t)
    (h : Faces c₀ levels slots [] s) : Restored c₀ slots s (programBody (invoker levels) s) := by
  rw [production, forests_many] at hslots
  obtain ⟨parts, rfl, hparts⟩ := hslots
  rw [programBody, get_bind]
  refine programLoop_restored parts hparts hclosed _ s ?_ h
  have hrest : s.rest.length ≤ s.buffer.remaining := h.ok.buffer.rest_le
  rw [types, List.length_map]
  omega

/-- The body of the root of a derivation that is all the input builds its children. -/
theorem root_restored {start : Nat} (hslots : slots ∈ forests (production r))
    (hsep : r = .program → (node r.index start false slots).separated)
    (h : Faces c₀ levels slots [] s) : Restored c₀ slots s (body (invoker levels) r s) := by
  have hover : Over r [] := by
    cases r <;> exact (by decide)
  by_cases hp : r = .program
  · subst hp
    exact programBody_restored hslots (hsep rfl) h
  · by_cases hs : r = .statement
    · subst hs
      exact statementBody_restored (invoker_restoring levels) hslots (Or.inr hover) h
    · exact body_restored (invoker_restoring levels) hp hs hslots hover h

/-- Parsing undoes flattening. Over a text that lexes to the leaves of a
derivation, whose statements but the last are closed and whose height is within
the nesting limit, its rule reports nothing, takes the whole text, and returns
that derivation with the tokens of the text at its leaves. -/
theorem invoke_restores (threshold depth : Nat) (source : String) (stalls : Nat → Bool)
    {c : PredictionCache} (hc : Coherent c) {r : Rule} {tree : RawTree}
    (hd : Derivation (.rule r.index) tree) (hsep : r = .program → tree.separated)
    (hheight : tree.height ≤ depth)
    (htypes : (Buffer.ofSource (Lexer.ofString source stalls)).input.map Token.type =
      tree.tokens.map Token.type) :
    ∃ s, invoke r.index (fresh threshold depth source stalls c) =
        (.ok (tree.plant (Buffer.ofSource (Lexer.ofString source stalls)).input 0), s) ∧
      (tree.plant (Buffer.ofSource (Lexer.ofString source stalls)).input 0).tokens =
        (Buffer.ofSource (Lexer.ofString source stalls)).input ∧
      s.errors = [] ∧ s.current.type = eof ∧
      s.index = (Buffer.ofSource (Lexer.ofString source stalls)).input.length := by
  obtain ⟨start, slots, hslots, rfl⟩ := hd.exists_slots
  obtain ⟨n, hn⟩ : ∃ n, max depth 1 = n + 1 := ⟨max depth 1 - 1, by omega⟩
  have hlen := congrArg List.length htypes
  rw [List.length_map, List.length_map] at hlen
  have hfaces : Faces c (n + 1) [some (.node r.index start false slots)] []
      (fresh threshold depth source stalls c) := by
    refine ⟨⟨⟨(fresh_idle ..).ok, hn⟩, fresh_trusts hc.faithful ..⟩, ?_, ?_⟩
    · rw [slotHeight_singleton]
      omega
    · rw [yields, slotTokens_singleton, List.append_nil]
      exact htypes
  obtain ⟨t, ht, hr⟩ := invokeWithin_restores .empty hfaces
    (root_restored hslots hsep (hfaces.openRule .empty))
  have hindex : t.index = (node r.index start false slots).tokens.length := by
    have hi := hr.index
    rw [slotTokens_singleton, fresh_index, Nat.zero_add] at hi
    exact hi
  have htokens := tokens_plant (Buffer.ofSource (Lexer.ofString source stalls)).input 0
    (node r.index start false slots) (by omega)
  refine ⟨t, ?_, ?_, hr.errors, ?_, hindex.trans hlen.symm⟩
  · have hrule : Rule.ofIndex? r.index = some r := by
      cases r <;> rfl
    have hlevels : (fresh threshold depth source stalls c).maxDepth -
        (fresh threshold depth source stalls c).depth = n + 1 := hn
    simp only [invoke, hrule, parseRule, hlevels]
    exact ht
  · rw [htokens, List.drop_zero, ← hlen, List.take_length]
  · exact (hfaces.rest (b := []) hr).current

/-- A token of a type, wherever it stands. -/
def blank (x : TokenType) : Token := { (default : Token) with type := x }

/-- A number as a factor. -/
def literal : RawTree :=
  .node Rule.factor.index 0 false
    [some (.node Rule.primary.index 0 false [some (.leaf (blank number) false)])]

/-- A negative power: the sign stands in front of all of it. -/
def negativePower : RawTree :=
  .node Rule.factor.index 0 false [some (.leaf (blank minus) false),
    some (.node Rule.factor.index 0 false
      [some (.node Rule.primary.index 0 false [some (.leaf (blank number) false)]),
        some (.leaf (blank caret) false), some literal])]

/-- A factor as a whole expression. -/
def lone (factor : RawTree) : RawTree :=
  .node Rule.expression.index 0 false [some (.node Rule.term.index 0 false [some factor])]

/-- A number, closed, and a negative power. -/
def numberAndPower : RawTree :=
  .node Rule.program.index 0 false
    [some (.node Rule.statement.index 0 false
      [some (lone literal), some (.leaf (blank semi) false)]),
    some (.node Rule.statement.index 0 false [some (lone negativePower)])]

theorem numberAndPower_derivation :
    Derivation (.rule Rule.program.index) numberAndPower := by
  have hprimary : Derivation (.rule Rule.primary.index)
      (.node Rule.primary.index 0 false [some (.leaf (blank number) false)]) :=
    .node .primary 0 (Or.inl rfl) (.cons (.leaf (blank number)) .nil)
  have hliteral : Derivation (.rule Rule.factor.index) literal :=
    .node .factor 0 (Or.inr ⟨_, rfl, [], Or.inl rfl, rfl⟩) (.cons hprimary .nil)
  have hpower : Derivation (.rule Rule.factor.index) negativePower :=
    .node .factor 0 (Or.inl ⟨_, Or.inr rfl, _, rfl, rfl⟩) (.cons (.leaf (blank minus)) (.cons
      (.node .factor 0 (Or.inr ⟨_, rfl, _, Or.inr ⟨_, rfl, _, rfl, rfl⟩, rfl⟩)
        (.cons hprimary (.cons (.leaf (blank caret)) (.cons hliteral .nil)))) .nil))
  have hlone {factor : RawTree} (h : Derivation (.rule Rule.factor.index) factor) :
      Derivation (.rule Rule.expression.index) (lone factor) :=
    .node .expression 0 ⟨_, rfl, [], Language.nil_mem_kstar _, rfl⟩ (.cons
      (.node .term 0 ⟨_, rfl, [], Language.nil_mem_kstar _, rfl⟩ (.cons h .nil)) .nil)
  have hwords : [Symbol.rule Rule.statement.index, .rule Rule.statement.index] ∈
      (production .program).words :=
    Language.join_mem_kstar (L := [[_], [_]]) fun y hy => by
      rcases List.mem_pair.mp hy with rfl | rfl <;> rfl
  refine .node .program 0 hwords (.cons ?_ (.cons ?_ .nil))
  · exact .node .statement 0 ⟨_, Or.inr rfl, _, Or.inr rfl, rfl⟩
      (.cons (hlone hliteral) (.cons (.leaf (blank semi)) .nil))
  · exact .node .statement 0 ⟨_, Or.inr rfl, [], Or.inl rfl, rfl⟩ (.cons (hlone hpower) .nil)

/-- The limit is exactly the height of the derivation. -/
theorem invoke_restores_power : numberAndPower.height = 8 ∧ ∃ s,
    invoke Rule.program.index (fresh 10 8 "1;-2^3" never .empty) =
        (.ok (numberAndPower.plant (Buffer.ofSource (Lexer.ofString "1;-2^3" never)).input 0), s) ∧
      s.errors = [] ∧ s.current.type = eof := by
  have hsep : numberAndPower.separated := by
    intro slot hslot
    obtain rfl := List.mem_singleton.mp hslot
    exact ⟨_, rfl, blank semi, rfl, rfl⟩
  obtain ⟨s, hs, -, herrors, hend, -⟩ := invoke_restores 10 8 "1;-2^3" never (c := .empty) Uses.none
    numberAndPower_derivation (fun _ => hsep) (by decide) (by decide)
  exact ⟨rfl, s, hs, herrors, hend⟩

end Calc

end Descent
