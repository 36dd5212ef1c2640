import Descent.Proofs.Conformance
import Mathlib.Tactic.IntervalCases

/-! Every tree that a parser builds can be named. Its leaves have types of the
language, whether they were read or made up, its nodes are those of rules, and
such a tree becomes a parse tree. -/

namespace Descent.RawTree

/-- A leaf whose token has a name, or a node whose rule has one. -/
def Named (rules : List String) (v : Vocabulary) : RawTree → Prop
  | leaf t _ => ∃ symbol, v.symbol? t.type = some symbol
  | node rule _ _ _ => ∃ name, rules[rule]? = some name

mutual

/-- Where everything has a name, a tree becomes a parse tree. -/
theorem materialize_returns (rules : List String) (v : Vocabulary) : ∀ t : RawTree,
    (∀ u ∈ t.subtrees, u.Named rules v) → ∃ p, t.materialize rules v = .ok p
  | .leaf t error, h => by
    obtain ⟨symbol, hs⟩ : Named rules v (.leaf t error) := h _ (mem_subtrees_self _)
    exact ⟨_, by rw [materialize, hs]⟩
  | .node rule start recovered slots, h => by
    obtain ⟨name, hr⟩ : Named rules v (.node rule start recovered slots) :=
      h _ (mem_subtrees_self _)
    obtain ⟨children, hc⟩ := materializeSlots_returns rules v slots fun u hu =>
      h u (List.mem_cons_of_mem _ hu)
    exact ⟨.rule name children, by rw [materialize, hr, hc]⟩

theorem materializeSlots_returns (rules : List String) (v : Vocabulary) :
    ∀ slots : List (Option RawTree), (∀ u ∈ slotSubtrees slots, u.Named rules v) →
      ∃ ps, materializeSlots rules v slots = .ok ps
  | [], _ => ⟨[], by rw [materializeSlots]⟩
  | none :: slots, h => by
    rw [materializeSlots]
    exact materializeSlots_returns rules v slots h
  | some t :: slots, h => by
    obtain ⟨p, hp⟩ := materialize_returns rules v t fun u hu => h u (List.mem_append_left _ hu)
    obtain ⟨ps, hps⟩ := materializeSlots_returns rules v slots fun u hu =>
      h u (List.mem_append_right _ hu)
    exact ⟨p :: ps, by rw [materializeSlots, hp, hps]⟩

end

end Descent.RawTree

namespace Descent.Parser

open RawTree

variable {σ : Type} [TokenSource σ] {G : Grammar}

/-- A leaf with a token of the grammar, or a node of one of its rules. -/
def Known (G : Grammar) : RawTree → Prop
  | .leaf t _ => t.type ∈ G.tokens
  | .node rule _ _ _ => rule ∈ G.rules

/-- What was attached on the way from `s` to `t` is known to the grammar. -/
def Attached (G : Grammar) (s t : State σ) : Prop :=
  ∃ more, t.slots = s.slots ++ more ∧ ∀ u ∈ slotSubtrees more, Known G u

namespace Attached

omit [TokenSource σ]

theorem none {s t : State σ} (h : t.slots = s.slots) : Attached G s t :=
  ⟨[], by rw [h, List.append_nil], fun _ hu => absurd hu List.not_mem_nil⟩

theorem leaf {s t : State σ} {x : Token} {error : Bool}
    (h : t.slots = s.slots ++ [some (.leaf x error)]) (hx : x.type ∈ G.tokens) :
    Attached G s t := by
  refine ⟨_, h, fun u hu => ?_⟩
  rw [slotSubtrees_singleton, subtrees, List.mem_singleton] at hu
  exact hu ▸ hx

theorem trans {s t u : State σ} (h : Attached G s t) (h' : Attached G t u) : Attached G s u := by
  obtain ⟨more, hm, hk⟩ := h
  obtain ⟨more', hm', hk'⟩ := h'
  refine ⟨more ++ more', by rw [hm', hm, List.append_assoc], fun x hx => ?_⟩
  rw [slotSubtrees_append] at hx
  exact (List.mem_append.mp hx).elim (hk x) (hk' x)

theorem node {s t : State σ} {follow : TokenSet} {r start : Nat} {recovered : Bool}
    (h : Attached G (s.openRule follow) t) (hr : r ∈ G.rules) :
    Attached G s ((t.closeRule s).attach (.node r start recovered t.slots)) := by
  obtain ⟨more, hm, hk⟩ := h
  have hslots : t.slots = more := hm
  refine ⟨_, rfl, fun x hx => ?_⟩
  rw [slotSubtrees_singleton, subtrees, hslots] at hx
  rcases List.mem_cons.mp hx with rfl | hx
  · exact hr
  · exact hk x hx

end Attached

theorem Attached.giveUp {s : State σ} (h : s.buffer.WF) (message : String)
    (hin : ∀ x ∈ s.buffer.input, x.type ∈ G.tokens) : Attached G s (s.giveUp message) := by
  obtain ⟨n, hn, -⟩ := State.giveUp_skipped h message
  refine ⟨_, hn.slots, fun u hu => ?_⟩
  rw [slotSubtrees_leaves] at hu
  obtain ⟨t, ht, rfl⟩ := List.mem_map.mp hu
  exact hin t (List.mem_of_mem_drop (List.mem_of_mem_take ht))

/-- Every run attaches what the grammar knows, if the input does. -/
theorem Run.attached {s t : State σ} {w : List Symbol} (h : Run G s w t) (hs : s.Ok)
    (hin : ∀ x ∈ s.buffer.input, x.type ∈ G.tokens) : Attached G s t := by
  induction h with
  | refl => exact .none rfl
  | look k _ ih => exact (ih hs hin).trans (.none rfl)
  | take _ hx ih =>
    rw [State.take_eq]
    exact (ih hs hin).trans (.leaf rfl hx)
  | drop message hr hne ih =>
    have hk := hr.kept hs
    have hmem := State.current_mem_input hk.ok.buffer hne
    rw [hk.input] at hmem
    rw [State.drop_eq]
    exact (ih hs hin).trans (.leaf rfl (hin _ hmem))
  | conjure x text message _ hx _ ih =>
    rw [State.conjure_eq]
    exact (ih hs hin).trans (.leaf rfl hx)
  | decide _ _ _ ih => exact (ih hs hin).trans (.none rfl)
  | finish hr hrule _ _ _ ih ihb =>
    have hk := hr.kept hs
    exact (ih hs hin).trans ((ihb (hk.ok.openRule _) (hk.input.symm ▸ hin)).node hrule)
  | @abandon _ _ _ _ _ _ follow message hr hrule _ hbody ih ihb =>
    have hk := hr.kept hs
    have hin' := hk.input.symm ▸ hin
    have hkb := hbody.kept (hk.ok.openRule follow)
    have hgive := (ihb (hk.ok.openRule follow) hin').trans
      (.giveUp hkb.ok.buffer message (hkb.input.symm ▸ hin'))
    exact (ih hs hin).trans (hgive.node hrule)

end Descent.Parser

namespace Descent.Calc

open Descent.Parser RawTree

theorem named_of_known {t : RawTree} (h : Known grammar t) : t.Named ruleNames vocabulary := by
  cases t with
  | leaf t error =>
    obtain ⟨h1, h14⟩ : 1 ≤ t.type ∧ t.type ≤ 14 := h
    show ∃ symbol, vocabulary.symbol? t.type = some symbol
    generalize t.type = x at h1 h14
    interval_cases x <;> exact ⟨_, rfl⟩
  | node rule start recovered slots =>
    obtain ⟨r, rfl⟩ := h
    cases r <;> exact ⟨_, rfl⟩

/-- Everything in a tree that a rule returns to an idle parser is known. -/
theorem parseRule_known {s t : ParserState} {r : Rule} {tree : RawTree} (h : Idle s)
    (hr : parseRule r s = (.ok tree, t)) : ∀ u ∈ tree.subtrees, Known grammar u := by
  obtain ⟨more, hmore, hknown⟩ := (parseRule_run h.ok hr).attached h.ok fun x hx =>
    mem_tokens ⟨(h.lexed x hx).pos, (h.lexed x hx).le⟩
  obtain rfl := (parseRule_invoked h.ok hr).more_eq hmore
  rwa [slotSubtrees_singleton] at hknown

/-- A tree that a rule returns to an idle parser becomes a parse tree. -/
theorem parseRule_materialize {s t : ParserState} {r : Rule} {tree : RawTree} (h : Idle s)
    (hr : parseRule r s = (.ok tree, t)) :
    ∃ p, tree.materialize ruleNames vocabulary = .ok p :=
  materialize_returns _ _ tree fun u hu => named_of_known (parseRule_known h hr u hu)

/-- A parse that has come to its end on a lexer that never gives up has an
output. -/
theorem finish_returns {s t : ParserState} {r : Rule} {tree : RawTree} (h : Idle s)
    (hsource : s.buffer.whole.source.failure? = none) (hr : parseRule r s = (.ok tree, t)) :
    ∃ out, finish tree t = .ok out ∧ out.parserErrors = t.errors := by
  obtain ⟨p, hp⟩ := parseRule_materialize h hr
  have hwhole : t.buffer.whole = s.buffer.whole := ((parseRule_run h.ok hr).kept h.ok).whole
  have hfailure : t.buffer.source.failure? = none := by
    apply Buffer.failure_of_whole
    rw [hwhole]
    exact hsource
  exact ⟨⟨p, t.buffer.source.errors, t.errors⟩, by rw [finish, hfailure, hp], rfl⟩

end Descent.Calc
