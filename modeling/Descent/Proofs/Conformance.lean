import Descent.Proofs.Calls
import Descent.Proofs.Tree

/-! Trees conform to the grammar, errors included. Whatever a run attaches
spells the word of the run once the skipped tokens are left out, and a parser
reports something if and only if it marks something in the tree. -/

namespace Descent.Parser

open RawTree

variable {σ : Type} [TokenSource σ] {G : Grammar}

namespace State

theorem current_mem_input {s : State σ} (h : s.buffer.WF) (hne : s.current.type ≠ eof) :
    s.current ∈ s.buffer.input := by
  obtain ⟨ts, hr⟩ := rest_eq_cons h hne
  have hmem : s.current ∈ s.buffer.rest := by
    show s.current ∈ s.rest
    rw [hr]
    exact List.mem_cons_self
  exact List.mem_of_mem_drop hmem

omit [TokenSource σ]

/-- A parser recovers only after it has reported something. -/
def Noted (s : State σ) : Prop := s.recovering = true → s.errors ≠ []

theorem errors_le_errorsAfter (s : State σ) (place : Token) (message : String) :
    s.errors <+: s.errorsAfter place message := by
  unfold errorsAfter
  split
  · exact List.prefix_refl _
  · exact List.prefix_append _ _

theorem Noted.errorsAfter_ne_nil {s : State σ} (h : s.Noted) (place : Token) (message : String) :
    s.errorsAfter place message ≠ [] := by
  unfold errorsAfter
  split
  · next hr => exact h hr
  · simp

end State

/-- `more` was attached on the way from `s` to `t`: it spells `w`, its nodes
spell what the grammar allows, and what is marked in it was reported. -/
structure Built (G : Grammar) (s : State σ) (w : List Symbol) (more : List (Option RawTree))
    (t : State σ) : Prop where
  slots : t.slots = s.slots ++ more
  filled : none ∉ more
  spells : spelling more = w
  conforms : ∀ rule start slots, .node rule start false slots ∈ slotSubtrees more →
    none ∉ slots ∧ spelling slots ∈ G.words rule
  errors : s.errors <+: t.errors
  noted : s.Noted → t.Noted
  told : s.Noted → (∃ u ∈ slotSubtrees more, u.marked = true) → t.errors ≠ []
  quiet : (∀ u ∈ slotSubtrees more, u.marked = false) → t.errors = s.errors

namespace Built

omit [TokenSource σ]

theorem same {s t : State σ} (hslots : t.slots = s.slots) (herrors : t.errors = s.errors)
    (hrec : t.recovering = s.recovering) : Built G s [] [] t where
  slots := by simp [hslots]
  filled := by simp
  spells := rfl
  conforms := by simp [slotSubtrees]
  errors := by rw [herrors]
  noted := by
    intro h
    unfold State.Noted
    rw [herrors, hrec]
    exact h
  told := by simp [slotSubtrees]
  quiet := fun _ => herrors

theorem trans {s t u : State σ} {w v : List Symbol} {more more' : List (Option RawTree)}
    (h : Built G s w more t) (h' : Built G t v more' u) :
    Built G s (w ++ v) (more ++ more') u where
  slots := by rw [h'.slots, h.slots, List.append_assoc]
  filled := by
    intro hmem
    rcases List.mem_append.mp hmem with hm | hm
    · exact h.filled hm
    · exact h'.filled hm
  spells := by rw [spelling_append, h.spells, h'.spells]
  conforms := by
    intro rule start slots hmem
    rw [slotSubtrees_append] at hmem
    rcases List.mem_append.mp hmem with hm | hm
    · exact h.conforms rule start slots hm
    · exact h'.conforms rule start slots hm
  errors := h.errors.trans h'.errors
  noted := fun hs => h'.noted (h.noted hs)
  told := by
    rintro hs ⟨x, hmem, hx⟩
    rw [slotSubtrees_append] at hmem
    rcases List.mem_append.mp hmem with hm | hm
    · intro hnil
      have hle := h'.errors
      rw [hnil, List.prefix_nil] at hle
      exact h.told hs ⟨x, hm, hx⟩ hle
    · exact h'.told (h.noted hs) ⟨x, hm, hx⟩
  quiet := by
    intro hclean
    rw [slotSubtrees_append] at hclean
    rw [h'.quiet fun x hx => hclean x (List.mem_append_right _ hx),
      h.quiet fun x hx => hclean x (List.mem_append_left _ hx)]

theorem still {s t u : State σ} {w : List Symbol} {more : List (Option RawTree)}
    (h : Built G s w more t) (hslots : u.slots = t.slots) (herrors : u.errors = t.errors)
    (hrec : u.recovering = t.recovering) : Built G s w more u := by
  simpa using h.trans (same hslots herrors hrec)

/-- A leaf that is no error comes without a report. -/
theorem leaf {s t : State σ} {x : Token} (hslots : t.slots = s.slots ++ [some (.leaf x false)])
    (herrors : t.errors = s.errors) (hrec : t.recovering = false) :
    Built G s [.token x.type] [some (.leaf x false)] t where
  slots := hslots
  filled := by simp
  spells := by simp [spelling, symbol?]
  conforms := by simp [subtrees]
  errors := by rw [herrors]
  noted := by
    intro _ hr
    rw [hrec] at hr
    cases hr
  told := by simp [subtrees, marked]
  quiet := fun _ => herrors

/-- What is marked comes with a report. -/
theorem marked {s t : State σ} (tree : RawTree)
    (hslots : t.slots = s.slots ++ [some tree]) (hmark : tree.marked = true)
    (hconforms : ∀ rule start slots, .node rule start false slots ∈ tree.subtrees →
      none ∉ slots ∧ spelling slots ∈ G.words rule)
    (hle : s.errors <+: t.errors) (hnoted : s.Noted → t.errors ≠ []) :
    Built G s tree.symbol?.toList [some tree] t where
  slots := hslots
  filled := by simp
  spells := by cases hx : tree.symbol? <;> simp [spelling, hx]
  conforms := by simpa using hconforms
  errors := hle
  noted := fun hs _ => hnoted hs
  told := fun hs _ => hnoted hs
  quiet := by
    intro hclean
    rw [slotSubtrees_singleton] at hclean
    have := hclean tree (mem_subtrees_self tree)
    rw [hmark] at this
    cases this

end Built

namespace Built

theorem take (s : State σ) :
    Built G s [.token s.current.type] [some (.leaf s.current false)] s.take := by
  rw [State.take_eq]
  exact leaf rfl rfl rfl

omit [TokenSource σ] in
theorem errorLeaf {s t : State σ} {x place : Token} {message : String}
    (hslots : t.slots = s.slots ++ [some (.leaf x true)])
    (herrors : t.errors = s.errorsAfter place message) :
    Built G s (symbol? (.leaf x true)).toList [some (.leaf x true)] t := by
  apply marked _ hslots rfl (by simp [subtrees])
  · rw [herrors]
    exact s.errors_le_errorsAfter place message
  · intro hs
    rw [herrors]
    exact hs.errorsAfter_ne_nil place message

theorem drop {s : State σ} (h : s.current.start < s.current.stop) (message : String) :
    Built G s [] [some (.leaf s.current true)] (s.drop message) := by
  rw [State.drop_eq]
  simpa [symbol?, h] using errorLeaf (G := G) (s := s) (x := s.current) rfl rfl

theorem conjure (s : State σ) (x : TokenType) (text message : String) :
    Built G s [.token x] [some (.leaf (s.madeUp x text) true)] (s.conjure x text message) := by
  rw [State.conjure_eq]
  simpa [symbol?, State.madeUp] using
    errorLeaf (G := G) (s := s) (x := s.madeUp x text) rfl rfl

variable {s t : State σ} {v : List Symbol} {more : List (Option RawTree)} {r : Nat}
  {follow : TokenSet}

omit [TokenSource σ] in
/-- A rule that finishes adds a node that spells a word of the rule. -/
theorem finish (h : Built G (s.openRule follow) v more t) (hv : v ∈ G.words r) :
    Built G s [.rule r] [some (.node r s.index false t.slots)]
      ((t.closeRule s).attach (.node r s.index false t.slots)) where
  slots := rfl
  filled := by simp
  spells := rfl
  conforms := by
    have hslots : t.slots = more := h.slots
    intro rule start slots hmem
    simp only [slotSubtrees_singleton, subtrees, List.mem_cons, node.injEq] at hmem
    rcases hmem with ⟨rfl, -, -, rfl⟩ | hmem
    · rw [hslots, h.spells]
      exact ⟨h.filled, hv⟩
    · exact h.conforms rule start slots (hslots ▸ hmem)
  errors := h.errors
  noted := h.noted
  told := by
    rintro hs ⟨x, hmem, hx⟩
    have hslots : t.slots = more := h.slots
    simp only [slotSubtrees_singleton, subtrees, List.mem_cons] at hmem
    rcases hmem with rfl | hmem
    · cases hx
    · exact h.told hs ⟨x, hslots ▸ hmem, hx⟩
  quiet := by
    intro hclean
    have hslots : t.slots = more := h.slots
    apply h.quiet
    intro x hx
    exact hclean x (by simp [subtrees, hslots, hx])

/-- A rule that gives up adds a marked node, below which the tokens it skipped
are leaves. -/
theorem abandon (h : Built G (s.openRule follow) v more t) (hwf : t.buffer.WF)
    (message : String) :
    Built G s [.rule r] [some (.node r s.index true (t.giveUp message).slots)]
      (((t.giveUp message).closeRule s).attach
        (.node r s.index true (t.giveUp message).slots)) := by
  obtain ⟨n, hn, -⟩ := State.giveUp_skipped hwf message
  have herrors := hn.same.errors
  have hskip := hn.slots
  have hslots : t.slots = more := h.slots
  refine marked (.node r s.index true (t.giveUp message).slots) rfl rfl ?_ ?_ ?_
  · intro rule start slots hmem
    simp only [subtrees, hskip, slotSubtrees_append, slotSubtrees_leaves, List.mem_cons,
      List.mem_append, List.mem_map, node.injEq, Bool.false_eq_true, false_and, and_false,
      false_or, reduceCtorEq, exists_false, or_false] at hmem
    exact h.conforms rule start slots (hslots ▸ hmem)
  · rw [State.errors_close, herrors]
    exact h.errors.trans (t.errors_le_errorsAfter _ message)
  · intro hs
    rw [State.errors_close, herrors]
    exact (h.noted hs).errorsAfter_ne_nil _ message

end Built

/-- Every run builds what its word says, if no token of the input is empty. -/
theorem Run.built {s t : State σ} {w : List Symbol} (h : Run G s w t) (hs : s.Ok)
    (hin : ∀ x ∈ s.buffer.input, x.start < x.stop) : ∃ more, Built G s w more t := by
  induction h with
  | refl => exact ⟨[], .same rfl rfl rfl⟩
  | look k _ ih =>
    obtain ⟨more, hm⟩ := ih hs hin
    exact ⟨more, hm.still rfl rfl rfl⟩
  | take _ _ ih =>
    obtain ⟨more, hm⟩ := ih hs hin
    exact ⟨_, hm.trans (.take _)⟩
  | drop message hr hne ih =>
    obtain ⟨more, hm⟩ := ih hs hin
    have hk := hr.kept hs
    have hmem := State.current_mem_input hk.ok.buffer hne
    rw [hk.input] at hmem
    have hdrop := hm.trans (.drop (hin _ hmem) message)
    rw [List.append_nil] at hdrop
    exact ⟨_, hdrop⟩
  | conjure x text message _ _ _ ih =>
    obtain ⟨more, hm⟩ := ih hs hin
    exact ⟨_, hm.trans (.conjure _ x text message)⟩
  | decide _ _ _ ih =>
    obtain ⟨more, hm⟩ := ih hs hin
    exact ⟨more, hm.still rfl rfl rfl⟩
  | finish hr _ _ _ hv ih ihb =>
    obtain ⟨more, hm⟩ := ih hs hin
    have hk := hr.kept hs
    obtain ⟨inner, hb⟩ := ihb (hk.ok.openRule _) (by
      intro x hx
      exact hin x (hk.input ▸ hx))
    exact ⟨_, hm.trans (hb.finish hv)⟩
  | abandon message hr _ _ hbody ih ihb =>
    obtain ⟨more, hm⟩ := ih hs hin
    have hk := hr.kept hs
    obtain ⟨inner, hb⟩ := ihb (hk.ok.openRule _) (by
      intro x hx
      exact hin x (hk.input ▸ hx))
    exact ⟨_, hm.trans (hb.abandon (hbody.kept (hk.ok.openRule _)).ok.buffer message)⟩

end Descent.Parser

namespace Descent.Calc

open Descent.Parser RawTree

/-- Whatever the text, the nesting limit, the start rule and the predictions in
the cache, a tree that a new parser returns conforms to the grammar. Every node
that is not marked spells a word of its rule, nothing is marked exactly when
nothing was reported, and a tree without reports is a derivation. -/
theorem invoke_conforms (threshold depth : Nat) (source : String) (stalls : Nat → Bool)
    (c c' : PredictionCache) (index : Nat) {tree : RawTree} {s : ParserState}
    (h : invoke index ((fresh threshold depth source stalls c).share c') = (.ok tree, s)) :
    (∀ rule start slots, .node rule start false slots ∈ tree.subtrees →
      ∃ r : Rule, r.index = rule ∧ spelling slots ∈ (production r).words) ∧
    (s.errors = [] ↔ ∀ t ∈ tree.subtrees, t.marked = false) ∧
    (s.errors = [] → Derivation (.rule index) tree) := by
  have hidle := (fresh_idle threshold depth source stalls c).share c'
  obtain ⟨more, hbuilt⟩ := (invoke_run hidle.ok h).built hidle.ok
    (fun t ht => (hidle.lexed t ht).nonempty)
  obtain ⟨r, -, -, hinv⟩ := invoke_invoked hidle.ok h
  obtain rfl := hinv.more_eq hbuilt.slots
  have hnoted : ((fresh threshold depth source stalls c).share c').Noted :=
    fun hr => absurd hr (by simp [fresh, newParser, State.setMaxDepth, State.share])
  have hwords : ∀ rule start slots, .node rule start false slots ∈ tree.subtrees →
      none ∉ slots ∧ ∃ r : Rule, r.index = rule ∧ spelling slots ∈ (production r).words := by
    intro rule start slots hmem
    exact hbuilt.conforms rule start slots (by simpa using hmem)
  have hquiet : s.errors = [] ↔ ∀ t ∈ tree.subtrees, t.marked = false := by
    constructor
    · intro hnil t ht
      cases hm : t.marked with
      | false => rfl
      | true => exact absurd hnil (hbuilt.told hnoted ⟨t, by simpa using ht, hm⟩)
    · intro hclean
      exact hbuilt.quiet (by simpa using hclean)
  refine ⟨fun rule start slots hmem => (hwords rule start slots hmem).2, hquiet, fun hnil => ?_⟩
  have hsymbol : tree.symbol? = some (.rule index) := by
    cases hinv <;> rfl
  exact derivation_of_clean tree _ hsymbol (hquiet.mp hnil) hwords

/-- A statement that is only a sign: beyond the fifth level the rule for what
should come after it is refused. -/
theorem invoke_conforms_sign : ∃ tree s,
    invoke 1 ((fresh 10 5 "+" never .empty).share .empty) = (.ok tree, s) ∧
    (∀ rule start slots, .node rule start false slots ∈ tree.subtrees →
      ∃ r : Rule, r.index = rule ∧ spelling slots ∈ (production r).words) ∧
    (s.errors = [] ↔ ∀ t ∈ tree.subtrees, t.marked = false) ∧
    (s.errors = [] → Derivation (.rule 1) tree) :=
  ⟨_, _, rfl, invoke_conforms 10 5 "+" never .empty .empty 1 rfl⟩

end Descent.Calc
