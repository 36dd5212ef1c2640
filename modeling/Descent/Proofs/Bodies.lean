import Descent.Proofs.Pieces

/-! The bodies of the rules of calc are runs of its grammar, whatever the cache
predicts: each ends with a word of its rule or with a recognition error, and
none fails. So every rule but `program`, whose loop may come to no end when
predictions were put into the cache from outside, returns a tree. -/

namespace Descent.Calc

open Computability Descent.Parser

/-- What the runs of the calc parser depend on. -/
def grammar : Grammar where
  tokens := {t | 1 ≤ t ∧ t ≤ 14}
  rules := {i | ∃ r : Rule, r.index = i}
  words i := {w | ∃ r : Rule, r.index = i ∧ w ∈ (production r).words}
  decisions d k f := k = 2 ∧ (d = 0 ∧ f = simulateStatement ∨ d = 1 ∧ f = simulatePrimary)
  eof_notMem := fun h => absurd h.1 (by decide)

theorem mem_tokens {t : TokenType} (h : 1 ≤ t ∧ t ≤ 14) : t ∈ grammar.tokens := h

theorem words_index (r : Rule) : grammar.words r.index = (production r).words := by
  ext w
  constructor
  · rintro ⟨r', hr, hw⟩
    rwa [Rule.index_injective hr] at hw
  · intro hw
    exact ⟨r, rfl, hw⟩

theorem additive_words {t : TokenType} (h : additive.contains t = true) :
    [.token t] ∈ sign.words ∧ t ∈ grammar.tokens := by
  rw [additive_contains] at h
  simp only [List.mem_cons, List.not_mem_nil, or_false] at h
  rcases h with rfl | rfl
  · exact ⟨Or.inl rfl, mem_tokens (by decide)⟩
  · exact ⟨Or.inr rfl, mem_tokens (by decide)⟩

theorem multiplicative_words {t : TokenType} (h : multiplicative.contains t = true) :
    [.token t] ∈ scaling.words ∧ t ∈ grammar.tokens := by
  rw [multiplicative_contains] at h
  simp only [List.mem_cons, List.not_mem_nil, or_false] at h
  rcases h with rfl | rfl | rfl
  · exact ⟨Or.inl rfl, mem_tokens (by decide)⟩
  · exact ⟨Or.inr (Or.inl rfl), mem_tokens (by decide)⟩
  · exact ⟨Or.inr (Or.inr rfl), mem_tokens (by decide)⟩

theorem comma_words {t : TokenType} (h : (TokenSet.ofList [comma]).contains t = true) :
    [.token t] ∈ (tok comma).words ∧ t ∈ grammar.tokens := by
  rw [comma_contains, List.mem_singleton] at h
  subst h
  exact ⟨rfl, mem_tokens (by decide)⟩

variable {σ : Type} [TokenSource σ]

theorem matchNext_apply (s : State σ) : matchNext s = (.ok (), (s.reach 1).take) := by
  rw [matchNext, next_bind, matchToken_of_eq (by simp), State.reach_reach]

theorem matchNext_ends {s : State σ} {p : Pattern}
    (hw : [.token s.current.type] ∈ p.words) (ht : s.current.type ∈ grammar.tokens) :
    Ends grammar s p.words (matchNext s) := by
  rw [matchNext_apply]
  have hr := Run.take (G := grammar) (.look 1 (.refl s)) (by simpa using ht)
  exact .ok hr (by simpa using hw)

/-- Every rule but `program` comes back with its tree attached. -/
def Returns (levels : Nat) (inv : Rule → TokenSet → Parser σ Unit) : Prop :=
  ∀ r, r ≠ .program → ∀ follow s, At levels s →
    ∃ t, inv r follow s = (.ok (), t) ∧ Run grammar s [.rule r.index] t

theorem Returns.ends {levels : Nat} {inv : Rule → TokenSet → Parser σ Unit}
    (hinv : Returns levels inv) {r : Rule} (hr : r ≠ .program) (follow : TokenSet) {s : State σ}
    (h : At levels s) : Ends grammar s (sub r).words (inv r follow s) := by
  obtain ⟨t, ht, hrun⟩ := hinv r hr follow s h
  rw [ht]
  exact .ok hrun rfl

section Bodies

variable {levels : Nat} {inv : Rule → TokenSet → Parser σ Unit}
  (hinv : Returns levels inv)

theorem terminator_ends {s : State σ} (h : At levels s) :
    Ends grammar s (Pattern.opt (tok semi)).words (terminator s) := by
  apply Ends.look 1
  rw [terminator, next_bind]
  split
  · exact (matchToken_ends (mem_tokens (by decide)) (h.ok.reach 1)).mono (fun w hw => Or.inr hw)
  · exact Ends.pure (Or.inl rfl)

include hinv

theorem statementBody_ends {s : State σ} (h : At levels s) :
    Ends grammar s (production .statement).words (statementBody inv s) := by
  have hdec : grammar.decisions 0 2 simulateStatement := ⟨rfl, Or.inl ⟨rfl, rfl⟩⟩
  have hends := (predict_ends hdec h.ok).bind (k := fun alternative => do
      inv (if alternative = 1 then .assignment else .expression) (.ofList [semi])
      terminator) (M := (production .statement).words) (by
    intro alternative t w _ hr _
    have ht := h.run hr
    refine Ends.bind ?_ (fun _ u v _ hu _ => terminator_ends (ht.run hu))
    split
    · exact (hinv.ends (by decide) _ ht).mono (fun w hw => Or.inl hw)
    · exact (hinv.ends (by decide) _ ht).mono (fun w hw => Or.inr hw))
  rwa [one_mul] at hends

theorem assigned_ends {s : State σ} (h : At levels s) :
    Ends grammar s (Pattern.seq (tok assign) (sub .expression)).words (assigned inv s) := by
  refine (matchToken_ends (mem_tokens (by decide)) h.ok).bind fun _ t w _ hr _ => ?_
  exact hinv.ends (by decide) _ (h.run hr)

theorem assignmentBody_ends {s : State σ} (h : At levels s) :
    Ends grammar s (production .assignment).words (assignmentBody inv s) := by
  refine (matchToken_ends (mem_tokens (by decide)) h.ok).bind fun _ t w _ hr _ => ?_
  exact assigned_ends hinv (h.run hr)

theorem operations_ends {operators : TokenSet} {p : Pattern} {operand : Rule} {follow : TokenSet}
    (hp : ∀ t, operators.contains t = true → [.token t] ∈ p.words ∧ t ∈ grammar.tokens)
    (hne : operand ≠ .program) {s : State σ} (h : At levels s) :
    Ends grammar s (Pattern.many (.seq p (sub operand))).words
      (operations inv operators operand follow s) := by
  rw [operations, get_bind]
  refine whileNext_ends (fun s (h : At levels s) hc => ?_) _ s h
    (Nat.lt_succ_of_le h.ok.buffer.rest_le)
  obtain ⟨hw, ht⟩ := hp _ hc
  constructor
  · exact (matchNext_ends hw ht).bind fun _ t w _ hr _ => hinv.ends hne follow (h.run hr)
  · intro t hm
    rw [bind_ok (matchNext_apply s)] at hm
    have htake : At levels (s.reach 1).take := h.run (G := grammar)
      (.take (.look 1 (.refl s)) (by simpa using ht))
    have hnext := hinv.ends hne follow htake
    rw [hm] at hnext
    cases hnext with
    | ok hv _ =>
      have hindex := (hv.kept htake.ok).index
      have hne : (s.reach 1).current.type ≠ eof := fun e => grammar.eof_notMem (by
        rw [← e]
        simpa using ht)
      rw [State.take_index hne, State.index_reach] at hindex
      omega

theorem operatorBody_ends {operators : TokenSet} {p : Pattern} {operand : Rule} {follow : TokenSet}
    (hp : ∀ t, operators.contains t = true → [.token t] ∈ p.words ∧ t ∈ grammar.tokens)
    (hne : operand ≠ .program) {s : State σ} (h : At levels s) :
    Ends grammar s (Pattern.seq (sub operand) (.many (.seq p (sub operand)))).words
      (operatorBody inv operators operand follow s) :=
  (hinv.ends hne follow h).bind fun _ _ _ _ hr _ => operations_ends hinv hp hne (h.run hr)

theorem exponent_ends {s : State σ} (h : At levels s) :
    Ends grammar s (Pattern.opt (.seq (tok caret) (sub .factor))).words (exponent inv s) := by
  apply Ends.look 1
  have h := h.look 1
  rw [exponent, next_bind]
  split
  · refine Ends.mono ?_ (fun w hw => Or.inr hw)
    refine (matchToken_ends (mem_tokens (by decide)) h.ok).bind fun _ t w _ hr _ => ?_
    exact hinv.ends (by decide) _ (h.run hr)
  · exact Ends.pure (Or.inl rfl)

theorem factorBody_ends {s : State σ} (h : At levels s) :
    Ends grammar s (production .factor).words (factorBody inv s) := by
  apply Ends.look 1
  have h := h.look 1
  rw [factorBody, next_bind]
  split
  · next hc =>
    obtain ⟨hw, ht⟩ := additive_words hc
    refine Ends.mono ?_ (fun w hw => Or.inl hw)
    refine (matchNext_ends (by simpa using hw) (by simpa using ht)).bind fun _ t w _ hr _ => ?_
    exact hinv.ends (by decide) _ (h.run hr)
  · refine Ends.mono ?_ (fun w hw => Or.inr hw)
    refine (hinv.ends (by decide) _ h).bind fun _ t w _ hr _ => ?_
    exact exponent_ends hinv (h.run hr)

theorem enclosed_ends {s : State σ} (h : At levels s) :
    Ends grammar s (Pattern.seq (sub .expression) (tok rparen)).words (enclosed inv s) := by
  refine (hinv.ends (by decide) _ h).bind fun _ u v _ hu _ => ?_
  exact matchToken_ends (mem_tokens (by decide)) (h.run hu).ok

theorem parenthesized_ends {s : State σ} (h : At levels s) :
    Ends grammar s (Pattern.seq (tok lparen) (.seq (sub .expression) (tok rparen))).words
      (parenthesized inv s) := by
  refine (matchToken_ends (mem_tokens (by decide)) h.ok).bind fun _ t w _ hr _ => ?_
  exact enclosed_ends hinv (h.run hr)

theorem primaryBody_ends {s : State σ} (h : At levels s) :
    Ends grammar s (production .primary).words (primaryBody inv s) := by
  have hdec : grammar.decisions 1 2 simulatePrimary := ⟨rfl, Or.inr ⟨rfl, rfl⟩⟩
  have hends := (predict_ends hdec h.ok).bind (k := fun alternative =>
      if alternative = 1 then matchToken number
      else if alternative = 2 then matchToken string
      else if alternative = 3 then matchToken ident
      else if alternative = 4 then inv .call .empty
      else parenthesized inv) (M := (production .primary).words) (by
    intro alternative t w _ hr _
    have ht := h.run hr
    split
    · exact (matchToken_ends (mem_tokens (by decide)) ht.ok).mono (fun w hw => Or.inl hw)
    · refine Ends.mono ?_ (fun w hw => Or.inr hw)
      split
      · exact (matchToken_ends (mem_tokens (by decide)) ht.ok).mono (fun w hw => Or.inl hw)
      · refine Ends.mono ?_ (fun w hw => Or.inr hw)
        split
        · exact (matchToken_ends (mem_tokens (by decide)) ht.ok).mono (fun w hw => Or.inl hw)
        · refine Ends.mono ?_ (fun w hw => Or.inr hw)
          split
          · exact (hinv.ends (by decide) _ ht).mono (fun w hw => Or.inl hw)
          · exact (parenthesized_ends hinv ht).mono (fun w hw => Or.inr hw))
  rwa [one_mul] at hends

theorem arguments_ends {s : State σ} (h : At levels s) :
    Ends grammar s (Pattern.opt (.seq (sub .expression) (.many (.seq (tok comma)
      (sub .expression))))).words (arguments inv s) := by
  apply Ends.look 1
  rw [arguments, next_bind]
  split
  · exact (operatorBody_ends hinv (fun _ => comma_words) (by decide)
      (h.look 1)).mono (fun w hw => Or.inr hw)
  · exact Ends.pure (Or.inl rfl)

theorem argumentList_ends {s : State σ} (h : At levels s) :
    Ends grammar s (Pattern.seq (tok lparen) (.seq
      (.opt (.seq (sub .expression) (.many (.seq (tok comma) (sub .expression)))))
      (tok rparen))).words (argumentList inv s) := by
  refine (matchToken_ends (mem_tokens (by decide)) h.ok).bind fun _ u v _ hu _ => ?_
  have hu := h.run hu
  refine (arguments_ends hinv hu).bind fun _ x y _ hx _ => ?_
  exact matchToken_ends (mem_tokens (by decide)) (hu.run hx).ok

theorem callBody_ends {s : State σ} (h : At levels s) :
    Ends grammar s (production .call).words (callBody inv s) := by
  refine (matchToken_ends (mem_tokens (by decide)) h.ok).bind fun _ t w _ hr _ => ?_
  exact argumentList_ends hinv (h.run hr)

theorem body_ends {r : Rule} (hr : r ≠ .program) {s : State σ} (h : At levels s) :
    Ends grammar s (production r).words (body inv r s) := by
  cases r with
  | program => exact absurd rfl hr
  | statement => exact statementBody_ends hinv h
  | assignment => exact assignmentBody_ends hinv h
  | expression => exact operatorBody_ends hinv (fun _ => additive_words) (by decide) h
  | term => exact operatorBody_ends hinv (fun _ => multiplicative_words) (by decide) h
  | factor => exact factorBody_ends hinv h
  | primary => exact primaryBody_ends hinv h
  | call => exact callBody_ends hinv h

end Bodies

theorem attach_returns {r : Rule} {follow : TokenSet} {run : Invocation σ} {s : State σ}
    (h : ∃ tree t, run s = (.ok tree, t) ∧ Invoked grammar r.index follow s tree t) :
    ∃ t, attach run s = (.ok (), t) ∧ Run grammar s [.rule r.index] t := by
  obtain ⟨tree, t, ht, hi⟩ := h
  exact ⟨t.attach tree, by simp only [attach, ht], (Run.refl s).invoke ⟨r, rfl⟩ hi⟩

theorem invokeWithin_invoked (levels : Nat) {r : Rule} (hr : r ≠ .program) (follow : TokenSet)
    {s : State σ} (h : At levels s) :
    ∃ tree t, invokeWithin levels r follow s = (.ok tree, t) ∧
      Invoked grammar r.index follow s tree t := by
  induction levels generalizing r follow s with
  | zero =>
    apply rule_invoked
    intro hd
    have hl := h.levels
    omega
  | succ levels ih =>
    apply rule_invoked
    intro _
    rw [words_index]
    exact body_ends (fun r hr follow s h => attach_returns (ih hr follow h)) hr
      (h.openRule follow)

theorem invokeWithin_returns (levels : Nat) : Returns levels
    (fun r follow => attach (invokeWithin levels r follow : Invocation σ)) :=
  fun _ hr follow _ h => attach_returns (invokeWithin_invoked levels hr follow h)

section Program

variable {levels : Nat} {inv : Rule → TokenSet → Parser σ Unit} (hinv : Returns levels inv)

include hinv

theorem programRound_run {s : State σ} (h : At levels s) (hne : s.current.type ≠ eof) :
    ∃ t, programRound inv s = (.ok (), t) ∧
      ∃ w, (w = [] ∨ w = [.rule Rule.statement.index]) ∧ Run grammar s w t := by
  rw [programRound, next_bind]
  split
  · obtain ⟨t, ht, hr⟩ := hinv .statement (by decide) expressionStart _ (h.look 1)
    exact ⟨t, ht, _, Or.inr rfl, Run.trans (.look 1 (.refl s)) hr⟩
  · obtain ⟨message, hm⟩ := skipExtraneous_eq expressionStart (s.reach 1)
    exact ⟨_, hm, [], Or.inl rfl, .drop message (.look 1 (.look 1 (.refl s))) (by simpa using hne)⟩

/-- The loop of a program either comes to the end of the input, or to no end. -/
theorem programLoop_cases (n : Nat) {s : State σ} (h : At levels s) :
    (∃ t, programLoop inv n s = (.ok (), t) ∧ t.current.type = eof ∧
      ∃ w ∈ (production .program).words, Run grammar s w t) ∨
    ∃ t, programLoop inv n s = (.error (.failure .endless), t) := by
  induction n generalizing s with
  | zero => exact Or.inr ⟨s, rfl⟩
  | succ n ih =>
    have hlook : Run grammar s [] (s.reach 1) := .look 1 (.refl s)
    rw [programLoop, next_bind]
    split
    · next he =>
      exact Or.inl ⟨s.reach 1, rfl, by simpa using he, [], Language.nil_mem_kstar _, hlook⟩
    · next hne =>
      obtain ⟨u, hround, w, hw, hu⟩ := programRound_run hinv (h.look 1) (by simpa using hne)
      have hrun := hlook.trans hu
      rw [bind_ok hround]
      rcases ih (h.run hrun) with ⟨t, ht, he, v, hv, hrest⟩ | hend
      · refine Or.inl ⟨t, ht, he, w ++ v, ?_, hrun.trans hrest⟩
        rcases hw with rfl | rfl
        · exact hv
        · rw [production, Pattern.words, ← Language.one_add_self_mul_kstar_eq_kstar]
          exact Or.inr (Language.append_mem_mul rfl hv)
      · exact Or.inr hend

end Program

/-- Below the nesting limit a program that returns has read its whole input. -/
theorem parseRule_program {s t : State σ} {tree : RawTree} (h : s.Ok) (hd : s.depth < s.maxDepth)
    (hp : parseRule .program s = (.ok tree, t)) :
    t.current.type = eof ∧ Invoked grammar Rule.program.index .empty s tree t := by
  obtain ⟨levels, hl⟩ : ∃ levels, s.maxDepth - s.depth = levels + 1 :=
    ⟨s.maxDepth - s.depth - 1, by omega⟩
  have hat : At levels (s.openRule .empty) := At.openRule ⟨h, hl⟩ .empty
  simp only [parseRule, hl, invokeWithin, rule_of_lt hd, body, programBody, get_bind] at hp
  rcases programLoop_cases (invokeWithin_returns levels)
    (2 * (s.openRule .empty).buffer.remaining + 1) hat with ⟨u, hu, he, w, hw, hr⟩ | ⟨u, hu⟩
  · simp only [hu, finishRule, Prod.mk.injEq, Except.ok.injEq] at hp
    obtain ⟨rfl, rfl⟩ := hp
    refine ⟨he, .finish hd hr ?_⟩
    rw [words_index]
    exact hw
  · simp [hu, finishRule] at hp

/-- Every tree a rule returns comes from a run of the grammar. -/
theorem parseRule_invoked {r : Rule} {s t : State σ} {tree : RawTree} (h : s.Ok)
    (hp : parseRule r s = (.ok tree, t)) : Invoked grammar r.index .empty s tree t := by
  by_cases hd : s.depth < s.maxDepth ∧ r = .program
  · obtain ⟨hd, rfl⟩ := hd
    exact (parseRule_program h hd hp).2
  · have hret : ∃ tree t, parseRule r s = (.ok tree, t) ∧
        Invoked grammar r.index .empty s tree t := by
      by_cases hr : r = .program
      · have hz : s.maxDepth - s.depth = 0 := by
          have hle := Nat.le_of_not_lt fun hlt => hd ⟨hlt, hr⟩
          omega
        simp only [parseRule, hz]
        apply rule_invoked
        intro hlt
        exact absurd ⟨hlt, hr⟩ hd
      · exact invokeWithin_invoked _ hr .empty ⟨h, rfl⟩
    obtain ⟨tree', t', he, hi⟩ := hret
    rw [he, Prod.mk.injEq, Except.ok.injEq] at hp
    obtain ⟨rfl, rfl⟩ := hp
    exact hi

theorem parseRule_run {r : Rule} {s t : State σ} {tree : RawTree} (h : s.Ok)
    (hp : parseRule r s = (.ok tree, t)) : Run grammar s [.rule r.index] (t.attach tree) :=
  (Run.refl s).invoke ⟨r, rfl⟩ (parseRule_invoked h hp)

end Descent.Calc
