import Descent.Proofs.Tracking
import Descent.Proofs.Transparency

/-! The first error is reported at the earliest token at which one could be. Every
piece of a body leads to where it knows what comes next, or stops at the first
token with which no sentence begins, or has seen it reported; a rule reports what
its body has stopped at. That the parser commits itself early does no harm: where
it does, what it has excluded could not have gone on any further. -/

namespace Descent.Calc

open Computability Descent.Parser

variable {σ : Type} [TokenSource σ] {c₀ : PredictionCache} {P K L M : Language TokenType}
  {levels n : Nat} {s : State σ}

/-- The rules below statements lead to what comes after them, or to the culprit. -/
def Knows (c₀ : PredictionCache) (P : Language TokenType) (levels : Nat)
    (inv : Rule → TokenSet → Parser σ Unit) : Prop :=
  ∀ r, r ≠ .program → r ≠ .statement → ∀ {follow n K s}, Glue K → 0 < levels →
    4 * n + reserve r ≤ levels → Tracks c₀ P levels n (sentences r * after r K) s →
    Heads c₀ P levels n (after r K) (inv r follow s)

section Bodies

variable {inv : Rule → TokenSet → Parser σ Unit} (hinv : Returns levels inv)

include hinv

section Operands

variable {set follow : TokenSet} {choice : List TokenType} {operand : Rule}
  (hoperand : operand ≠ .program)
  (hset : ∀ t, set.contains t = true ↔ t ∈ choice)
  (htok : ∀ t ∈ choice, t ∈ grammar.tokens)

include hoperand hset htok

variable (hM : Viable M [])
  (hglue : ∀ t ts, t ∈ choice → t :: ts ∈ K → ts ∈ M * ((oneOf choice * M)∗ * K))

include hM hglue

/-- A loop over operands goes on for as long as an operator announces one. -/
theorem whileNext_heads (fuel n : Nat) (s : State σ) (hfuel : n < fuel)
    (hop : ∀ k t, k ≤ n → Tracks c₀ P levels k (M * ((oneOf choice * M)∗ * K)) t →
      Heads c₀ P levels k ((oneOf choice * M)∗ * K) (inv operand follow t))
    (h : Tracks c₀ P levels n ((oneOf choice * M)∗ * K) s) :
    Heads c₀ P levels n K (whileNext set (do matchNext; inv operand follow) fuel s) := by
  induction fuel generalizing n s with
  | zero => omega
  | succ fuel ih =>
    have hall := h.look 1
    have hv := h.viable.right
    rw [kstar_mul_eq] at hall
    rw [whileNext, next_bind]
    split
    · next hc =>
      -- `hglue`: what could have begun with this operator after the loop can go on in it.
      have ht := (hset _).mp hc
      have hpos : 1 ≤ n := h.pos fun e => grammar.eof_notMem (e ▸ htok _ ht)
      rw [← State.current_reach s 1] at ht
      have htake := (hall.present ht (hM.mul h.viable) fun ts => hglue _ ts ht).take ht (htok _ ht)
      rw [bind_assoc, bind_ok (matchNext_apply _)]
      refine (hop (n - 1) _ (Nat.sub_le n 1) htake).bind
        (operations_runs hinv hoperand (fun t ht => htok t ((hset t).mp ht)) fuel) fun u hu => ?_
      exact (ih (n - 1) u (by omega) (fun k t hk => hop k t (by omega)) hu).weaken
        (Nat.sub_le n 1)
    · next hc =>
      refine .pure (hall.absent (fun ht => hc ((hset _).mpr ?_)) hv)
      rwa [State.current_reach] at ht

theorem operatorBody_heads
    (hop : ∀ k t, k ≤ n → Tracks c₀ P levels k (M * ((oneOf choice * M)∗ * K)) t →
      Heads c₀ P levels k ((oneOf choice * M)∗ * K) (inv operand follow t))
    (h : Tracks c₀ P levels n (M * ((oneOf choice * M)∗ * K)) s) :
    Heads c₀ P levels n K (operatorBody inv set operand follow s) := by
  have hruns : Runs levels (operations inv set operand follow) :=
    fun t ht => operations_runs hinv hoperand (fun x hx => htok x ((hset x).mp hx)) _ t ht
  refine (hop n s (Nat.le_refl n) h).bind hruns fun t ht => ?_
  rw [operations, get_bind]
  have hlen : (types t).length < t.buffer.remaining + 1 := by
    have hrest : t.rest.length ≤ t.buffer.remaining := ht.ok.buffer.rest_le
    rw [types, List.length_map]
    omega
  have hloop := whileNext_heads hinv hoperand hset htok hM hglue _ _ t hlen
    (fun k u hk => hop k u (Nat.le_trans hk ht.length_le)) ht.exact
  exact hloop.weaken ht.length_le

end Operands

variable (hknow : Knows c₀ P levels inv)

include hknow

theorem arguments_heads (hn : 4 * n + 4 ≤ levels)
    (h : Tracks c₀ P levels n
      ((1 + sentences .expression * moreArguments) * (oneOf [rparen] * K)) s) :
    Heads c₀ P levels n (oneOf [rparen] * K) (arguments inv s) := by
  have hall := h.look 1
  have hv := h.viable.right
  rw [add_mul, one_mul, mul_assoc] at hall
  rw [arguments, next_bind]
  split
  · next hc =>
    have hmore : Tracks c₀ P levels n
        (sentences .expression * (moreArguments * (oneOf [rparen] * K))) (s.reach 1) := by
      refine hall.narrow ((sentences_viable (by decide)).mul ((kstar_viable _).mul hv))
        (fun _ hx => Or.inr hx) fun ts hts => hts.resolve_left fun hclose => ?_
      have hcur := List.mem_singleton.mp (cons_mem_oneOf_mul.mp hclose).1
      rw [State.current_reach] at hcur
      rw [hcur, expressionStart_contains] at hc
      exact absurd hc (by decide)
    refine operatorBody_heads hinv (by decide) comma_contains
      (fun t ht => (comma_words ((comma_contains t).mpr ht)).2) (sentences_viable (by decide))
      ?_ ?_ hmore
    · intro t ts ht hts
      have hclose := (cons_mem_oneOf_mul.mp hts).1
      obtain rfl := List.mem_singleton.mp ht
      exact absurd hclose (by decide)
    · intro k t hk ht
      exact hknow .expression (by decide) (by decide) (moreArguments_glue K) (by omega)
        (by simp only [reserve]; omega) ht
  · next hc =>
    refine .pure (hall.narrow hv (fun _ hx => Or.inl hx) fun ts hts =>
      hts.resolve_right fun hmore => hc ?_)
    have hbegins := (sentences_opens (r := .expression) (by decide)).mul.first _ ts hmore
    rwa [State.current_reach] at hbegins

theorem callBody_heads (hn : 4 * n ≤ levels + 1)
    (h : Tracks c₀ P levels n (sentences .call * after .call K) s) :
    Heads c₀ P levels n (after .call K) (callBody inv s) := by
  rw [call_mul] at h
  refine matchToken_bind (mem_tokens (by decide)) h (.of_ends fun _ => argumentList_ends hinv)
    fun t _ ht => ?_
  have hclose : Runs levels (matchToken rparen : Parser σ Unit) :=
    matchToken_runs (mem_tokens (by decide))
  refine matchToken_bind (mem_tokens (by decide)) ht
    ((Runs.of_ends fun _ => arguments_ends hinv).bind hclose) fun u hpos hu => ?_
  refine (arguments_heads hinv hknow (by omega) hu).bind hclose fun v hv => ?_
  exact (matchToken_heads (mem_tokens (by decide)) hv).weaken (by omega)

variable (hK : Glue K)

include hK

theorem expressionBody_heads (hn : 4 * n + 3 ≤ levels)
    (h : Tracks c₀ P levels n (sentences .expression * K) s) :
    Heads c₀ P levels n K (operatorBody inv additive .term additive s) := by
  rw [expression_mul] at h
  refine operatorBody_heads hinv (by decide) additive_contains
    (fun t ht => (additive_words ((additive_contains t).mpr ht)).2) (sentences_viable (by decide))
    (fun t ts => hK.sign_term) ?_ h
  intro k t hk ht
  exact hknow .term (by decide) (by decide) hK (by omega) (by simp only [reserve]; omega) ht

theorem termBody_heads (hn : 4 * n + 2 ≤ levels)
    (h : Tracks c₀ P levels n (sentences .term * after .term K) s) :
    Heads c₀ P levels n (after .term K)
      (operatorBody inv multiplicative .factor multiplicative s) := by
  rw [term_mul] at h
  refine operatorBody_heads hinv (by decide) multiplicative_contains
    (fun t ht => (multiplicative_words ((multiplicative_contains t).mpr ht)).2)
    (sentences_viable (by decide)) ?_ ?_ h
  · intro t ts ht hts
    exact absurd hts (hK.scaling_notMem ht)
  · intro k t hk ht
    exact hknow .factor (by decide) (by decide) hK (by omega) (by simp only [reserve]; omega) ht

theorem exponent_heads (hn : 4 * n + 1 ≤ levels)
    (h : Tracks c₀ P levels n (after .primary K) s) :
    Heads c₀ P levels n (after .factor K) (exponent inv s) := by
  have hall := h.look 1
  have hv : Viable (after .factor K) [] := h.viable.right
  rw [after_primary_eq] at hall
  rw [exponent, next_bind]
  split
  · next hc =>
    have hcur : (s.reach 1).current.type ∈ [caret] := by
      rw [State.current_reach, hc]
      exact List.mem_singleton_self _
    have hpower := hall.present hcur ((sentences_viable (by decide)).mul hv) fun ts hts => by
      rw [List.mem_singleton.mp hcur] at hts
      exact absurd hts hK.caret_notMem
    refine matchToken_bind (mem_tokens (by decide)) hpower (invoke_runs hinv (by decide) _)
      fun t hpos ht => ?_
    refine Heads.weaken ?_ (Nat.sub_le n 1)
    exact hknow .factor (by decide) (by decide) hK (by omega) (by simp only [reserve]; omega) ht
  · next hc =>
    refine .pure (hall.absent (fun hcur => hc ?_) hv)
    rw [State.current_reach] at hcur
    exact List.mem_singleton.mp hcur

theorem factorBody_heads (hn : 4 * n + 1 ≤ levels)
    (h : Tracks c₀ P levels n (sentences .factor * after .factor K) s) :
    Heads c₀ P levels n (after .factor K) (factorBody inv s) := by
  have hall := h.look 1
  have hv := h.viable
  rw [factor_mul, add_comm] at hall
  rw [factorBody, next_bind]
  split
  · next hc =>
    have hcur : (s.reach 1).current.type ∈ [plus, minus] := by
      rw [State.current_reach]
      exact (additive_contains _).mp hc
    have htok : (s.reach 1).current.type ∈ grammar.tokens := by
      rw [State.current_reach]
      exact (additive_words hc).2
    have hsigned := hall.present hcur hv fun ts hts => by
      have hbegins := (sentences_opens (by decide)).mul.first _ ts hts
      have hno : ∀ t ∈ [plus, minus], t ∉ primaryStart := by decide
      exact absurd hbegins (hno _ hcur)
    have hpos : 1 ≤ n := hsigned.pos fun e => grammar.eof_notMem (e ▸ htok)
    rw [bind_ok (matchNext_apply _)]
    refine Heads.weaken ?_ (Nat.sub_le n 1)
    exact hknow .factor (by decide) (by decide) hK (by omega) (by simp only [reserve]; omega)
      (hsigned.take hcur htok)
  · next hc =>
    have hpower : Viable power [] := .of_mem (Or.inl rfl)
    have hprimary := hall.absent (fun hcur => hc ((additive_contains _).mpr ?_))
      ((sentences_viable (by decide)).mul (hpower.mul hv.right))
    · exact (hknow .primary (by decide) (by decide) hK (by omega)
        (by simp only [reserve]; omega) hprimary).bind (.of_ends fun _ => exponent_ends hinv)
        fun t ht => exponent_heads hinv hknow hK (by omega) ht
    · rwa [State.current_reach] at hcur

theorem primaryBody_heads (hn : 4 * n ≤ levels)
    (h : Tracks c₀ P levels n (sentences .primary * after .primary K) s) :
    Heads c₀ P levels n (after .primary K) (primaryBody inv s) := by
  by_cases hstart : s.current.type ∈ primaryStart
  · have hne : s.current.type ≠ eof := by
      have hall : ∀ t ∈ primaryStart, t ≠ eof := by decide
      exact hall _ hstart
    have hpos := h.pos hne
    obtain ⟨u, hd, he⟩ := primaryBody_eq inv h.toSound hstart
    rw [he]
    split
    · next hx =>
      exact (matchToken_heads (mem_tokens (by decide))
        ((h.literal (by decide) hx).decided hd)).weaken (Nat.sub_le n 1)
    · split
      · next hx =>
        exact (matchToken_heads (mem_tokens (by decide))
          ((h.literal (by decide) hx).decided hd)).weaken (Nat.sub_le n 1)
      · split
        · next hx =>
          split
          · next hparen =>
            exact hknow .call (by decide) (by decide) hK (by omega) (by simp only [reserve]; omega)
              ((h.call hK hx hparen).decided hd)
          · next hparen =>
            exact (matchToken_heads (mem_tokens (by decide))
              ((h.name hx hparen).decided hd)).weaken (Nat.sub_le n 1)
        · next h1 h2 h3 =>
          have hx : s.current.type = lparen := by
            simp only [primaryStart, List.mem_cons, List.not_mem_nil, or_false] at hstart
            tauto
          refine matchToken_bind (mem_tokens (by decide)) ((h.paren hx).decided hd)
            (.of_ends fun _ => enclosed_ends hinv) fun v _ hv => ?_
          refine (hknow .expression (by decide) (by decide) (closing_glue _) (by omega)
            (by simp only [reserve]; omega) hv).bind (matchToken_runs (mem_tokens (by decide)))
            fun w hw => ?_
          exact (matchToken_heads (mem_tokens (by decide)) hw).weaken (by omega)
  · obtain ⟨t, hd, he⟩ := primaryBody_of_not_start inv h.toSound hstart
    have ht := (h.decided hd).look 1
    have hcur : (t.reach 1).current = s.current := (t.current_reach 1).trans hd.current
    rw [he]
    refine .raised ht.toAt (ht.stuck ?_) hcur.symm
    rw [hcur]
    exact ((sentences_opens (r := .primary) (by decide)).mul).not_viable hstart

theorem assignmentBody_heads (hn : 4 * n ≤ levels + 1)
    (h : Tracks c₀ P levels n (sentences .assignment * K) s) :
    Heads c₀ P levels n K (assignmentBody inv s) := by
  rw [assignment_eq, mul_assoc, mul_assoc] at h
  refine matchToken_bind (mem_tokens (by decide)) h (.of_ends fun _ => assigned_ends hinv)
    fun t _ ht => ?_
  refine matchToken_bind (mem_tokens (by decide)) ht (invoke_runs hinv (by decide) _)
    fun u _ hu => ?_
  refine Heads.weaken ?_ (Nat.sub_le (n - 1) 1 |>.trans (Nat.sub_le n 1))
  exact hknow .expression (by decide) (by decide) hK (by omega) (by simp only [reserve]; omega) hu

theorem body_heads {r : Rule} (hr : r ≠ .program) (hr' : r ≠ .statement)
    (hn : 4 * n + reserve r ≤ levels + 1)
    (h : Tracks c₀ P levels n (sentences r * after r K) s) :
    Heads c₀ P levels n (after r K) (body inv r s) := by
  cases r with
  | program => exact absurd rfl hr
  | statement => exact absurd rfl hr'
  | assignment => exact assignmentBody_heads hinv hknow hK hn h
  | expression => exact expressionBody_heads hinv hknow hK (Nat.le_of_succ_le_succ hn) h
  | term => exact termBody_heads hinv hknow hK (Nat.le_of_succ_le_succ hn) h
  | factor => exact factorBody_heads hinv hknow hK (Nat.le_of_succ_le_succ hn) h
  | primary => exact primaryBody_heads hinv hknow hK (Nat.le_of_succ_le_succ hn) h
  | call => exact callBody_heads hinv hknow hn h

end Bodies

/-- A rule leads where its body does, and reports what its body has stopped at. -/
theorem invoker_heads {r : Rule} (hr : r ≠ .program) {follow : TokenSet}
    (h : Tracks c₀ P (levels + 1) n L s)
    (hb : Tracks c₀ P levels n L (s.openRule follow) →
      Heads c₀ P levels n K (body (invoker levels) r (s.openRule follow))) :
    Heads c₀ P (levels + 1) n K (invoker (levels + 1) r follow s) := by
  have hopen : Tracks c₀ P levels n L (s.openRule follow) :=
    ⟨h.toSound.openRule follow, h.errors, h.recovering, h.length_le, h.viable, h.viable_iff,
      h.mem_iff⟩
  have hbody := hb hopen
  obtain ⟨u, hu, hrun⟩ := invokeWithin_returns (levels + 1) r hr follow s h.toAt
  have hd : s.depth < s.maxDepth := by
    have hl := h.levels
    omega
  have hat := h.toAt.run hrun
  have hdone : invoker (levels + 1) r follow s = (.ok (), u) := hu
  rw [hdone]
  simp only [attach, invokeWithin, rule_of_lt hd] at hu
  unfold invoker at hbody
  generalize body _ r (s.openRule follow) = out at hbody hu
  cases hbody with
  | @ok t ht =>
    simp only [finishRule] at hu
    obtain rfl := congrArg Prod.snd hu
    exact .ok ⟨h.toSound.run hrun, ht.errors, ht.recovering, ht.length_le, ht.viable,
      ht.viable_iff, ht.mem_iff⟩
  | @raised e t hat' hs he =>
    -- The body has not moved since it stopped, so the report is made at the culprit.
    simp only [finishRule, State.reportError_recover he] at hu
    obtain rfl := congrArg Prod.snd hu
    exact .told hat ((hs.giveUp hat'.ok.buffer _).close s _)
  | @told a t hat' ht =>
    cases a with
    | ok v =>
      simp only [finishRule] at hu
      obtain rfl := congrArg Prod.snd hu
      exact .told hat (ht.close s _)
    | error i =>
      cases i with
      | recognition e =>
        simp only [finishRule] at hu
        obtain rfl := congrArg Prod.snd hu
        exact .told hat ((ht.recover hat'.ok e).close s _)
      | failure f =>
        simp only [finishRule] at hu
        cases congrArg Prod.fst hu

/-- With enough levels the rules below statements know what comes after them. -/
theorem invoker_knows (levels : Nat) :
    Knows c₀ P levels (invoker levels : Rule → TokenSet → Parser σ Unit) := by
  induction levels with
  | zero =>
    intro r _ _ follow n K s _ hpos
    omega
  | succ levels ih =>
    intro r hr hr' follow n K s hK _ hn h
    exact invoker_heads hr h fun ht => body_heads (invokeWithin_returns levels) ih hK hr hr' hn ht

/-- What comes after a statement: more of them, and the end of the input. -/
def statements : Language TokenType := (sentences .statement)∗ * oneOf [eof]

theorem statements_eq : statements = oneOf [eof] + sentences .statement * statements := by
  conv_lhs => rw [statements, ← Language.one_add_self_mul_kstar_eq_kstar]
  rw [add_mul, one_mul, mul_assoc]
  rfl

/-- What comes after an expression in a statement. -/
theorem rest_mul_eq : rest * oneOf [eof] = statements + oneOf [semi] * statements := by
  rw [rest_eq, add_mul, mul_assoc]
  rfl

theorem statement_mul_eq : sentences .statement * statements =
    sentences .assignment * (rest * oneOf [eof]) +
      sentences .expression * (rest * oneOf [eof]) := by
  rw [statements, ← mul_assoc, statement_mul, add_mul, mul_assoc, mul_assoc]

theorem end_glue : Glue (rest * oneOf [eof]) := by
  refine rest_glue.mul fun t ts hts => ?_
  obtain ⟨u, hu, he⟩ := hts
  obtain ⟨rfl, -⟩ := List.cons.inj he
  rw [List.mem_singleton.mp hu]
  decide

/-- A statement or the end of the input comes next. -/
theorem statements_first {x : TokenType} {ts : List TokenType} (h : x :: ts ∈ statements) :
    x = eof ∨ expressionStart.contains x = true := by
  rw [statements_eq] at h
  rcases h with ⟨y, hy, he⟩ | hs
  · rw [(List.cons.inj he).1]
    exact Or.inl (List.mem_singleton.mp hy)
  · exact Or.inr ((sentences_opens (r := .statement) (by decide)).mul.first x ts hs)

theorem terminator_heads (h : Tracks c₀ P levels n (rest * oneOf [eof]) s) :
    Heads c₀ P levels n statements (terminator s) := by
  have hall := h.look 1
  have hv : Viable statements [] := (kstar_viable _).mul h.viable.right
  rw [rest_mul_eq] at hall
  rw [terminator, next_bind]
  split
  · next hc =>
    have hcur : (s.reach 1).current.type = semi := (congrArg _ (s.current_reach 1)).trans hc
    have hsemi := hall.present (List.mem_singleton.mpr hcur) hv fun ts hts => by
      rw [hcur] at hts
      exact absurd (statements_first hts) (by rw [expressionStart_contains]; decide)
    exact (matchToken_heads (mem_tokens (by decide)) hsemi).weaken (Nat.sub_le n 1)
  · next hc =>
    refine .pure (hall.absent (fun hcur => hc ?_) hv)
    rw [State.current_reach] at hcur
    exact List.mem_singleton.mp hcur

theorem statementBody_heads {inv : Rule → TokenSet → Parser σ Unit} (hknow : Knows c₀ P levels inv)
    (hn : 4 * n + 4 ≤ levels) (hstart : expressionStart.contains s.current.type = true)
    (h : Tracks c₀ P levels n (sentences .statement * statements) s) :
    Heads c₀ P levels n statements (statementBody inv s) := by
  have hv : Viable (rest * oneOf [eof]) [] :=
    Viable.mul ⟨[], [], Or.inl rfl, [], Language.nil_mem_kstar _, rfl⟩ h.viable.right.right
  rw [statement_mul_eq] at h
  obtain ⟨u, hd, he⟩ := statementBody_eq inv h.toSound hstart
  rw [he]
  refine Heads.bind (L := rest * oneOf [eof]) ?_ (.of_ends fun _ => terminator_ends)
    fun v hv => terminator_heads hv
  split
  · next hx =>
    exact hknow .assignment (by decide) (by decide) end_glue (by omega)
      (by simp only [reserve]; omega) ((h.assignment end_glue hv hx.1 hx.2).decided hd)
  · next hx =>
    exact hknow .expression (by decide) (by decide) end_glue (by omega)
      (by simp only [reserve]; omega) ((h.expression hv hx).decided hd)

theorem statement_heads (hn : 4 * n + 5 ≤ levels) (follow : TokenSet)
    (hstart : expressionStart.contains s.current.type = true)
    (h : Tracks c₀ P levels n (sentences .statement * statements) s) :
    Heads c₀ P levels n statements (invoker levels .statement follow s) := by
  cases levels with
  | zero => omega
  | succ levels =>
    exact invoker_heads (by decide) h fun ht =>
      statementBody_heads (invoker_knows levels) (by omega) hstart ht

/-- A token before which no statement can begin is the culprit. -/
theorem programRound_heads (hn : 4 * n + 5 ≤ levels) (h : Tracks c₀ P levels n statements s)
    (hne : s.current.type ≠ eof) :
    Heads c₀ P levels n statements (programRound (invoker levels) s) := by
  rw [programRound, next_bind]
  split
  · next hc =>
    refine statement_heads hn _ (by rwa [State.current_reach]) ((h.look 1).narrow ?_ ?_ ?_)
    · exact (sentences_viable (by decide)).mul h.viable
    · intro x hx
      rw [statements_eq]
      exact Or.inr hx
    · intro ts hts
      rw [statements_eq] at hts
      refine hts.resolve_left fun hend => hne ?_
      obtain ⟨y, hy, he⟩ := hend
      rw [← State.current_reach s 1, (List.cons.inj he).1]
      exact List.mem_singleton.mp hy
  · next hc =>
    obtain ⟨message, hm⟩ := skipExtraneous_eq expressionStart (s.reach 1)
    have ht := (h.look 1).look 1
    have hcur : ((s.reach 1).reach 1).current = s.current := by simp
    have hrun : Run grammar s [] (((s.reach 1).reach 1).drop message) :=
      .drop message (.look 1 (.look 1 (.refl s))) (by rwa [hcur])
    rw [hm]
    refine .told (h.toAt.run hrun) ((ht.stuck ?_).told ht.ok.buffer message ?_ ?_)
    · rintro ⟨z, hz⟩
      rw [hcur] at hz
      exact (statements_first hz).elim hne hc
    · rw [(hrun.kept h.ok).whole]
      simp only [State.reach, Buffer.whole_reach]
    · rw [State.drop_eq]

/-- A round leads to the next one, or to a report of the culprit. -/
theorem round_tracks (hn : 4 * n + 5 ≤ levels) (h : Tracks c₀ P levels n statements s)
    (hne : s.current.type ≠ eof) :
    Told P (round levels s) ∨ Tracks c₀ P levels n statements (round levels s) := by
  have hheads := programRound_heads hn (h.look 1) (by rwa [State.current_reach])
  rw [(round_spec h.toSound hne).1] at hheads
  cases hheads with
  | ok ht => exact Or.inr ht
  | told _ ht => exact Or.inl ht

theorem rounds_track (hn : 4 * n + 5 ≤ levels) (h : Tracks c₀ P levels n statements s) (k : Nat)
    (hne : ∀ j < k, ((round levels)^[j] s).current.type ≠ eof) :
    Told P ((round levels)^[k] s) ∨ Tracks c₀ P levels n statements ((round levels)^[k] s) := by
  induction k with
  | zero => exact Or.inr h
  | succ k ih =>
    rw [Function.iterate_succ_apply']
    have hk := hne k (by omega)
    rcases ih fun j hj => hne j (by omega) with htold | htracks
    · have hs := rounds_sound h.toSound k fun j hj => hne j (by omega)
      obtain ⟨-, ⟨w, -, hr⟩, -⟩ := round_spec hs hk
      exact Or.inl (htold.run hs.ok hr)
    · exact round_tracks hn htracks hk

/-- A program over a text that was not read before reports the culprit first,
unless the text is a sentence. -/
theorem program_told {s t : ParserState} {tree : RawTree} (hidle : Idle s)
    (htrust : Trusts simulate c₀ s) (hindex : s.index = 0) (herrors : s.errors = [])
    (hrecovering : s.recovering = false)
    (hdepth : 4 * s.buffer.input.length + 5 ≤ s.maxDepth - s.depth - 1)
    (hp : parseRule .program s = (.ok tree, t)) : Told statements t ∨ text t ∈ statements := by
  obtain ⟨k, hk, hne, heof⟩ := programState_end hidle htrust
  have hstart : Tracks c₀ statements (s.maxDepth - s.depth - 1) s.buffer.input.length statements
      (s.openRule .empty) := by
    have hread : read (s.openRule .empty) = [] := by
      show (text s).take s.index = []
      rw [hindex, List.take_zero]
    have hahead : ahead (s.openRule .empty) = text s := by
      show (text s).drop s.index = text s
      rw [hindex, List.drop_zero]
    refine ⟨hidle.sound htrust, herrors, hrecovering, ?_, ?_, ?_, ?_⟩
    · rw [types, List.length_map, State.rest, Buffer.rest, List.length_drop]
      exact Nat.sub_le _ _
    · exact (kstar_viable _).mul (viable_oneOf (List.mem_singleton_self _))
    · intro v _
      rw [hread, List.nil_append]
    · rw [hahead]
      exact Iff.rfl
  rw [parseRule_program_eq hidle htrust hk hne heof] at hp
  obtain rfl := congrArg Prod.snd hp
  have htokens : (((programState s k).reach 1).closeRule s).tokens = (programState s k).tokens := by
    refine State.tokens_of_whole ?_
    exact Buffer.whole_reach _ 1
  have hend : Told statements (programState s k) ∨
      Tracks c₀ statements _ s.buffer.input.length statements (programState s k) :=
    rounds_track hdepth hstart k hne
  rcases hend with htold | htracks
  · exact Or.inl (htold.later htokens (List.prefix_refl _))
  · have htypes : types (programState s k) = [] := by
      rw [types, (State.rest_eq_nil_iff htracks.ok.buffer).mpr heof, List.map_nil]
    right
    rw [text, htokens, ← text]
    refine htracks.mem_iff.mpr ?_
    rw [ahead_eq htracks.ok, htypes]
    exact ⟨[], Language.nil_mem_kstar _, [eof], ⟨eof, List.mem_singleton_self _, rfl⟩, rfl⟩

/-- The tokens before token `i` can be the beginning of a program, and with it they
cannot. The token that ends the input is meant if there is no other. -/
def Offends (ts : List TokenType) (i : Nat) : Prop :=
  i ≤ ts.length ∧ Viable (sentences .program) (ts.take i) ∧
    (i < ts.length → ¬ Viable (sentences .program) (ts.take (i + 1)))

/-- Before the end of the input, what can become a program and the end can become a
program. -/
theorem viable_statements {v : List TokenType} (hv : eof ∉ v) :
    Viable statements v ↔ Viable (sentences .program) v := by
  rw [statements, ← program_eq]
  constructor
  · rintro ⟨z, a, ha, b, ⟨x, hx, rfl⟩, hz⟩
    obtain rfl := List.mem_singleton.mp hx
    rcases List.eq_nil_or_concat' z with rfl | ⟨more, y, rfl⟩
    · rw [List.append_nil] at hz
      exact absurd (hz ▸ List.mem_append_right a (List.mem_singleton_self _)) hv
    · rw [← List.append_assoc] at hz
      obtain ⟨rfl, -⟩ := List.append_inj' hz rfl
      exact ⟨more, ha⟩
  · rintro ⟨more, hmem⟩
    exact ⟨more ++ [eof], v ++ more, hmem, [eof], ⟨eof, List.mem_singleton_self _, rfl⟩,
      List.append_assoc ..⟩

/-- Behind a token that offends nothing can be the beginning of a program. -/
theorem Offends.le {ts : List TokenType} {i j : Nat} (hi : Offends ts i) (hj : Offends ts j) :
    j ≤ i := by
  refine Nat.le_of_not_lt fun hlt => hi.2.2 (by have := hj.1; omega) ?_
  have hsplit := List.take_append_drop (i + 1) (ts.take j)
  rw [List.take_take, Nat.min_eq_left hlt] at hsplit
  exact (hsplit ▸ hj.2.1).of_append

/-- The culprit of a text and its end is the token of the text that offends. -/
theorem Culprit.offends {ts : List TokenType} {i : Nat} (h : Culprit statements (ts ++ [eof]) i)
    (hne : eof ∉ ts) (hi : i ≤ ts.length) : Offends ts i := by
  obtain ⟨hbefore, hwith⟩ := h
  have hmem (k : Nat) : eof ∉ ts.take k := fun hk => hne (List.mem_of_mem_take hk)
  rw [List.take_append_of_le_length hi, viable_statements (hmem i)] at hbefore
  refine ⟨hi, hbefore, fun hlt => ?_⟩
  rwa [List.take_append_of_le_length hlt, viable_statements (hmem _)] at hwith

/-- The first error is reported at the earliest token with which the text can no
more become a program, however it might be split into statements, on every cache
that nobody records into, if rules may nest deep enough for its length. -/
theorem parse_first_error (settings : Settings) (source : String) {c : PredictionCache}
    (hc : Coherent c) (hstart : settings.startRule Rule.program.name = Rule.program.name)
    (h : ¬ Sentence .program
      ((Buffer.ofSource (Lexer.ofString source never)).input.map Token.type))
    (hdepth : 4 * (Buffer.ofSource (Lexer.ofString source never)).input.length + 8 ≤
      settings.maxRuleDepth) :
    ∃ i out e es t,
      (∀ j, Offends ((Buffer.ofSource (Lexer.ofString source never)).input.map Token.type) j ↔
        j = i) ∧
      (parse settings source (.available c)).1 = .ok out ∧ out.parserErrors = e :: es ∧
      (Buffer.ofSource (Lexer.ofString source never)).fill.tokens.toList[i]? = some t ∧
      e.line = t.line ∧ e.column = t.column := by
  let s := fresh settings.cacheThreshold settings.maxRuleDepth source never c
  have hidle : Idle s := fresh_idle ..
  have htrust : Trusts simulate c s := fresh_trusts hc.faithful ..
  obtain ⟨end', htokens, htype, hne⟩ := hidle.ok.buffer.tokens_fill
  have htext : text s = s.buffer.input.map Token.type ++ [eof] := by
    rw [text, State.tokens, htokens, List.map_append, List.map_singleton, htype]
  have hne : eof ∉ s.buffer.input.map Token.type := by
    intro hmem
    obtain ⟨x, hx, he⟩ := List.mem_map.mp hmem
    exact hne x hx he
  have hname : Rule.ofName? (settings.startRule Rule.program.name) = some .program := by
    rw [hstart]
    decide
  obtain ⟨tree, t, out, hp, -, herrors, hparse⟩ := parse_eq settings source hc.faithful hname
  have hlevels : 4 * s.buffer.input.length + 5 ≤ s.maxDepth - s.depth - 1 := by
    show 4 * s.buffer.input.length + 5 ≤ max settings.maxRuleDepth 1 - 0 - 1
    have hn : s.buffer.input.length =
        (Buffer.ofSource (Lexer.ofString source never)).input.length := rfl
    omega
  have hsame : t.tokens = s.tokens :=
    State.tokens_of_whole (parseRule_kept hidle htrust hp).2.2
  have htext' : text t = s.buffer.input.map Token.type ++ [eof] := by
    rw [text, hsame, ← text, htext]
  rcases program_told hidle htrust rfl rfl rfl hlevels hp with htold | hmem
  · obtain ⟨i, x, e, es, hget, hculprit, he, hpos⟩ := htold
    rw [hsame] at hget
    have hi : i ≤ (s.buffer.input.map Token.type).length := by
      obtain ⟨hlt, -⟩ := List.getElem?_eq_some_iff.mp hget
      have hlen := congrArg List.length htext
      rw [text, List.length_map, List.length_append, List.length_singleton] at hlen
      omega
    have hoffends := Culprit.offends (htext' ▸ hculprit) hne hi
    refine ⟨i, out, e, es, x, fun j => ⟨fun hj => ?_, fun hj => hj ▸ hoffends⟩, hparse,
      herrors.trans he, hget, (Prod.mk.inj hpos).1, (Prod.mk.inj hpos).2⟩
    exact Nat.le_antisymm (hoffends.le hj) (hj.le hoffends)
  · refine absurd ?_ h
    rw [htext'] at hmem
    obtain ⟨a, ha, b, ⟨x, hx, rfl⟩, hab⟩ := hmem
    obtain ⟨rfl, -⟩ := List.append_inj' hab rfl
    rw [← program_eq] at ha
    exact mem_sentences.mp ha

/-- After an operator a parenthesis closes nothing. -/
theorem parse_first_error_operator : ∃ i out e es t,
    (∀ j, Offends [number, plus, rparen] j ↔ j = i) ∧
    (parse { maxRuleDepth := 20 } "1+)" (.available .empty)).1 = .ok out ∧
    out.parserErrors = e :: es ∧
    (Buffer.ofSource (Lexer.ofString "1+)" never)).fill.tokens.toList[i]? = some t ∧
    e.line = t.line ∧ e.column = t.column := by
  have htypes : (Buffer.ofSource (Lexer.ofString "1+)" never)).input.map Token.type =
      [number, plus, rparen] := by
    decide
  have hlength : (Buffer.ofSource (Lexer.ofString "1+)" never)).input.length = 3 := by
    decide
  have hterm : [rparen] ∉ sentences .expression * rest := by
    intro hmem
    have hbegins := (sentences_opens (r := .expression) (by decide)).mul.first _ _ hmem
    exact absurd ((expressionStart_contains _).mp hbegins) (by decide)
  have hsentence : ¬ Sentence .program [number, plus, rparen] := by
    intro h
    rw [← mem_sentences, program_eq] at h
    have hexpression := mem_expression_of_statements (by decide) h
    rw [expression_split, add_comm] at hexpression
    have hplus := primary_literal (by decide) (cons_mem_of_absent hexpression (by decide))
    rw [after_primary_eq] at hplus
    have hplus := cons_mem_of_absent hplus (by decide)
    rw [after_factor_eq] at hplus
    have hplus := cons_mem_of_absent hplus (by decide)
    rw [after_term_eq] at hplus
    have hrest := mem_of_present hplus fun hk => rest_glue.sign_term (by decide) hk
    rw [← expression_mul] at hrest
    exact hterm hrest
  rw [← htypes] at hsentence ⊢
  exact parse_first_error _ "1+)" Uses.none rfl hsentence (by rw [hlength])

end Descent.Calc
