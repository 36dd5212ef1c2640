import Descent.Proofs.Calls
import Descent.Proofs.Trust

/-! A rule that is invoked where it can begin moves the cursor, or gives up for
the first time in that place and remembers it. A rule may take no token at all,
beyond the nesting limit or at a token that the rules around wait for, so the
cursor alone is no measure; but it cannot happen twice in one place, whatever
happens in between. -/

namespace Descent.Parser

variable {σ : Type} [TokenSource σ] {G : Grammar}

/-- The cursor has moved, or a first recovery in its place has been remembered. -/
def Advances (s t : State σ) : Prop :=
  s.index < t.index ∨
    (t.index = s.index ∧ t.lastError? = some s.index ∧ s.lastError? ≠ some s.index)

/-- As long as the cursor stays, the last recovery there is not forgotten. -/
theorem Run.stays {s t : State σ} {w : List Symbol} (h : Run G s w t) (hs : s.Ok)
    (he : s.lastError? = some s.index) (hi : t.index = s.index) :
    t.lastError? = some s.index := by
  induction h with
  | refl => exact he
  | look k _ ih => exact ih hs he (by simpa using hi)
  | take hr hx ih =>
    have hne : _ ≠ eof := fun e => G.eof_notMem (e ▸ hx)
    have hle := (hr.kept hs).index
    rw [State.take_index hne] at hi
    omega
  | drop message hr hne ih =>
    have hle := (hr.kept hs).index
    rw [State.drop_index hne] at hi
    omega
  | conjure x text message _ _ _ ih =>
    rw [State.conjure_eq] at hi ⊢
    exact ih hs he ((State.index_reach _ 1).symm.trans hi)
  | @decide _ _ _ _ _ k _ _ _ _ ih => exact ih hs he ((State.index_reach _ k).symm.trans hi)
  | @finish s t u _ _ _ follow hr _ _ hbody _ ih ihb =>
    have hk := hr.kept hs
    have hkb := hbody.kept (hk.ok.openRule follow)
    rw [State.index_close] at hi
    rw [State.lastError_close]
    have ht : t.index = s.index := Nat.le_antisymm (hi ▸ hkb.index) hk.index
    have hlast : t.lastError? = some t.index := ht.symm ▸ ih hs he ht
    rw [← ht]
    exact ihb (hk.ok.openRule follow) hlast (hi.trans ht.symm)
  | @abandon s t u _ _ _ follow message hr _ _ hbody ih ihb =>
    have hk := hr.kept hs
    have hkb := hbody.kept (hk.ok.openRule follow)
    rw [State.index_close] at hi
    rw [State.lastError_close]
    obtain ⟨n, hn, hzero, -⟩ := State.giveUp_skipped hkb.ok.buffer message
    have hindex : (u.giveUp message).index = u.index + n := hn.index
    have hopen : t.index ≤ u.index := hkb.index
    have hle := hk.index
    have hu : u.index = s.index := by omega
    rw [← hu]
    exact hzero (by omega)

namespace Advances

theorem run {s t u : State σ} {w : List Symbol} (h : Advances s t) (ht : t.Ok)
    (hr : Run G t w u) : Advances s u := by
  have hle := (hr.kept ht).index
  rcases h with hlt | ⟨hi, hlast, hfirst⟩
  · exact Or.inl (Nat.lt_of_lt_of_le hlt hle)
  · by_cases hu : u.index = t.index
    · exact Or.inr ⟨hu.trans hi, hi ▸ hr.stays ht (hi.symm ▸ hlast) hu, hfirst⟩
    · exact Or.inl (by omega)

/-- Giving up keeps what has been reached. -/
theorem giveUp {s t : State σ} (h : Advances s t) (ht : t.buffer.WF) (message : String) :
    Advances s (t.giveUp message) := by
  obtain ⟨n, hn, hzero, -⟩ := State.giveUp_skipped ht message
  have hindex : (t.giveUp message).index = t.index + n := hn.index
  rcases h with hlt | ⟨hi, hlast, hfirst⟩
  · exact Or.inl (by omega)
  · by_cases h0 : n = 0
    · exact Or.inr ⟨by omega, hi ▸ hzero h0, hfirst⟩
    · exact Or.inl (by omega)

/-- Giving up before the end of the input is itself an advance. -/
theorem of_giveUp {s : State σ} (h : s.buffer.WF) (hne : s.current.type ≠ eof)
    (message : String) : Advances s (s.giveUp message) := by
  obtain ⟨n, hn, hzero, hone⟩ := State.giveUp_skipped h message
  have hindex : (s.giveUp message).index = s.index + n := hn.index
  by_cases h0 : n = 0
  · refine Or.inr ⟨by omega, hzero h0, fun he => ?_⟩
    have := hone he hne
    omega
  · exact Or.inl (by omega)

theorem of_take {s : State σ} (hne : s.current.type ≠ eof) : Advances s (s.reach 1).take := by
  have ht := State.take_index (s := s.reach 1) (by simpa using hne)
  rw [State.index_reach] at ht
  exact Or.inl (by omega)

omit [TokenSource σ] in
theorem of_eq {s s' t : State σ} (h : Advances s t) (hi : s'.index = s.index)
    (he : s'.lastError? = s.lastError?) : Advances s' t := by
  unfold Advances
  rw [hi, he]
  exact h

omit [TokenSource σ] in
/-- Two advances in a row move the cursor. -/
theorem twice {s t u : State σ} (h : Advances s t) (h' : Advances t u)
    (hle : t.index ≤ u.index) : s.index < u.index := by
  rcases h with hlt | ⟨hi, hlast, -⟩
  · exact Nat.lt_of_lt_of_le hlt hle
  · rcases h' with hlt | ⟨-, -, hfirst⟩
    · exact Nat.lt_of_le_of_lt (Nat.le_of_eq hi.symm) hlt
    · rw [hi] at hfirst
      exact absurd hlast hfirst

omit [TokenSource σ] in
theorem close {s t : State σ} {follow : TokenSet} (h : Advances (s.openRule follow) t) :
    Advances s (t.closeRule s) := h

/-- What comes after a piece that has advanced. -/
theorem bind {α β : Type} {m : Parser σ α} {k : α → Parser σ β} {s t : State σ} {a : α}
    {L : Language Symbol} (h : Advances s t) (ht : t.Ok) (hm : m s = (.ok a, t))
    (hk : Ends G t L (k a t)) : Advances s ((m >>= k) s).2 := by
  rw [bind_ok hm]
  generalize k a t = out at hk
  cases hk with
  | ok hr _ => exact h.run ht hr
  | error hr _ => exact h.run ht hr

end Advances

/-- A rule whose body advances does so itself. -/
theorem rule_advances {r : Nat} {follow : TokenSet} {body : Parser σ Unit} {s t : State σ}
    {tree : RawTree} {L : Language Symbol} (hs : s.Ok) (hd : s.depth < s.maxDepth)
    (hends : Ends G (s.openRule follow) L (body (s.openRule follow)))
    (hadv : Advances (s.openRule follow) (body (s.openRule follow)).2)
    (h : rule r follow body s = (.ok tree, t)) : Advances s t := by
  rw [rule_of_lt hd] at h
  generalize body (s.openRule follow) = out at h hends hadv
  cases hends with
  | ok _ _ =>
    simp only [finishRule, Prod.mk.injEq] at h
    obtain ⟨-, rfl⟩ := h
    exact hadv.close
  | @error e u _ hr he =>
    simp only [finishRule, State.reportError_recover he, Prod.mk.injEq] at h
    obtain ⟨-, rfl⟩ := h
    exact (hadv.giveUp (hr.kept (hs.openRule follow)).ok.buffer _).close

end Descent.Parser

namespace Descent.Calc

open Descent.Parser

variable {σ : Type} [TokenSource σ] {c₀ : PredictionCache}

theorem Begins.mem_tokens {r : Rule} {t : TokenType} (h : Begins r t) : t ∈ grammar.tokens := by
  have hstart : t ∈ [number, string, ident, lparen, plus, minus] := by
    cases r with
    | program => exact absurd h id
    | assignment =>
      obtain rfl : t = ident := h
      decide
    | call =>
      obtain rfl : t = ident := h
      decide
    | primary =>
      have hall : ∀ t ∈ primaryStart, t ∈ [number, string, ident, lparen, plus, minus] := by
        decide
      exact hall t h
    | statement => exact (expressionStart_contains t).mp h
    | expression => exact (expressionStart_contains t).mp h
    | term => exact (expressionStart_contains t).mp h
    | factor => exact (expressionStart_contains t).mp h
  have hall : ∀ t ∈ [number, string, ident, lparen, plus, minus], (1 : Int) ≤ t ∧ t ≤ 14 := by
    decide
  exact hall t hstart

theorem Begins.ne_eof {r : Rule} {t : TokenType} (h : Begins r t) : t ≠ eof :=
  fun e => grammar.eof_notMem (e ▸ h.mem_tokens)

theorem Begins.ne_program {r : Rule} {t : TokenType} (h : Begins r t) : r ≠ .program := by
  rintro rfl
  exact h

/-- Every rule that is invoked where it begins advances. -/
def Pushes (c₀ : PredictionCache) (levels : Nat) (inv : Rule → TokenSet → Parser σ Unit) : Prop :=
  ∀ r follow s t, Sound c₀ levels s → Begins r s.current.type → inv r follow s = (.ok (), t) →
    Advances s t

section Bodies

variable {levels : Nat} {inv : Rule → TokenSet → Parser σ Unit} (hinv : Returns levels inv)
  (hpush : Pushes c₀ levels inv) {s : State σ}

/-- A body that takes the current token first. -/
theorem take_first {m : Parser σ Unit} {k : Unit → Parser σ Unit} {L : Language Symbol}
    (h : Sound c₀ levels s) (hm : m s = (.ok (), (s.reach 1).take))
    (ht : s.current.type ∈ grammar.tokens)
    (hk : ∀ t, At levels t → Ends grammar t L (k () t)) : Advances s ((m >>= k) s).2 := by
  have hne : s.current.type ≠ eof := fun e => grammar.eof_notMem (e ▸ ht)
  have hat : At levels (s.reach 1).take :=
    h.toAt.run (G := grammar) (.take (.look 1 (.refl s)) (by simpa using ht))
  exact (Advances.of_take hne).bind hat.ok hm (hk _ hat)

theorem matchToken_advances {x : TokenType} (hx : s.current.type = x)
    (ht : s.current.type ∈ grammar.tokens) : Advances s (matchToken x s).2 := by
  rw [matchToken_of_eq hx]
  exact Advances.of_take fun e => grammar.eof_notMem (e ▸ ht)

include hinv hpush

/-- A body that invokes a rule first. -/
theorem invoke_first {r : Rule} {follow : TokenSet} {k : Unit → Parser σ Unit}
    {L : Language Symbol} (h : Sound c₀ levels s) (hb : Begins r s.current.type)
    (hk : ∀ t, At levels t → Ends grammar t L (k () t)) :
    Advances s ((inv r follow >>= k) s).2 := by
  obtain ⟨t, ht, hr⟩ := hinv r hb.ne_program follow s h.toAt
  have hat := h.toAt.run hr
  exact (hpush r follow s t h hb ht).bind hat.ok ht (hk t hat)

theorem statementBody_advances (h : Sound c₀ levels s)
    (hb : expressionStart.contains s.current.type = true) :
    Advances s (statementBody inv s).2 := by
  obtain ⟨t, hd, he⟩ := statementBody_eq inv h hb
  rw [he]
  have ht := h.run hd.run
  refine Advances.of_eq (invoke_first hinv hpush ht ?_ fun u hu => terminator_ends hu) hd.index.symm
    hd.lastError.symm
  rw [hd.current]
  split
  · next ha => exact ha.1
  · exact hb

theorem operatorBody_advances {operators follow : TokenSet} {p : Pattern} {operand : Rule}
    (hp : ∀ t, operators.contains t = true → [.token t] ∈ p.words ∧ t ∈ grammar.tokens)
    (h : Sound c₀ levels s) (hb : Begins operand s.current.type) :
    Advances s (operatorBody inv operators operand follow s).2 :=
  invoke_first hinv hpush h hb fun _ hu => operations_ends hinv hp hb.ne_program hu

theorem factorBody_advances (h : Sound c₀ levels s)
    (hb : expressionStart.contains s.current.type = true) :
    Advances s (factorBody inv s).2 := by
  have hlook := Decided.look s 1
  have hs := h.look 1
  refine Advances.of_eq ?_ hlook.index.symm hlook.lastError.symm
  rw [factorBody, next_bind]
  split
  · next hc =>
    obtain ⟨-, ht⟩ := additive_words hc
    exact take_first hs (matchNext_apply _) (by simpa using ht)
      fun u hu => hinv.ends (r := .factor) (by decide) _ hu
  · next hc =>
    refine invoke_first hinv hpush hs ?_ fun u hu => exponent_ends hinv hu
    have hstart := (expressionStart_contains _).mp hb
    have hsign := mt (additive_contains _).mpr hc
    rw [hlook.current]
    simp only [Begins, primaryStart, List.mem_cons, List.not_mem_nil, or_false, not_or] at *
    tauto

theorem primaryBody_advances (h : Sound c₀ levels s) (hb : s.current.type ∈ primaryStart) :
    Advances s (primaryBody inv s).2 := by
  obtain ⟨t, hd, he⟩ := primaryBody_eq inv h hb
  rw [he]
  have ht := h.run hd.run
  refine Advances.of_eq ?_ hd.index.symm hd.lastError.symm
  rw [← hd.current] at hb ⊢
  have htok : t.current.type ∈ grammar.tokens := Begins.mem_tokens (r := .primary) hb
  split
  · next hx => exact matchToken_advances hx htok
  · split
    · next hx => exact matchToken_advances hx htok
    · split
      · next hx =>
        split
        · obtain ⟨u, hu, -⟩ := hinv .call (by decide) .empty t ht.toAt
          rw [hu]
          exact hpush .call .empty t u ht hx hu
        · exact matchToken_advances hx htok
      · next h1 h2 h3 =>
        have hx : t.current.type = lparen := by
          simp only [primaryStart, List.mem_cons, List.not_mem_nil, or_false] at hb
          tauto
        exact take_first ht (matchToken_of_eq hx) htok fun u hu => enclosed_ends hinv hu

theorem body_advances {r : Rule} (h : Sound c₀ levels s) (hb : Begins r s.current.type) :
    Advances s (body inv r s).2 := by
  cases r with
  | program => exact absurd hb id
  | statement => exact statementBody_advances hinv hpush h hb
  | assignment =>
    exact take_first h (matchToken_of_eq hb) hb.mem_tokens fun u hu => assigned_ends hinv hu
  | expression => exact operatorBody_advances hinv hpush (fun _ => additive_words) h hb
  | term => exact operatorBody_advances hinv hpush (fun _ => multiplicative_words) h hb
  | factor => exact factorBody_advances hinv hpush h hb
  | primary => exact primaryBody_advances hinv hpush h hb
  | call =>
    exact take_first h (matchToken_of_eq hb) hb.mem_tokens fun u hu => argumentList_ends hinv hu

end Bodies

omit [TokenSource σ] in
theorem attach_advances {run : Invocation σ} {s t : State σ}
    (hrun : ∀ tree u, run s = (.ok tree, u) → Advances s u)
    (h : attach run s = (.ok (), t)) : Advances s t := by
  unfold attach at h
  match hm : run s with
  | (.ok tree, u) =>
    simp only [hm] at h
    obtain rfl : u.attach tree = t := congrArg Prod.snd h
    exact hrun tree u hm
  | (.error f, u) =>
    simp only [hm] at h
    cases congrArg Prod.fst h

/-- A rule of calc that is invoked where it begins advances. -/
theorem invokeWithin_advances (levels : Nat) {r : Rule} {follow : TokenSet} {s t : State σ}
    {tree : RawTree} (h : Sound c₀ levels s) (hb : Begins r s.current.type)
    (hi : invokeWithin levels r follow s = (.ok tree, t)) : Advances s t := by
  induction levels generalizing r follow s t tree with
  | zero =>
    obtain ⟨tree', t', he, hinv⟩ := invokeWithin_invoked 0 hb.ne_program follow h.toAt
    obtain ⟨rfl, rfl⟩ : tree' = tree ∧ t' = t := by simpa [he] using hi
    have hfull : ¬ s.depth < s.maxDepth := by
      have := h.levels
      omega
    cases hinv with
    | finish hd _ _ => exact absurd hd hfull
    | @abandon u _ message hd _ =>
      obtain rfl := hd.resolve_left hfull
      have hopen : Advances (s.openRule follow)
          (((s.openRule follow).reach 1).giveUp message) := by
        refine Advances.of_eq (Advances.of_giveUp (h.ok.buffer.reach 1) ?_ message) ?_ rfl
        · rw [State.current_reach]
          exact hb.ne_eof
        · exact (State.index_reach s 1).symm
      exact hopen.close
  | succ levels ih =>
    have hopen := h.openRule follow
    have hreturns : Returns levels
        (fun r follow => attach (invokeWithin levels r follow : Invocation σ)) :=
      invokeWithin_returns levels
    have hpush : Pushes c₀ levels
        (fun r follow => attach (invokeWithin levels r follow : Invocation σ)) :=
      fun r follow s t hs hb ha => attach_advances (fun tree u => ih hs hb) ha
    have hd : s.depth < s.maxDepth := by
      have := h.levels
      omega
    exact rule_advances h.ok hd (body_ends hreturns hb.ne_program hopen.toAt)
      (body_advances hreturns hpush hopen hb) hi

end Descent.Calc
