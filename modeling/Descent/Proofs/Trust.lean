import Descent.Proofs.Bodies
import Descent.Proofs.Prediction

/-! Parsers whose cache can be trusted. Their decisions are those of the
simulation, on the types of the next tokens, and their runs leave the cache as
trustworthy as they found it. -/

namespace Descent.Parser

variable {σ : Type} [TokenSource σ] {G : Grammar} {sim : Nat → Lookahead → Option Nat}
  {c₀ : PredictionCache}

/-- The cache of `s`, which has grown from `c₀`, predicts what `sim` gives. -/
def Trusts (sim : Nat → Lookahead → Option Nat) (c₀ : PredictionCache) (s : State σ) : Prop :=
  ∃ c, s.cache = .available c ∧ c.Faithful sim ∧ s.recognizer.Synced c ∧ c₀.Grows c

omit [TokenSource σ] in
theorem Trusts.of_eq {s t : State σ} (h : Trusts sim c₀ s) (hc : t.cache = s.cache)
    (hr : t.recognizer = s.recognizer) : Trusts sim c₀ t := by
  obtain ⟨c, he, hf, hs, hg⟩ := h
  exact ⟨c, hc.trans he, hf, hr ▸ hs, hg⟩

theorem Trusts.decide {s : State σ} {c : PredictionCache} (h : Trusts sim c₀ s)
    (hc : s.cache = .available c) (d k : Nat) : Trusts sim c₀ (s.decide c d k (sim d)) := by
  obtain ⟨c', he, hf, hs, hg⟩ := h
  obtain rfl : c' = c := SharedCache.available.inj (he.symm.trans hc)
  obtain ⟨-, hf', hs', hg'⟩ :=
    Recognizer.predict_spec hf hs d ((s.reach k).buffer.types k)
  exact ⟨_, rfl, hf', hs', hg.trans hg'⟩

/-- The types of the next `k` tokens. -/
def State.lookahead (s : State σ) (k : Nat) : Lookahead :=
  (List.range k).map fun i => (s.buffer.ahead (i + 1)).type

theorem Trusts.chosen_eq {s : State σ} {c : PredictionCache} (h : Trusts sim c₀ s)
    (hc : s.cache = .available c) (d k : Nat) :
    chosen s c d k (sim d) = sim d (s.lookahead k) := by
  obtain ⟨c', he, hf, hs, -⟩ := h
  obtain rfl : c' = c := SharedCache.available.inj (he.symm.trans hc)
  have hp := (Recognizer.predict_spec hf hs d ((s.reach k).buffer.types k)).1
  rw [chosen, hp]
  exact congrArg (sim d) (Buffer.types_reach s.buffer k)

/-- What concerns the cache and the recognizer only, and is kept by every decision over
the same input, is kept by every run. -/
theorem Run.decided {P : SharedCache → Recognizer → Prop} {s t : State σ} {w : List Symbol}
    (h : Run G s w t) (hs : s.Ok)
    (hdecide : ∀ (u : State σ) (c : PredictionCache) (d k : Nat) (f : Lookahead → Option Nat),
      u.Ok → u.buffer.input = s.buffer.input → G.decisions d k f → u.cache = .available c →
      P u.cache u.recognizer → P (u.decide c d k f).cache (u.decide c d k f).recognizer)
    (hP : P s.cache s.recognizer) : P t.cache t.recognizer := by
  induction h with
  | refl => exact hP
  | look k _ ih => exact ih hs hdecide hP
  | take _ _ ih =>
    rw [State.take_eq]
    exact ih hs hdecide hP
  | drop message _ _ ih =>
    rw [State.drop_eq]
    exact ih hs hdecide hP
  | conjure x text message _ _ _ ih =>
    rw [State.conjure_eq]
    exact ih hs hdecide hP
  | decide hr hd hc ih =>
    have hk := hr.kept hs
    exact hdecide _ _ _ _ _ hk.ok hk.input hd hc (ih hs hdecide hP)
  | @finish _ t _ _ _ _ follow hr _ _ _ _ ih ihb =>
    have hk := hr.kept hs
    have hopen : (t.openRule follow).buffer.input = _ := hk.input
    rw [State.cache_close, State.recognizer_close]
    exact ihb (hk.ok.openRule follow) (by rwa [hopen]) (ih hs hdecide hP)
  | @abandon _ t u _ _ _ follow message hr _ _ hbody ih ihb =>
    have hk := hr.kept hs
    have hopen : (t.openRule follow).buffer.input = _ := hk.input
    have hkb := hbody.kept (hk.ok.openRule follow)
    obtain ⟨n, hn, -⟩ := State.giveUp_skipped hkb.ok.buffer message
    rw [State.cache_close, State.recognizer_close, hn.same.cache, hn.same.recognizer]
    exact ihb (hk.ok.openRule follow) (by rwa [hopen]) (ih hs hdecide hP)

theorem Run.trusts (hsim : ∀ d k f, G.decisions d k f → f = sim d) {s t : State σ}
    {w : List Symbol} (h : Run G s w t) (hs : s.Ok) (htrust : Trusts sim c₀ s) :
    Trusts sim c₀ t := by
  refine h.decided (P := fun cache r =>
    ∃ c, cache = .available c ∧ c.Faithful sim ∧ r.Synced c ∧ c₀.Grows c) hs ?_ htrust
  intro u c d k f _ _ hd hc hu
  obtain rfl := hsim d k f hd
  exact Trusts.decide hu hc d k

end Descent.Parser

namespace Descent.Calc

open Descent.Parser

/-- How the decisions of calc are simulated. -/
def simulate : Nat → Lookahead → Option Nat
  | 0 => simulateStatement
  | 1 => simulatePrimary
  | _ => fun _ => none

theorem decisions_simulate (d k : Nat) (f : Lookahead → Option Nat)
    (h : grammar.decisions d k f) : f = simulate d := by
  rcases h with ⟨-, ⟨rfl, rfl⟩ | ⟨rfl, rfl⟩⟩ <;> rfl

variable {σ : Type} [TokenSource σ] {c₀ : PredictionCache}

/-- A parser that can go on, may have so many more rules open, and has a cache
that can be trusted. -/
structure Sound (c₀ : PredictionCache) (levels : Nat) (s : State σ) : Prop
    extends At levels s where
  trusts : Trusts simulate c₀ s

namespace Sound

variable {levels : Nat} {s t : State σ}

theorem run {w : List Symbol} (h : Sound c₀ levels s) (hr : Run grammar s w t) :
    Sound c₀ levels t :=
  ⟨h.toAt.run hr, hr.trusts decisions_simulate h.ok h.trusts⟩

theorem look (h : Sound c₀ levels s) (k : Nat) : Sound c₀ levels (s.reach k) :=
  ⟨h.toAt.look k, h.trusts.of_eq rfl rfl⟩

omit [TokenSource σ] in
theorem openRule (h : Sound c₀ (levels + 1) s) (follow : TokenSet) :
    Sound c₀ levels (s.openRule follow) :=
  ⟨h.toAt.openRule follow, h.trusts.of_eq rfl rfl⟩

/-- A decision that simulation can make is made as simulation makes it. -/
theorem predict {d a : Nat} (h : Sound c₀ levels s) (ha : simulate d (s.lookahead 2) = some a) :
    ∃ c, s.cache = .available c ∧
      Parser.predict d 2 (simulate d) s = (.ok a, s.decide c d 2 (simulate d)) := by
  obtain ⟨c, hc⟩ := h.ok.cache
  refine ⟨c, hc, ?_⟩
  rw [predict_eq hc, h.trusts.chosen_eq hc, ha]

/-- One that simulation cannot make is an error at the current token. -/
theorem predict_none {d : Nat} (h : Sound c₀ levels s) (ha : simulate d (s.lookahead 2) = none) :
    ∃ c, s.cache = .available c ∧
      Parser.predict d 2 (simulate d) s =
        (.error (.recognition (.noViableAlternative s.current)),
          (s.decide c d 2 (simulate d)).reach 1) := by
  obtain ⟨c, hc⟩ := h.ok.cache
  refine ⟨c, hc, ?_⟩
  rw [predict_eq hc, h.trusts.chosen_eq hc, ha]

end Sound

theorem simulateStatement_of_start {a b : TokenType} (ha : expressionStart.contains a = true) :
    simulateStatement [a, b] = some (if a = ident ∧ b = assign then 1 else 2) := by
  by_cases h : a = ident ∧ b = assign
  · simp [simulateStatement, h.1, h.2]
  · simp [simulateStatement, ha, h]

theorem simulatePrimary_of_start {a b : TokenType} (ha : a ∈ primaryStart) :
    simulatePrimary [a, b] = some (if a = number then 1 else if a = string then 2
      else if a = ident then (if b = lparen then 4 else 3) else 5) := by
  simp only [primaryStart, List.mem_cons, List.not_mem_nil, or_false] at ha
  rcases ha with rfl | rfl | rfl | rfl
  · rfl
  · rfl
  · by_cases hb : b = lparen
    · subst hb
      rfl
    · simp only [simulatePrimary, List.head?_cons, Option.some.injEq, hb]
      rfl
  · rfl

theorem simulatePrimary_of_not_start {a b : TokenType} (ha : a ∉ primaryStart) :
    simulatePrimary [a, b] = none := by
  simp only [primaryStart, List.mem_cons, List.not_mem_nil, or_false, not_or] at ha
  simp only [simulatePrimary, ha, ↓reduceIte]

/-- `t` is `s` after looks and decisions only. -/
structure Decided (s t : State σ) : Prop where
  run : Run grammar s [] t
  current : t.current = s.current
  rest : t.rest = s.rest
  index : t.index = s.index
  lastError : t.lastError? = s.lastError?
  errors : t.errors = s.errors
  slots : t.slots = s.slots
  recovering : t.recovering = s.recovering

theorem Decided.look (s : State σ) (k : Nat) : Decided s (s.reach k) :=
  ⟨.look k (.refl s), s.current_reach k, s.rest_reach k, s.index_reach k, rfl, rfl, rfl,
    rfl⟩

theorem Decided.decide {s : State σ} {c : PredictionCache} {d k : Nat}
    {f : Lookahead → Option Nat} (hd : grammar.decisions d k f) (hc : s.cache = .available c) :
    Decided s (s.decide c d k f) :=
  ⟨.decide (.refl s) hd hc, s.current_reach k, s.rest_reach k, s.index_reach k, rfl, rfl, rfl,
    rfl⟩

section Decisions

variable {levels : Nat} {s : State σ} (inv : Rule → TokenSet → Parser σ Unit)

/-- A trusted cache makes a name before an equals sign an assignment, and
anything else an expression. -/
theorem statementBody_eq (h : Sound c₀ levels s)
    (hstart : expressionStart.contains s.current.type = true) :
    ∃ t, Decided s t ∧
      statementBody inv s = (do
        inv (if s.current.type = ident ∧ (s.buffer.ahead 2).type = assign then .assignment
          else .expression) (.ofList [semi])
        terminator) t := by
  have hd : grammar.decisions 0 2 (simulate 0) := ⟨rfl, Or.inl ⟨rfl, rfl⟩⟩
  have hs : simulate 0 (s.lookahead 2) =
      some (if s.current.type = ident ∧ (s.buffer.ahead 2).type = assign then 1 else 2) :=
    simulateStatement_of_start hstart
  obtain ⟨c, hc, hp⟩ := h.predict hs
  refine ⟨_, .decide hd hc, ?_⟩
  rw [statementBody, bind_ok (m := predict 0 2 simulateStatement) hp]
  by_cases ha : s.current.type = ident ∧ (s.buffer.ahead 2).type = assign
  · simp only [if_pos ha, ↓reduceIte]
  · simp only [if_neg ha]
    rfl

/-- What a trusted cache makes of the first tokens of a primary expression. -/
theorem primaryBody_eq (h : Sound c₀ levels s) (hstart : s.current.type ∈ primaryStart) :
    ∃ t, Decided s t ∧
      primaryBody inv s = (if s.current.type = number then matchToken number
        else if s.current.type = string then matchToken string
        else if s.current.type = ident then
          (if (s.buffer.ahead 2).type = lparen then inv .call .empty else matchToken ident)
        else parenthesized inv) t := by
  have hd : grammar.decisions 1 2 (simulate 1) := ⟨rfl, Or.inr ⟨rfl, rfl⟩⟩
  have hs : simulate 1 (s.lookahead 2) = some (if s.current.type = number then 1
      else if s.current.type = string then 2
      else if s.current.type = ident then (if (s.buffer.ahead 2).type = lparen then 4 else 3)
      else 5) := simulatePrimary_of_start hstart
  obtain ⟨c, hc, hp⟩ := h.predict hs
  refine ⟨_, .decide hd hc, ?_⟩
  rw [primaryBody, bind_ok (m := predict 1 2 simulatePrimary) hp]
  by_cases h1 : s.current.type = number
  · simp only [if_pos h1, ↓reduceIte]
  · by_cases h2 : s.current.type = string
    · simp only [if_neg h1, if_pos h2]
      rfl
    · by_cases h3 : s.current.type = ident
      · by_cases h4 : (s.buffer.ahead 2).type = lparen
        · simp only [if_neg h1, if_neg h2, if_pos h3, if_pos h4]
          rfl
        · simp only [if_neg h1, if_neg h2, if_pos h3, if_neg h4]
          rfl
      · simp only [if_neg h1, if_neg h2, if_neg h3]
        rfl

/-- Any other token is not the first of a primary expression. -/
theorem primaryBody_of_not_start (h : Sound c₀ levels s) (hstart : s.current.type ∉ primaryStart) :
    ∃ t, Decided s t ∧ primaryBody inv s =
      (.error (.recognition (.noViableAlternative s.current)), t.reach 1) := by
  have hd : grammar.decisions 1 2 (simulate 1) := ⟨rfl, Or.inr ⟨rfl, rfl⟩⟩
  have hs : simulate 1 (s.lookahead 2) = none := simulatePrimary_of_not_start hstart
  obtain ⟨c, hc, hp⟩ := h.predict_none hs
  refine ⟨_, .decide hd hc, ?_⟩
  have hp : predict 1 2 simulatePrimary s = _ := hp
  rw [primaryBody, bind_apply, hp]

end Decisions

end Descent.Calc
