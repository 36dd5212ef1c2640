import Descent.Proofs.Run

/-! The operations rule bodies are made of, as runs. A piece of a body ends in
a run whose word is in a language, or in a recognition error at the current
token; pieces in sequence multiply their languages, and a loop has the powers
of the language of its rounds. -/

namespace Descent.Parser

open Computability

variable {σ : Type} [TokenSource σ] {α β : Type}

omit [TokenSource σ] in
theorem bind_apply (m : Parser σ α) (k : α → Parser σ β) (s : State σ) :
    (m >>= k) s = match m s with
      | (.ok a, t) => k a t
      | (.error e, t) => (.error e, t) := by
  simp only [bind, ExceptT.bind, ExceptT.mk, StateT.bind]
  cases m s with
  | mk a t => cases a <;> rfl

omit [TokenSource σ] in
theorem bind_ok {m : Parser σ α} {k : α → Parser σ β} {s t : State σ} {a : α}
    (h : m s = (.ok a, t)) : (m >>= k) s = k a t := by
  rw [bind_apply, h]

theorem next_apply (s : State σ) : next s = (.ok s.current.type, s.reach 1) := by
  simp only [next, State.la_one]

theorem next_bind (k : TokenType → Parser σ β) (s : State σ) :
    (next >>= k) s = k s.current.type (s.reach 1) := bind_ok (next_apply s)

omit [TokenSource σ] in
theorem get_bind (k : State σ → Parser σ β) (s : State σ) : (get >>= k) s = k s s := rfl

/-- The outcome of a piece that was started in `s`: it has come to its end with a
word of `L`, or to an error at the current token, and has not failed. -/
inductive Ends (G : Grammar) (s : State σ) (L : Language Symbol) :
    Except Interrupt α × State σ → Prop where
  | ok {a : α} {t : State σ} {w : List Symbol} : Run G s w t → w ∈ L → Ends G s L (.ok a, t)
  | error {e : RecognitionError} {t : State σ} {w : List Symbol} :
      Run G s w t → e.token = t.current → Ends G s L (.error (.recognition e), t)

variable {G : Grammar}

namespace Ends

theorem mono {s : State σ} {L M : Language Symbol} {out : Except Interrupt α × State σ}
    (h : Ends G s L out) (hle : ∀ w ∈ L, w ∈ M) : Ends G s M out := by
  cases h with
  | ok hr hw => exact .ok hr (hle _ hw)
  | error hr he => exact .error hr he

/-- What comes after a run. -/
theorem after {s t : State σ} {w : List Symbol} {L M : Language Symbol}
    {out : Except Interrupt α × State σ} (hr : Run G s w t) (h : Ends G t L out)
    (hle : ∀ v ∈ L, w ++ v ∈ M) : Ends G s M out := by
  cases h with
  | ok hu hv => exact .ok (hr.trans hu) (hle _ hv)
  | error hu he => exact .error (hr.trans hu) he

theorem look {s : State σ} {L : Language Symbol} {out : Except Interrupt α × State σ} (k : Nat)
    (h : Ends G (s.reach k) L out) : Ends G s L out :=
  h.after (.look k (.refl s)) (fun _ hv => hv)

theorem bind {m : Parser σ α} {k : α → Parser σ β} {s : State σ} {L M : Language Symbol}
    (h : Ends G s L (m s))
    (hk : ∀ a t w, w ∈ L → Run G s w t → m s = (.ok a, t) → Ends G t M (k a t)) :
    Ends G s (L * M) ((m >>= k) s) := by
  rw [bind_apply]
  generalize hm : m s = out at h
  cases h with
  | ok hr hw => exact (hk _ _ _ hw hr hm).after hr fun v hv => Language.append_mem_mul hw hv
  | error hr he => exact .error hr he

theorem pure {s : State σ} {L : Language Symbol} (h : [] ∈ L) :
    Ends G s L ((Pure.pure () : Parser σ Unit) s) := .ok (.refl s) h

end Ends

theorem ahead_two_of_drop {s : State σ} (h : s.Ok) (hne : s.current.type ≠ eof) (message : String) :
    (s.drop message).current.type = (s.buffer.ahead 2).type := by
  have hk := Kept.drop h message hne
  have hr : (s.drop message).rest = s.rest.tail := by
    rw [State.drop_eq]
    exact Buffer.consume_rest hne
  have h1 := hk.ok.buffer.ahead_type 0
  have h2 := h.buffer.ahead_type 1
  have hr' : (s.drop message).buffer.rest = s.buffer.rest.tail := hr
  show ((s.drop message).buffer.ahead 1).type = _
  rw [h1, h2, hr']
  cases s.buffer.rest <;> simp

/-- Nothing comes behind the end of the input. -/
theorem ne_eof_of_second {s : State σ} (h : s.Ok) (hne : (s.buffer.ahead 2).type ≠ eof) :
    s.current.type ≠ eof := by
  intro heof
  have hr : s.buffer.rest = [] := (State.rest_eq_nil_iff h.buffer).mpr heof
  have ha := h.buffer.ahead_type 1
  rw [hr] at ha
  exact hne ha

/-- What is said of a token that is too much. -/
def State.extraneous (s : State σ) (expecting : TokenSet) : String :=
  s!"extraneous input {s.current.display} expecting {expecting.display s.vocabulary}"

/-- What is said of a token that is missing. -/
def State.missing (s : State σ) (x : TokenType) : String :=
  s!"missing {s.vocabulary.displayName x} at {s.current.display}"

/-- The text of a token that is made up. -/
def State.filler (s : State σ) (x : TokenType) : String :=
  s!"<missing {s.vocabulary.displayName x}>"

theorem matchToken_eq (x : TokenType) (s : State σ) : matchToken x s =
    if s.current.type = x then (.ok (), (s.reach 1).take)
    else if (s.buffer.ahead 2).type = x then
      (.ok (), (((s.reach 1).reach 2).drop (s.extraneous (.ofList [x]))).take)
    else if s.recoverySet.contains s.current.type then
      (.ok (), ((s.reach 1).reach 2).conjure x (s.filler x) (s.missing x))
    else (.error (.recognition (.inputMismatch s.current (.ofList [x]))),
      (s.reach 1).reach 2) := by
  have hpeek : ((s.reach 1).reach 2).peek 1 = s.current := by
    rw [State.peek_reach _ (Nat.le_refl 1) (by decide)]
    simp [State.current, State.reach]
  have hla1 : ((s.reach 1).reach 2).la 1 = s.current.type := by rw [State.la, hpeek]
  have hla2 : ((s.reach 1).reach 2).la 2 = (s.buffer.ahead 2).type := by
    rw [State.la_reach _ (by decide) (Nat.le_refl 2)]
    simp [State.reach]
  have hset : ((s.reach 1).reach 2).recoverySet = s.recoverySet := rfl
  have hmade : ((s.reach 1).reach 2).madeUp x (s.filler x) =
      { s.current with type := x, text := s.filler x, stop := s.current.start } := by
    simp [State.madeUp]
  simp only [matchToken, State.la_one, hla1, hla2, hpeek, hset, State.conjure, hmade]
  rfl

/-- The four ways a token can be asked for: it is there, it comes after one that
is dropped, it is made up, or it is missed. -/
theorem matchToken_cases (x : TokenType) (s : State σ) :
    (s.current.type = x ∧ matchToken x s = (.ok (), (s.reach 1).take)) ∨
    (s.current.type ≠ x ∧
      (((s.buffer.ahead 2).type = x ∧
        ∃ message, matchToken x s = (.ok (), (((s.reach 1).reach 2).drop message).take)) ∨
      (s.recoverySet.contains s.current.type = true ∧
        ∃ text message, matchToken x s = (.ok (), ((s.reach 1).reach 2).conjure x text message)) ∨
      matchToken x s = (.error (.recognition (.inputMismatch s.current (.ofList [x]))),
        (s.reach 1).reach 2))) := by
  rw [matchToken_eq]
  by_cases h1 : s.current.type = x
  · exact Or.inl ⟨h1, if_pos h1⟩
  · refine Or.inr ⟨h1, ?_⟩
    rw [if_neg h1]
    by_cases h2 : (s.buffer.ahead 2).type = x
    · rw [if_pos h2]
      exact Or.inl ⟨h2, _, rfl⟩
    · rw [if_neg h2]
      by_cases h3 : s.recoverySet.contains s.current.type = true
      · rw [if_pos h3]
        exact Or.inr (Or.inl ⟨h3, _, _, rfl⟩)
      · rw [if_neg h3]
        exact Or.inr (Or.inr rfl)

theorem matchToken_of_eq {x : TokenType} {s : State σ} (h : s.current.type = x) :
    matchToken x s = (.ok (), (s.reach 1).take) := by
  rcases matchToken_cases x s with ⟨-, h'⟩ | ⟨hne, -⟩
  · exact h'
  · exact absurd h hne

theorem matchToken_ends {x : TokenType} (hx : x ∈ G.tokens) {s : State σ} (h : s.Ok) :
    Ends G s {[.token x]} (matchToken x s) := by
  have hrun : Run G s [] ((s.reach 1).reach 2) := .look 2 (.look 1 (.refl s))
  have hok : ((s.reach 1).reach 2).Ok := (h.reach 1).reach 2
  have hcur : ((s.reach 1).reach 2).current = s.current := by simp
  rcases matchToken_cases x s with ⟨h1, he⟩ | ⟨h1, ⟨h2, m, he⟩ | ⟨h3, text, m, he⟩ | he⟩
  · have hr := Run.take (G := G) (.look 1 (.refl s)) (by rw [State.current_reach, h1]; exact hx)
    rw [State.current_reach, h1] at hr
    rw [he]
    exact .ok hr rfl
  · have hne : s.current.type ≠ eof :=
      ne_eof_of_second h (h2.symm ▸ fun e => G.eof_notMem (e ▸ hx))
    have htype : (((s.reach 1).reach 2).drop m).current.type = x := by
      rw [ahead_two_of_drop hok (by rw [hcur]; exact hne) m, ← h2]
      simp [State.reach]
    have hr := Run.take (.drop m hrun (by rw [hcur]; exact hne)) (by rw [htype]; exact hx)
    rw [htype] at hr
    rw [he]
    exact .ok hr rfl
  · rw [he]
    exact .ok (.conjure x text m hrun hx (by rw [hcur]; exact h3)) rfl
  · rw [he]
    exact .error hrun hcur.symm

/-- The alternative that a decision by the next `k` tokens comes to. -/
def chosen (s : State σ) (c : PredictionCache) (d k : Nat) (simulate : Lookahead → Option Nat) :
    Option Nat :=
  (s.recognizer.predict c d ((s.reach k).buffer.types k) simulate).1

theorem predict_eq {s : State σ} {c : PredictionCache} (hc : s.cache = .available c) (d k : Nat)
    (simulate : Lookahead → Option Nat) :
    predict d k simulate s = match chosen s c d k simulate with
      | some alternative => (.ok alternative, s.decide c d k simulate)
      | none => (.error (.recognition (.noViableAlternative s.current)),
          (s.decide c d k simulate).reach 1) := by
  have hc' : (s.reach k).cache = .available c := hc
  have hcur : ((s.decide c d k simulate).reach 1).peek 1 = s.current := by
    rw [State.peek_one]
    exact State.current_reach s k
  rw [← hcur]
  simp only [predict, hc']
  rfl

theorem predict_ends {d k : Nat} {simulate : Lookahead → Option Nat}
    (hd : G.decisions d k simulate) {s : State σ} (h : s.Ok) :
    Ends G s 1 (predict d k simulate s) := by
  obtain ⟨c, hc⟩ := h.cache
  have hrun : Run G s [] (s.decide c d k simulate) := .decide (.refl s) hd hc
  rw [predict_eq hc]
  split
  · exact .ok hrun rfl
  · refine .error (.look 1 hrun) ?_
    rw [State.current_reach]
    exact (State.current_reach s k).symm

theorem skipExtraneous_apply (set : TokenSet) (s : State σ) :
    skipExtraneous set s = (.ok (), (s.reach 1).drop (s.extraneous set)) := by
  simp only [skipExtraneous, State.peek_one]
  rfl

theorem skipExtraneous_eq (set : TokenSet) (s : State σ) :
    ∃ message, skipExtraneous set s = (.ok (), (s.reach 1).drop message) :=
  ⟨_, skipExtraneous_apply set s⟩

omit [TokenSource σ] in
theorem openRule_deep_iff (s : State σ) (follow : TokenSet) :
    (s.openRule follow).maxDepth < (s.openRule follow).depth ↔ ¬ s.depth < s.maxDepth := by
  simp only [State.openRule, State.depth, List.length_cons]
  omega

/-- Below the nesting limit a rule makes of its body what it comes to. -/
theorem rule_of_lt {r : Nat} {follow : TokenSet} {body : Parser σ Unit} {s : State σ}
    (h : s.depth < s.maxDepth) : rule r follow body s =
      finishRule r s (body (s.openRule follow)).1 (body (s.openRule follow)).2 := by
  have hlimit : ¬ (s.openRule follow).maxDepth < (s.openRule follow).depth := by
    rw [openRule_deep_iff]
    exact not_not_intro h
  simp only [rule, if_neg hlimit]
  rfl

/-- A rule whose body ends as the grammar says returns a tree. -/
theorem rule_invoked {r : Nat} {follow : TokenSet} {body : Parser σ Unit} {s : State σ}
    (hb : s.depth < s.maxDepth → Ends G (s.openRule follow) (G.words r)
      (body (s.openRule follow))) :
    ∃ tree t, rule r follow body s = (.ok tree, t) ∧ Invoked G r follow s tree t := by
  by_cases hd : s.depth < s.maxDepth
  · rw [rule_of_lt hd]
    have hends := hb hd
    generalize body (s.openRule follow) = out at hends
    cases hends with
    | ok hr hw => exact ⟨_, _, rfl, .finish hd hr hw⟩
    | @error e t _ hr he =>
      simp only [finishRule, State.reportError_recover he]
      exact ⟨_, _, rfl, .abandon _ (Or.inl hd) hr⟩
  · simp only [rule, if_pos ((openRule_deep_iff s follow).mpr hd), refuseRule, State.reportHere,
      State.reach_reach, State.peek_one]
    rw [← State.current_reach _ 1]
    exact ⟨_, _, rfl, .abandon _ (Or.inr rfl) (.look 1 (.refl _))⟩

/-- A parser that can go on and may have so many more rules open. -/
structure At (levels : Nat) (s : State σ) : Prop where
  ok : s.Ok
  levels : s.maxDepth - s.depth = levels

theorem At.run {levels : Nat} {s t : State σ} {w : List Symbol} (h : At levels s)
    (hr : Run G s w t) : At levels t := by
  have hk := hr.kept h.ok
  refine ⟨hk.ok, ?_⟩
  rw [State.depth, hk.follow, hk.maxDepth]
  exact h.levels

theorem At.look {levels : Nat} {s : State σ} (h : At levels s) (k : Nat) :
    At levels (s.reach k) := ⟨h.ok.reach k, h.levels⟩

omit [TokenSource σ] in
theorem At.openRule {levels : Nat} {s : State σ} (h : At (levels + 1) s) (follow : TokenSet) :
    At levels (s.openRule follow) := by
  have hl := h.levels
  refine ⟨h.ok.openRule follow, ?_⟩
  simp only [State.openRule, State.depth, List.length_cons] at hl ⊢
  omega

theorem rest_lt {s t : State σ} (h : Kept s t) (hlt : s.index < t.index) :
    t.rest.length < s.rest.length := by
  have hp := h.ok.buffer.position_le_input
  have hin := h.input
  simp only [State.index] at hlt
  simp only [State.rest, Buffer.rest, List.length_drop, hin] at hp ⊢
  omega

/-- A loop whose every round takes a token comes to its end. -/
theorem whileNext_ends {levels : Nat} {set : TokenSet} {body : Parser σ Unit}
    {L : Language Symbol}
    (hbody : ∀ s, At levels s → set.contains s.current.type = true →
      Ends G s L (body s) ∧ ∀ t, body s = (.ok (), t) → s.index < t.index)
    (n : Nat) (s : State σ) (h : At levels s) (hn : s.rest.length < n) :
    Ends G s L∗ (whileNext set body n s) := by
  induction n generalizing s with
  | zero => omega
  | succ n ih =>
    have hlook := h.look 1
    apply Ends.look 1
    rw [whileNext, next_bind]
    split
    · next hc =>
      obtain ⟨hends, hlt⟩ := hbody (s.reach 1) hlook (by simpa using hc)
      have hround : Ends G (s.reach 1) (L * L∗) ((body >>= fun _ => whileNext set body n)
          (s.reach 1)) := by
        apply hends.bind
        intro a t w _ hr hm
        apply ih t (hlook.run hr)
        have hless := rest_lt (hr.kept hlook.ok) (hlt t hm)
        rw [State.rest_reach] at hless
        omega
      apply hround.mono
      intro w hw
      rw [← Language.one_add_self_mul_kstar_eq_kstar]
      exact Or.inr hw
    · exact Ends.pure (Language.nil_mem_kstar L)

end Descent.Parser
