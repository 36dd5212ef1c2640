import Descent.Proofs.Names
import Descent.Proofs.Termination

/-! A cache that nobody records into changes no parse. Two parsers that differ in
the cache they use, and in what they know of it, take the same decisions as long
as both caches can be trusted, and nothing but a decision looks at the cache. So
they go through the same states, each with a cache of its own. -/

namespace Descent.Parser

variable {σ : Type} {α β : Type}

namespace State

/-- The same parser with another cache and another recognizer. -/
def view (s : State σ) (c : SharedCache) (r : Recognizer) : State σ :=
  { s with cache := c, recognizer := r }

section View

variable (s : State σ) (c : SharedCache) (r : Recognizer)

@[simp]
theorem buffer_view : (s.view c r).buffer = s.buffer := rfl

@[simp]
theorem vocabulary_view : (s.view c r).vocabulary = s.vocabulary := rfl

@[simp]
theorem recoverySet_view : (s.view c r).recoverySet = s.recoverySet := rfl

@[simp]
theorem attach_view (tree : RawTree) : (s.view c r).attach tree = (s.attach tree).view c r := rfl

@[simp]
theorem report_view (place : Token) (message : String) :
    (s.view c r).report place message = (s.report place message).view c r := by
  rw [report_eq, report_eq]
  rfl

@[simp]
theorem peek_view (k : Nat) : (s.view c r).peek k = s.peek k := rfl

@[simp]
theorem la_view (k : Nat) : (s.view c r).la k = s.la k := rfl

variable [TokenSource σ]

@[simp]
theorem reach_view (k : Nat) : (s.view c r).reach k = (s.reach k).view c r := rfl

@[simp]
theorem consume_view (error : Bool) :
    (s.view c r).consume error = (s.consume error).view c r := rfl

theorem take_view : (s.view c r).take = s.take.view c r := rfl

@[simp]
theorem reportHere_view (message : String) :
    (s.view c r).reportHere message = (s.reportHere message).view c r := by
  simp only [reportHere, reach_view, peek_view, report_view]

theorem skipTo_view (set : TokenSet) (n : Nat) :
    (s.view c r).skipTo set n = (s.skipTo set n).view c r := by
  induction n generalizing s with
  | zero => rfl
  | succ n ih =>
    have hview : (s.view c r).skipTo set (n + 1) =
        if set.contains ((s.reach 1).la 1) then (s.reach 1).view c r
        else skipTo set n (((s.reach 1).consume true).view c r) := rfl
    rw [hview, ih, skipTo]
    split <;> rfl

theorem forceProgress_view : (s.view c r).forceProgress = s.forceProgress.view c r := by
  rw [forceProgress_eq, forceProgress_eq]
  show (if s.lastError? = some s.index then _ else _) = _
  split
  · show (if s.current.type = eof then _ else _) = _
    split <;> rfl
  · rfl

@[simp]
theorem recover_view : (s.view c r).recover = s.recover.view c r := by
  unfold recover
  rw [forceProgress_view]
  let u : State σ := { s.forceProgress with lastError? := some s.forceProgress.index }
  exact skipTo_view u c r u.recoverySet (u.buffer.remaining + 1)

end View

end State

/-- Neither what `p` answers nor what it does depends on the cache, and it leaves
the cache alone. -/
def Blind (p : State σ → β × State σ) : Prop :=
  ∀ s c r, p (s.view c r) = ((p s).1, (p s).2.view c r)

theorem fail_blind (f : Failure) : Blind (fail f : Parser σ Unit) := fun _ _ _ => rfl

theorem pure_blind (a : α) : Blind (pure a : Parser σ α) := fun _ _ _ => rfl

variable [TokenSource σ]

theorem next_blind : Blind (next : Parser σ TokenType) := fun _ _ _ => rfl

theorem skipExtraneous_blind (set : TokenSet) : Blind (skipExtraneous set : Parser σ Unit) := by
  intro s c r
  simp [skipExtraneous]

theorem matchToken_blind (x : TokenType) : Blind (matchToken x : Parser σ Unit) := by
  intro s c r
  have h1 : ((s.view c r).reach 1).la 1 = (s.reach 1).la 1 := rfl
  have h2 : (((s.view c r).reach 1).reach 2).la 2 = ((s.reach 1).reach 2).la 2 := rfl
  have h3 : (((s.view c r).reach 1).reach 2).recoverySet.contains
      ((((s.view c r).reach 1).reach 2).la 1) =
    ((s.reach 1).reach 2).recoverySet.contains (((s.reach 1).reach 2).la 1) := rfl
  simp only [matchToken]
  by_cases hx : (s.reach 1).la 1 = x
  · rw [if_pos hx, if_pos (h1.trans hx)]
    rfl
  · rw [if_neg hx, if_neg (h1 ▸ hx)]
    by_cases hy : ((s.reach 1).reach 2).la 2 = x
    · rw [if_pos hy, if_pos (h2.trans hy)]
      simp only [State.reach_view, State.peek_view, State.vocabulary_view, State.reportHere_view,
        State.consume_view]
      exact congrArg (Prod.mk (Except.ok ())) (State.take_view _ c r)
    · rw [if_neg hy, if_neg (h2 ▸ hy)]
      by_cases hz : ((s.reach 1).reach 2).recoverySet.contains
          (((s.reach 1).reach 2).la 1) = true
      · rw [if_pos hz, if_pos (h3.trans hz)]
        simp
      · rw [if_neg hz, if_neg (h3 ▸ hz)]
        simp

/-- Two parsers that differ in the cache and the recognizer only. Both caches, one
grown from `c` and the other from `c'`, predict what `sim` gives. -/
structure Alike (sim : Nat → Lookahead → Option Nat) (c c' : PredictionCache) (s t : State σ) :
    Prop where
  view : t = s.view t.cache t.recognizer
  left : Trusts sim c s
  right : Trusts sim c' t

/-- From states that are alike `p` comes to one answer, and to states that are
alike. -/
def Agrees (sim : Nat → Lookahead → Option Nat) (c c' : PredictionCache)
    (p : State σ → β × State σ) : Prop :=
  ∀ s t, Alike sim c c' s t → ∃ a u v, p s = (a, u) ∧ p t = (a, v) ∧ Alike sim c c' u v

variable {sim : Nat → Lookahead → Option Nat} {c c' : PredictionCache}

section Alike

omit [TokenSource σ]

theorem Alike.map {s t : State σ} (h : Alike sim c c' s t) (f : State σ → State σ)
    (hf : ∀ s d r, f (s.view d r) = (f s).view d r) : Alike sim c c' (f s) (f t) := by
  have hown (s : State σ) : f s = (f s).view s.cache s.recognizer := hf s s.cache s.recognizer
  refine ⟨?_, h.left.of_eq ?_ ?_, h.right.of_eq ?_ ?_⟩
  · have ht : f t = (f s).view t.cache t.recognizer := by
      conv_lhs => rw [h.view]
      exact hf s _ _
    rw [ht]
    rfl
  · rw [hown s]
    rfl
  · rw [hown s]
    rfl
  · rw [hown t]
    rfl
  · rw [hown t]
    rfl

theorem Blind.agrees {p : State σ → β × State σ} (hp : Blind p) : Agrees sim c c' p := by
  intro s t h
  have hanswer : (p t).1 = (p s).1 := by rw [h.view, hp]
  have hmap := h.map (fun s => (p s).2) fun s d r => congrArg Prod.snd (hp s d r)
  exact ⟨(p s).1, (p s).2, (p t).2, rfl, Prod.ext hanswer rfl, hmap⟩

theorem Alike.close {s t u v : State σ} (h : Alike sim c c' s t) (hu : Alike sim c c' u v) :
    Alike sim c c' (u.closeRule s) (v.closeRule t) := by
  have hslots : t.slots = s.slots := by
    rw [h.view]
    rfl
  have hclose : v.closeRule t = v.closeRule s := by
    rw [State.closeRule, State.closeRule, hslots]
  rw [hclose]
  exact hu.map (fun u => u.closeRule s) fun _ _ _ => rfl

theorem Alike.node {s t u v : State σ} (h : Alike sim c c' s t) (hu : Alike sim c c' u v)
    (r : Nat) (recovered : Bool) :
    RawTree.node r t.index recovered v.slots = .node r s.index recovered u.slots := by
  rw [h.view, hu.view]
  rfl

namespace Agrees

theorem bind {m : Parser σ α} {k : α → Parser σ β} (hm : Agrees sim c c' m)
    (hk : ∀ a, Agrees sim c c' (k a)) : Agrees sim c c' (m >>= k) := by
  intro s t h
  obtain ⟨a, u, v, hs, ht, huv⟩ := hm s t h
  rw [bind_apply, bind_apply, hs, ht]
  cases a with
  | ok a => exact hk a u v huv
  | error e => exact ⟨_, u, v, rfl, rfl, huv⟩

/-- What is read off the state must not depend on the cache. -/
theorem get {k : State σ → Parser σ β} (hview : ∀ s d r, k (s.view d r) = k s)
    (hk : ∀ s, Agrees sim c c' (k s)) : Agrees sim c c' (get >>= k) := by
  intro s t h
  have hkt : k t = k s := by rw [h.view, hview]
  rw [get_bind, get_bind, hkt]
  exact hk s s t h

theorem attach {run : Invocation σ} (h : Agrees sim c c' run) :
    Agrees sim c c' (Parser.attach run) := by
  intro s t hst
  obtain ⟨a, u, v, hs, ht, huv⟩ := h s t hst
  simp only [Parser.attach, hs, ht]
  cases a with
  | ok tree => exact ⟨_, _, _, rfl, rfl, huv.map (fun u => u.attach tree) fun _ _ _ => rfl⟩
  | error f => exact ⟨_, u, v, rfl, rfl, huv⟩

end Agrees

end Alike

/-- Both caches predict the same. -/
theorem predict_agrees (d k : Nat) : Agrees sim c c' (predict d k (sim d) : Parser σ Nat) := by
  intro s t h
  obtain ⟨e, he, -⟩ := h.left
  obtain ⟨e', he', -⟩ := h.right
  have hbuffer : t.buffer = s.buffer := by rw [h.view, State.buffer_view]
  have hlook : t.lookahead k = s.lookahead k := by
    rw [State.lookahead, hbuffer, State.lookahead]
  have hcurrent : t.current = s.current := by
    rw [State.current, hbuffer, State.current]
  have hdecide : Alike sim c c' (s.decide e d k (sim d)) (t.decide e' d k (sim d)) := by
    refine ⟨?_, h.left.decide he d k, h.right.decide he' d k⟩
    have hreach : t.reach k = (s.reach k).view t.cache t.recognizer := by
      conv_lhs => rw [h.view]
      rfl
    simp only [State.decide, hreach]
    rfl
  rw [predict_eq he, predict_eq he', h.left.chosen_eq he, h.right.chosen_eq he', hlook, hcurrent]
  cases sim d (s.lookahead k) with
  | none =>
    have hreach := hdecide.map (fun s => s.reach 1) fun s d r => s.reach_view d r 1
    exact ⟨_, _, _, rfl, rfl, hreach⟩
  | some a => exact ⟨_, _, _, rfl, rfl, hdecide⟩

theorem finishRule_agrees {s t u v : State σ} (h : Alike sim c c' s t) (hu : Alike sim c c' u v)
    (r : Nat) (outcome : Except Interrupt Unit) : ∃ a u' v',
      finishRule r s outcome u = (a, u') ∧ finishRule r t outcome v = (a, v') ∧
        Alike sim c c' u' v' := by
  match outcome with
  | .ok () =>
    simp only [finishRule, h.node hu]
    exact ⟨_, _, _, rfl, rfl, h.close hu⟩
  | .error (.recognition e) =>
    have hgive := hu.map (fun s => (s.reportError e).recover) fun s d r => by
      simp [State.reportError]
    simp only [finishRule, h.node hgive]
    exact ⟨_, _, _, rfl, rfl, h.close hgive⟩
  | .error (.failure f) => exact ⟨_, _, _, rfl, rfl, h.close hu⟩

/-- What a refused rule does to the state it was opened in. -/
def State.refuse (s : State σ) : State σ :=
  ((s.reach 1).reportHere
    s!"rule nesting exceeds {s.maxDepth} levels at input {s.current.display}").recover

theorem refuseRule_eq (r : Nat) (outer s : State σ) :
    refuseRule r outer s =
      (.ok (.node r outer.index true s.refuse.slots), s.refuse.closeRule outer) := by
  simp only [refuseRule, State.peek_one]
  rfl

theorem refuse_view (s : State σ) (d : SharedCache) (r : Recognizer) :
    (s.view d r).refuse = s.refuse.view d r := by
  simp only [State.refuse, State.reach_view]
  rw [State.reportHere_view, State.recover_view]
  rfl

/-- A rule agrees if its body does. -/
theorem rule_agrees (r : Nat) (follow : TokenSet) {body : Parser σ Unit}
    (hb : Agrees sim c c' body) : Agrees sim c c' (rule r follow body) := by
  intro s t h
  have hopen := h.map (fun s => s.openRule follow) fun _ _ _ => rfl
  have hdepth : t.depth < t.maxDepth ↔ s.depth < s.maxDepth := by
    rw [h.view]
    rfl
  by_cases hd : s.depth < s.maxDepth
  · obtain ⟨a, u, v, hs, ht, huv⟩ := hb _ _ hopen
    rw [rule_of_lt hd, rule_of_lt (hdepth.mpr hd), hs, ht]
    exact finishRule_agrees h huv r a
  · have hgive := hopen.map State.refuse refuse_view
    simp only [rule, if_pos ((openRule_deep_iff s follow).mpr hd),
      if_pos ((openRule_deep_iff t follow).mpr (mt hdepth.mp hd)), refuseRule_eq, h.node hgive]
    exact ⟨_, _, _, rfl, rfl, h.close hgive⟩

theorem whileNext_agrees (set : TokenSet) {body : Parser σ Unit} (hb : Agrees sim c c' body)
    (n : Nat) : Agrees sim c c' (whileNext set body n) := by
  induction n with
  | zero => exact (fail_blind .endless).agrees
  | succ n ih =>
    refine next_blind.agrees.bind fun a => ?_
    split
    · exact hb.bind fun _ => ih
    · exact (pure_blind ()).agrees

end Descent.Parser

namespace Descent.Calc

open Descent.Parser

variable {σ : Type} [TokenSource σ] {c c' : PredictionCache}

section Bodies

variable {inv : Rule → TokenSet → Parser σ Unit}
  (hinv : ∀ r follow, Agrees simulate c c' (inv r follow))

theorem matchNext_agrees : Agrees simulate c c' (matchNext : Parser σ Unit) :=
  next_blind.agrees.bind fun a => (matchToken_blind a).agrees

theorem terminator_agrees : Agrees simulate c c' (terminator : Parser σ Unit) := by
  refine next_blind.agrees.bind fun a => ?_
  split
  · exact (matchToken_blind semi).agrees
  · exact (pure_blind ()).agrees

include hinv

theorem programLoop_agrees (n : Nat) : Agrees simulate c c' (programLoop inv n) := by
  induction n with
  | zero => exact (fail_blind .endless).agrees
  | succ n ih =>
    refine next_blind.agrees.bind fun a => ?_
    split
    · exact (pure_blind ()).agrees
    · refine Agrees.bind (next_blind.agrees.bind fun b => ?_) fun _ => ih
      split
      · exact hinv .statement expressionStart
      · exact (skipExtraneous_blind expressionStart).agrees

theorem statementBody_agrees : Agrees simulate c c' (statementBody inv) :=
  (predict_agrees 0 2).bind fun _ => (hinv _ _).bind fun _ => terminator_agrees

theorem assignmentBody_agrees : Agrees simulate c c' (assignmentBody inv) :=
  (matchToken_blind ident).agrees.bind fun _ =>
    (matchToken_blind assign).agrees.bind fun _ => hinv .expression .empty

theorem operatorBody_agrees (operators : TokenSet) (operand : Rule) (follow : TokenSet) :
    Agrees simulate c c' (operatorBody inv operators operand follow) := by
  refine (hinv operand follow).bind fun _ => Agrees.get (fun _ _ _ => rfl) fun s => ?_
  exact whileNext_agrees operators (matchNext_agrees.bind fun _ => hinv operand follow) _

theorem factorBody_agrees : Agrees simulate c c' (factorBody inv) := by
  refine next_blind.agrees.bind fun a => ?_
  split
  · exact matchNext_agrees.bind fun _ => hinv .factor .empty
  · refine (hinv .primary _).bind fun _ => next_blind.agrees.bind fun b => ?_
    split
    · exact (matchToken_blind caret).agrees.bind fun _ => hinv .factor .empty
    · exact (pure_blind ()).agrees

theorem primaryBody_agrees : Agrees simulate c c' (primaryBody inv) := by
  refine (predict_agrees 1 2).bind fun alternative => ?_
  split
  · exact (matchToken_blind number).agrees
  · split
    · exact (matchToken_blind string).agrees
    · split
      · exact (matchToken_blind ident).agrees
      · split
        · exact hinv .call .empty
        · exact (matchToken_blind lparen).agrees.bind fun _ =>
            (hinv .expression _).bind fun _ => (matchToken_blind rparen).agrees

theorem callBody_agrees : Agrees simulate c c' (callBody inv) := by
  refine (matchToken_blind ident).agrees.bind fun _ => (matchToken_blind lparen).agrees.bind
    fun _ => Agrees.bind (next_blind.agrees.bind fun a => ?_)
      fun _ => (matchToken_blind rparen).agrees
  split
  · exact operatorBody_agrees hinv _ .expression separators
  · exact (pure_blind ()).agrees

theorem body_agrees (r : Rule) : Agrees simulate c c' (body inv r) := by
  cases r with
  | program => exact Agrees.get (fun _ _ _ => rfl) fun s => programLoop_agrees hinv _
  | statement => exact statementBody_agrees hinv
  | assignment => exact assignmentBody_agrees hinv
  | expression => exact operatorBody_agrees hinv additive .term additive
  | term => exact operatorBody_agrees hinv multiplicative .factor multiplicative
  | factor => exact factorBody_agrees hinv
  | primary => exact primaryBody_agrees hinv
  | call => exact callBody_agrees hinv

end Bodies

theorem invokeWithin_agrees (levels : Nat) (r : Rule) (follow : TokenSet) :
    Agrees simulate c c' (invokeWithin levels r follow : Invocation σ) := by
  induction levels generalizing r follow with
  | zero => exact rule_agrees r.index follow (fail_blind .endless).agrees
  | succ levels ih =>
    exact rule_agrees r.index follow (body_agrees (fun r follow => (ih r follow).attach) r)

theorem parseRule_agrees (r : Rule) : Agrees simulate c c' (parseRule r : Invocation σ) := by
  intro s t h
  have hlevels : t.maxDepth - t.depth = s.maxDepth - s.depth := by
    rw [h.view]
    rfl
  rw [parseRule, parseRule, hlevels]
  exact invokeWithin_agrees _ r .empty s t h

/-- Parsers over one text on two caches that can be trusted are alike. -/
theorem fresh_alike (hc : c.Faithful simulate) (hc' : c'.Faithful simulate)
    (threshold threshold' depth : Nat) (source : String) (stalls : Nat → Bool) :
    Alike simulate c c' (fresh threshold depth source stalls c)
      (fresh threshold' depth source stalls c') :=
  ⟨rfl, fresh_trusts hc .., fresh_trusts hc' ..⟩

/-- A parse on a cache that can be trusted, taken apart: the start rule returns a
tree, and the tree has an output. -/
theorem parse_eq (settings : Settings) (source : String) (hc : c.Faithful simulate) {r : Rule}
    (hr : Rule.ofName? (settings.startRule Rule.program.name) = some r) :
    ∃ tree s out,
      parseRule r (fresh settings.cacheThreshold settings.maxRuleDepth source never c) =
        (.ok tree, s) ∧
      finish tree s = .ok out ∧ out.parserErrors = s.errors ∧
      (parse settings source (.available c)).1 = .ok out := by
  have hidle := fresh_idle settings.cacheThreshold settings.maxRuleDepth source never c
  obtain ⟨tree, s, hs⟩ := parseRule_returns hidle (fresh_trusts hc ..) r
  obtain ⟨out, hout, herrors⟩ := finish_returns hidle (Buffer.whole_steady source).failure hs
  refine ⟨tree, s, out, hs, hout, herrors, ?_⟩
  unfold fresh at hs
  simp only [parse, parseFrom, hr, hs, hout]

/-- What a cache holds that nobody has recorded into, and when it is cleared,
changes nothing about a parse: tree and errors are those on any other such cache,
as on a new one, and where there is a rule to start with there is an output. -/
theorem parse_ignores_cache (settings : Settings) (threshold threshold' : Nat) (source : String)
    {c c' : PredictionCache} (hc : Coherent c) (hc' : Coherent c') :
    (parse { settings with cacheThreshold := threshold } source (.available c)).1 =
      (parse { settings with cacheThreshold := threshold' } source (.available c')).1 ∧
    ((Rule.ofName? (settings.startRule Rule.program.name)).isSome →
      ∃ out, (parse { settings with cacheThreshold := threshold } source (.available c)).1 =
        .ok out) := by
  cases hr : Rule.ofName? (settings.startRule Rule.program.name) with
  | none =>
    have hnone (t : Nat) : Rule.ofName? (({ settings with cacheThreshold := t } :
        Settings).startRule Rule.program.name) = none := hr
    refine ⟨?_, fun hsome => absurd hsome (by decide)⟩
    simp only [parse, parseFrom, hnone]
    rfl
  | some r =>
    obtain ⟨tree, s, out, hs, hout, -, hparse⟩ :=
      parse_eq { settings with cacheThreshold := threshold } source hc.faithful hr
    obtain ⟨tree', t, out', ht, hout', -, hparse'⟩ :=
      parse_eq { settings with cacheThreshold := threshold' } source hc'.faithful hr
    obtain ⟨a, u, v, hu, hv, huv⟩ := parseRule_agrees r _ _ (fresh_alike hc.faithful hc'.faithful
      threshold threshold' settings.maxRuleDepth source never)
    obtain ⟨rfl, rfl⟩ : .ok tree = a ∧ s = u := Prod.mk.inj (hs.symm.trans hu)
    obtain ⟨htree, rfl⟩ : .ok tree' = Except.ok tree ∧ t = v := Prod.mk.inj (ht.symm.trans hv)
    obtain rfl := Except.ok.inj htree
    have hsame : finish tree' t = finish tree' s := by
      rw [huv.view]
      rfl
    rw [hsame, hout] at hout'
    rw [hparse, hparse']
    exact ⟨hout', fun _ => ⟨out, rfl⟩⟩

/-- A cache whose only context has a number that stood for another one before it
was cleared, and a new cache. -/
theorem parse_ignores_cache_call :
    (parse { cacheThreshold := 0 } "f(x)" (.available
      ((PredictionCache.empty.intern [ident, assign]).2.clear.intern [ident, lparen]).2)).1 =
      (parse {} "f(x)" (.available .empty)).1 ∧
    ∃ out, (parse {} "f(x)" (.available .empty)).1 = .ok out :=
  have hused : Coherent
      ((PredictionCache.empty.intern [ident, assign]).2.clear.intern [ident, lparen]).2 :=
    .intern _ (.clear (.intern _ .none))
  ⟨(parse_ignores_cache {} 0 defaultThreshold "f(x)" hused Uses.none).1,
    (parse_ignores_cache {} defaultThreshold 0 "f(x)" Uses.none hused).2 (by decide)⟩

end Descent.Calc
