import Descent.Proofs.Pieces

/-! Rules with any bodies whatever. A body is a program over the operations of a
parser, with rules of its own inside it, and may stop at an error or a failure
anywhere. However it is made, the rule around it gives the follow sets back as it
found them, never goes back in the input, enters no body beyond the nesting limit,
fails only where a decision does, and after it has given up faces a token at which
an open rule could go on. -/

namespace Descent.Parser

/-- A rule body as a program. What it does next may depend on all that it can see
of the parser and on what its operations come to; a recognition error is its own to
deal with, a failure ends it. A loop or a recursion is unfolded for as long as it
goes on in the state that is inspected. -/
inductive Body (σ : Type) where
  | done
  | raise (error : RecognitionError)
  | look (k : Nat) (next : Body σ)
  | inspect (next : State σ → Body σ)
  | matchToken (expected : TokenType) (next : Except RecognitionError Unit → Body σ)
  | skipExtraneous (expecting : TokenSet) (next : Body σ)
  | predict (decision depth : Nat) (simulate : Lookahead → Option Nat)
      (next : Except RecognitionError Nat → Body σ)
  /-- Invokes a rule and attaches its tree. -/
  | invoke (index : Nat) (follow : TokenSet) (body next : Body σ)

/-- A piece that hands a recognition error to what comes after it. -/
def attempt {σ α : Type} (p : Parser σ α) : Parser σ (Except RecognitionError α) := fun s =>
  match p s with
  | (.ok a, t) => (.ok (.ok a), t)
  | (.error (.recognition e), t) => (.ok (.error e), t)
  | (.error (.failure f), t) => (.error (.failure f), t)

namespace Body

/-- The decisions that a body may ask for, itself or in a rule inside it. -/
def Decides {σ : Type} (d k : Nat) (f : Lookahead → Option Nat) : Body σ → Prop
  | done => False
  | raise _ => False
  | look _ next => next.Decides d k f
  | inspect next => ∃ s, (next s).Decides d k f
  | matchToken _ next => ∃ r, (next r).Decides d k f
  | skipExtraneous _ next => next.Decides d k f
  | predict d' k' f' next => (d' = d ∧ k' = k ∧ f' = f) ∨ ∃ r, (next r).Decides d k f
  | invoke _ _ body next => body.Decides d k f ∨ next.Decides d k f

variable {σ : Type} [TokenSource σ]

/-- Runs a body, with `enter` in front of the bodies of all rules inside it. -/
def runWith (enter : Parser σ Unit → Parser σ Unit) : Body σ → Parser σ Unit
  | done => pure ()
  | raise e => fun s => (.error (.recognition e), s)
  | look k next => fun s => next.runWith enter (s.reach k)
  | inspect next => fun s => (next s).runWith enter s
  | matchToken x next => attempt (Parser.matchToken x) >>= fun r => (next r).runWith enter
  | skipExtraneous set next => Parser.skipExtraneous set >>= fun _ => next.runWith enter
  | predict d k f next => attempt (Parser.predict d k f) >>= fun r => (next r).runWith enter
  | invoke index follow body next =>
    attach (rule index follow (enter (body.runWith enter))) >>= fun _ => next.runWith enter

def run (b : Body σ) : Parser σ Unit := b.runWith id

end Body

/-- A body that would do something else where more rules are open than may be. -/
def trap {σ : Type} (alarm body : Parser σ Unit) : Parser σ Unit := fun s =>
  if s.maxDepth < s.depth then alarm s else body s

variable {σ : Type} [TokenSource σ] {α β : Type}

theorem rule_trap (alarm : Parser σ Unit) (index : Nat) (follow : TokenSet) (body : Parser σ Unit) :
    rule index follow (trap alarm body) = rule index follow body := by
  funext s
  unfold rule
  dsimp only
  split
  · rfl
  · next hd => rw [trap, if_neg hd]

/-- No body of a rule is entered beyond the nesting limit. -/
theorem Body.runWith_trap (alarm : Parser σ Unit) (b : Body σ) :
    b.runWith (trap alarm) = b.run := by
  unfold run
  induction b with
  | done => rfl
  | raise e => rfl
  | look k next ih => simp only [runWith, ih]
  | inspect next ih => simp only [runWith, ih]
  | matchToken x next ih => simp only [runWith, ih]
  | skipExtraneous set next ih => simp only [runWith, ih]
  | predict d k f next ih => simp only [runWith, ih]
  | invoke index follow body next ihb ih => simp only [runWith, ihb, ih, rule_trap, id]

/-- What every operation keeps of the bookkeeping. A source that has come to its end
is left alone. -/
structure Balanced (s t : State σ) : Prop where
  buffer : s.buffer.WF → t.buffer.WF
  follow : t.follow = s.follow
  maxDepth : t.maxDepth = s.maxDepth
  index : s.index ≤ t.index
  cache : t.cache = .unavailable → s.cache = .unavailable
  slots : s.slots <+: t.slots
  ended : s.buffer.ended = true →
    t.buffer.ended = true ∧ t.buffer.source = s.buffer.source

namespace Balanced

omit [TokenSource σ] in
theorem refl (s : State σ) : Balanced s s :=
  ⟨id, rfl, rfl, Nat.le_refl _, id, List.prefix_rfl, fun h => ⟨h, rfl⟩⟩

omit [TokenSource σ] in
theorem trans {s t u : State σ} (h : Balanced s t) (h' : Balanced t u) : Balanced s u := by
  refine ⟨fun hs => h'.buffer (h.buffer hs), h'.follow.trans h.follow,
    h'.maxDepth.trans h.maxDepth, Nat.le_trans h.index h'.index, fun hu => h.cache (h'.cache hu),
    h.slots.trans h'.slots, fun hs => ?_⟩
  obtain ⟨ht, hst⟩ := h.ended hs
  obtain ⟨hu, htu⟩ := h'.ended ht
  exact ⟨hu, htu.trans hst⟩

theorem reach (s : State σ) (k : Nat) : Balanced s (s.reach k) := by
  refine ⟨fun h => h.reach k, rfl, rfl, Nat.le_of_eq (s.index_reach k).symm, id, List.prefix_rfl,
    fun h => ?_⟩
  have hsame : (s.reach k).buffer = s.buffer := Buffer.pull_of_ended _ _ h
  exact ⟨hsame ▸ h, by rw [hsame]⟩

omit [TokenSource σ] in
theorem report (s : State σ) (place : Token) (message : String) :
    Balanced s (s.report place message) := by
  rw [State.report_eq]
  exact ⟨id, rfl, rfl, Nat.le_refl _, id, List.prefix_rfl, fun h => ⟨h, rfl⟩⟩

theorem reportHere (s : State σ) (message : String) : Balanced s (s.reportHere message) :=
  (reach s 1).trans (report _ _ _)

omit [TokenSource σ] in
theorem attach (s : State σ) (tree : RawTree) : Balanced s (s.attach tree) :=
  ⟨id, rfl, rfl, Nat.le_refl _, id, List.prefix_append _ _, fun h => ⟨h, rfl⟩⟩

theorem consume (s : State σ) (error : Bool) : Balanced s (s.consume error) := by
  have hreach := reach s 1
  rw [State.consume_eq]
  refine ⟨Buffer.WF.consume, rfl, rfl, ?_, id, List.prefix_append _ _, fun h => ?_⟩
  · simp only [State.index, Buffer.consume_eq]
    split
    · exact hreach.index
    · exact Nat.le_succ _
  · simp only [Buffer.consume_eq]
    split
    · exact hreach.ended h
    · exact hreach.ended h

omit [TokenSource σ] in
theorem settle (s : State σ) : Balanced s { s with recovering := false } :=
  ⟨id, rfl, rfl, Nat.le_refl _, id, List.prefix_rfl, fun h => ⟨h, rfl⟩⟩

theorem take (s : State σ) : Balanced s s.take := (settle s).trans (consume _ _)

theorem drop (s : State σ) (message : String) : Balanced s (s.drop message) :=
  (reportHere s message).trans (consume _ _)

theorem skipTo (set : TokenSet) (n : Nat) (s : State σ) : Balanced s (s.skipTo set n) := by
  induction n generalizing s with
  | zero => exact refl s
  | succ n ih =>
    unfold State.skipTo
    dsimp only
    split
    · exact reach s 1
    · exact ((reach s 1).trans (consume _ _)).trans (ih _)

theorem forceProgress (s : State σ) : Balanced s s.forceProgress := by
  rw [State.forceProgress_eq]
  split
  · split
    · exact reach s 1
    · exact consume s true
  · exact refl s

omit [TokenSource σ] in
theorem mark (s : State σ) (place : Option Nat) : Balanced s { s with lastError? := place } :=
  ⟨id, rfl, rfl, Nat.le_refl _, id, List.prefix_rfl, fun h => ⟨h, rfl⟩⟩

theorem recover (s : State σ) : Balanced s s.recover :=
  ((forceProgress s).trans (mark _ _)).trans (skipTo _ _ _)

omit [TokenSource σ] in
/-- A rule that comes back gives the follow sets of the rule around back. -/
theorem close {s t : State σ} {follow : TokenSet} (h : Balanced (s.openRule follow) t) :
    Balanced s (t.closeRule s) := by
  refine ⟨h.buffer, ?_, h.maxDepth, h.index, h.cache, List.prefix_rfl, h.ended⟩
  show t.follow.tail = s.follow
  rw [h.follow]
  rfl

end Balanced

/-- Only a cache that is out of order makes a decision fail. -/
theorem predict_failure_iff (d k : Nat) (f : Lookahead → Option Nat) (s : State σ) (e : Failure) :
    (predict d k f s).1 = .error (.failure e) ↔
      s.cache = .unavailable ∧ e = .cacheUnavailable := by
  cases hc : s.cache with
  | unavailable =>
    have hc' : (s.reach k).cache = .unavailable := hc
    simp only [predict, hc', Except.error.injEq, Interrupt.failure.injEq, true_and]
    exact eq_comm
  | available c =>
    rw [predict_eq hc]
    cases chosen s c d k f <;> simp

/-- One of the decisions in `D` fails with `e` in the state `s`. -/
def Raises (D : Nat → Nat → (Lookahead → Option Nat) → Prop) (s : State σ) (e : Failure) : Prop :=
  ∃ d k f, D d k f ∧ (predict d k f s).1 = .error (.failure e)

theorem Raises.before {D : Nat → Nat → (Lookahead → Option Nat) → Prop} {s t : State σ}
    {e : Failure} (h : Raises D t e) (hst : t.cache = .unavailable → s.cache = .unavailable) :
    Raises D s e := by
  obtain ⟨d, k, f, hd, hp⟩ := h
  obtain ⟨hc, rfl⟩ := (predict_failure_iff d k f t e).mp hp
  exact ⟨d, k, f, hd, (predict_failure_iff d k f s _).mpr ⟨hst hc, rfl⟩⟩

/-- `p` keeps the bookkeeping, and fails only where a decision in `D` does. -/
structure Careful (D : Nat → Nat → (Lookahead → Option Nat) → Prop) (p : Parser σ α) : Prop where
  balanced : ∀ s, Balanced s (p s).2
  failure : ∀ s e, (p s).1 = .error (.failure e) → Raises D s e

namespace Careful

variable {D D' : Nat → Nat → (Lookahead → Option Nat) → Prop}

theorem mono {p : Parser σ α} (h : Careful D p) (hD : ∀ d k f, D d k f → D' d k f) :
    Careful D' p := by
  refine ⟨h.balanced, fun s e he => ?_⟩
  obtain ⟨d, k, f, hd, hp⟩ := h.failure s e he
  exact ⟨d, k, f, hD d k f hd, hp⟩

theorem bind {p : Parser σ α} {k : α → Parser σ β} (hp : Careful D p)
    (hk : ∀ a, Careful D (k a)) : Careful D (p >>= k) := by
  constructor
  · intro s
    have hbal := hp.balanced s
    rw [bind_apply]
    generalize p s = out at hbal
    match out with
    | (.ok a, t) => exact hbal.trans ((hk a).balanced t)
    | (.error e, t) => exact hbal
  · intro s e he
    have hbal := hp.balanced s
    have hfail := hp.failure s e
    rw [bind_apply] at he
    generalize p s = out at hbal hfail he
    match out with
    | (.ok a, t) => exact ((hk a).failure t e he).before hbal.cache
    | (.error i, t) =>
      cases he
      exact hfail rfl

theorem attempt {p : Parser σ α} (h : Careful D p) : Careful D (attempt p) := by
  constructor
  · intro s
    have hbal := h.balanced s
    unfold Parser.attempt
    generalize p s = out at hbal
    match out with
    | (.ok _, _) => exact hbal
    | (.error (.recognition _), _) => exact hbal
    | (.error (.failure _), _) => exact hbal
  · intro s e he
    have hfail := h.failure s e
    unfold Parser.attempt at he
    generalize p s = out at hfail he
    match out with
    | (.ok _, _) => cases he
    | (.error (.recognition _), _) => cases he
    | (.error (.failure f), _) =>
      cases he
      exact hfail rfl

theorem matchToken (x : TokenType) : Careful D (matchToken x : Parser σ Unit) := by
  constructor
  · intro s
    have hlook := (Balanced.reach s 1).trans (Balanced.reach _ 2)
    rw [matchToken_eq]
    split
    · exact (Balanced.reach s 1).trans (.take _)
    · split
      · exact (hlook.trans (.drop _ _)).trans (.take _)
      · split
        · exact (hlook.trans (.reportHere _ _)).trans (.attach _ _)
        · exact hlook
  · intro s e he
    rcases matchToken_cases x s with ⟨-, h⟩ | ⟨-, ⟨-, m, h⟩ | ⟨-, text, m, h⟩ | h⟩ <;>
      rw [h] at he <;> cases he

theorem skipExtraneous (set : TokenSet) : Careful D (skipExtraneous set : Parser σ Unit) := by
  constructor
  · intro s
    rw [skipExtraneous_apply]
    exact (Balanced.reach s 1).trans (.drop _ _)
  · intro s e he
    rw [skipExtraneous_apply] at he
    cases he

theorem predict {d k : Nat} {f : Lookahead → Option Nat} (hd : D d k f) :
    Careful D (predict d k f : Parser σ Nat) := by
  refine ⟨fun s => ?_, fun s e he => ⟨d, k, f, hd, he⟩⟩
  cases hc : s.cache with
  | unavailable =>
    have hc' : (s.reach k).cache = .unavailable := hc
    simp only [Parser.predict, hc']
    exact .reach s k
  | available c =>
    have hreach := Balanced.reach s k
    have hdecide : Balanced s (s.decide c d k f) :=
      ⟨hreach.buffer, rfl, rfl, hreach.index, fun hu => SharedCache.noConfusion hu,
        List.prefix_rfl, hreach.ended⟩
    rw [predict_eq hc]
    split
    · exact hdecide
    · exact hdecide.trans (.reach _ 1)

end Careful

/-- What a rule can come to: its body has come to its end, or the rule has reported
something and recovered, in the state that its body left or was to start in, or its
body has failed. -/
theorem rule_cases (index : Nat) (follow : TokenSet) (body : Parser σ Unit) (s : State σ) :
    (∃ t, body (s.openRule follow) = (.ok (), t) ∧
      rule index follow body s = (.ok (.node index s.index false t.slots), t.closeRule s)) ∨
    (∃ t, (t = (s.openRule follow).reach 1 ∨ t = (body (s.openRule follow)).2) ∧
      ∃ place message, rule index follow body s =
        (.ok (.node index s.index true (t.report place message).recover.slots),
          (t.report place message).recover.closeRule s)) ∨
    ∃ e t, body (s.openRule follow) = (.error (.failure e), t) ∧
      rule index follow body s = (.error e, t.closeRule s) := by
  by_cases hd : s.depth < s.maxDepth
  · rw [rule_of_lt hd]
    match body (s.openRule follow) with
    | (.ok (), t) => exact Or.inl ⟨t, rfl, rfl⟩
    | (.error (.recognition e), t) => exact Or.inr (Or.inl ⟨t, Or.inr rfl, _, _, rfl⟩)
    | (.error (.failure e), t) => exact Or.inr (Or.inr ⟨e, t, rfl, rfl⟩)
  · simp only [rule, if_pos ((openRule_deep_iff s follow).mpr hd), refuseRule, State.reportHere,
      State.reach_reach]
    exact Or.inr (Or.inl ⟨_, Or.inl rfl, _, _, rfl⟩)

/-- A rule whose body keeps the bookkeeping keeps it. -/
theorem Balanced.rule {body : Parser σ Unit} (hb : ∀ s, Balanced s (body s).2) (index : Nat)
    (follow : TokenSet) (s : State σ) : Balanced s (rule index follow body s).2 := by
  rcases rule_cases index follow body s with
    ⟨t, ht, he⟩ | ⟨t, rfl | rfl, place, message, he⟩ | ⟨e, t, ht, he⟩
  · have hbal := hb (s.openRule follow)
    rw [ht] at hbal
    rw [he]
    exact hbal.close
  · rw [he]
    exact (((Balanced.reach _ 1).trans (.report _ _ _)).trans (.recover _)).close
  · rw [he]
    exact (((hb _).trans (.report _ _ _)).trans (.recover _)).close
  · have hbal := hb (s.openRule follow)
    rw [ht] at hbal
    rw [he]
    exact hbal.close

theorem Balanced.attachRule {body : Parser σ Unit} (hb : ∀ s, Balanced s (body s).2) (index : Nat)
    (follow : TokenSet) (s : State σ) :
    Balanced s (Parser.attach (Parser.rule index follow body) s).2 := by
  have hbal := Balanced.rule hb index follow s
  unfold Parser.attach
  generalize Parser.rule index follow body s = out at hbal
  match out with
  | (.ok tree, t) => exact hbal.trans (.attach _ _)
  | (.error f, t) => exact hbal

section Rule

variable {D : Nat → Nat → (Lookahead → Option Nat) → Prop} {body : Parser σ Unit}
  (hb : Careful D body) (index : Nat) (follow : TokenSet) (s : State σ)

include hb

theorem Careful.rule_failure {e : Failure} (h : (rule index follow body s).1 = .error e) :
    Raises D s e := by
  rcases rule_cases index follow body s with
    ⟨t, ht, he⟩ | ⟨t, -, place, message, he⟩ | ⟨e', t, ht, he⟩
  · rw [he] at h
    cases h
  · rw [he] at h
    cases h
  · rw [he] at h
    obtain rfl := Except.error.inj h
    exact (hb.failure (s.openRule follow) e' (congrArg Prod.fst ht)).before id

/-- A rule returns a node of its own, and when it has given up, the next token is in
the recovery set of its body. -/
theorem Careful.rule_node (h : s.buffer.WF) {tree : RawTree} {t : State σ}
    (ht : rule index follow body s = (.ok tree, t)) :
    ∃ recovered slots, tree = .node index s.index recovered slots ∧
      (recovered = true →
        (s.openRule follow).recoverySet.contains t.current.type = true) := by
  rcases rule_cases index follow body s with
    ⟨u, hu, he⟩ | ⟨u, hu, place, message, he⟩ | ⟨e, u, hu, he⟩
  · cases he.symm.trans ht
    exact ⟨false, _, rfl, fun hr => absurd hr Bool.false_ne_true⟩
  · cases he.symm.trans ht
    refine ⟨true, _, rfl, fun _ => ?_⟩
    have hbal : Balanced (s.openRule follow) (u.report place message) := by
      rcases hu with rfl | rfl
      · exact (Balanced.reach _ 1).trans (.report _ _ _)
      · exact (hb.balanced _).trans (.report _ _ _)
    obtain ⟨n, -, hset, -⟩ := State.recover_skipped (u.report place message) (hbal.buffer h)
    rw [State.recoverySet, hbal.follow] at hset
    exact hset
  · cases he.symm.trans ht

theorem Careful.attach : Careful D (attach (rule index follow body)) := by
  refine ⟨Balanced.attachRule hb.balanced index follow, fun s e he => ?_⟩
  have hfail := hb.rule_failure index follow s (e := e)
  unfold Parser.attach at he
  generalize rule index follow body s = out at hfail he
  match out with
  | (.ok tree, t) => cases he
  | (.error f, t) =>
    cases he
    exact hfail rfl

end Rule

/-- Every body keeps the bookkeeping, by induction over its parts. -/
theorem Body.run_careful (b : Body σ) : Careful (fun d k f => b.Decides d k f) b.run := by
  unfold run
  induction b with
  | done => exact ⟨fun s => .refl s, fun s e he => by cases he⟩
  | raise error => exact ⟨fun s => .refl s, fun s e he => by cases he⟩
  | look k next ih =>
    exact ⟨fun s => (Balanced.reach s k).trans (ih.balanced _),
      fun s e he => (ih.failure _ e he).before id⟩
  | inspect next ih =>
    refine ⟨fun s => (ih s).balanced s, fun s e he => ?_⟩
    obtain ⟨d, k, f, hd, hp⟩ := (ih s).failure s e he
    exact ⟨d, k, f, ⟨s, hd⟩, hp⟩
  | matchToken x next ih =>
    exact (Careful.matchToken x).attempt.bind fun r => (ih r).mono fun _ _ _ hd => ⟨r, hd⟩
  | skipExtraneous set next ih => exact (Careful.skipExtraneous set).bind fun _ => ih
  | predict d k f next ih =>
    refine (Careful.predict ?_).attempt.bind fun r => (ih r).mono fun _ _ _ hd => Or.inr ⟨r, hd⟩
    exact Or.inl ⟨rfl, rfl, rfl⟩
  | invoke index follow body next ihb ih =>
    refine ((ihb.attach index follow).mono fun _ _ _ hd => Or.inl hd).bind fun _ => ?_
    exact ih.mono fun _ _ _ hd => Or.inr hd

/-- Whatever the body of a rule is made of, and in whatever state the rule is
invoked: the follow sets are afterwards what they were before, no body inside it is
entered beyond the nesting limit, since what it would do there makes no difference,
and the cursor does not go back. The rule fails only with what a decision of its
body raises; otherwise it returns a node of its own, and if that is marked as
recovered, the next token ends the input or is in the follow set of an open rule,
this one included. -/
theorem rule_balanced (index : Nat) (follow : TokenSet) (b : Body σ) {s : State σ}
    (h : s.buffer.WF) :
    (rule index follow b.run s).2.follow = s.follow ∧
    (∀ alarm, rule index follow (trap alarm (b.runWith (trap alarm))) s =
      rule index follow b.run s) ∧
    s.index ≤ (rule index follow b.run s).2.index ∧
    (∀ e, (rule index follow b.run s).1 = .error e →
      ∃ d k f, b.Decides d k f ∧ (predict d k f s).1 = .error (.failure e)) ∧
    (∀ tree t, rule index follow b.run s = (.ok tree, t) →
      ∃ recovered slots, tree = .node index s.index recovered slots ∧
        (recovered = true → ((t.reach 1).la 1 = eof ∨
          ∃ set ∈ follow :: s.follow, set.contains ((t.reach 1).la 1) = true))) := by
  have hb := b.run_careful
  have hbal := Balanced.rule hb.balanced index follow s
  refine ⟨hbal.follow, fun alarm => ?_, hbal.index, fun e => hb.rule_failure index follow s,
    fun tree t ht => ?_⟩
  · rw [rule_trap, b.runWith_trap]
  · obtain ⟨recovered, slots, htree, hset⟩ := hb.rule_node index follow s h ht
    refine ⟨recovered, slots, htree, fun hr => ?_⟩
    rw [State.la_one]
    exact (State.recoverySet_contains _ _).mp (hset hr)

/-- A body that asks for a token; where that is missing it invokes a rule with a
decision in it and then gives up. -/
def Body.probe : Body ClosedTokens :=
  .matchToken 1 fun
    | .ok () => .done
    | .error e => .invoke 5 .empty (.predict 0 1 (fun _ => some 1) fun _ => .done) (.raise e)

/-- Two tokens that the body does not ask for, inside a rule that the second of
them may follow, with a cache that is out of order. -/
def State.probed (maxDepth : Nat) : State ClosedTokens where
  buffer := .ofSource ⟨[⟨2, "b", 1, 0, 0, 1, 0⟩, ⟨3, "c", 1, 1, 1, 2, 0⟩], 2, 1, 2⟩
  vocabulary := ⟨[], []⟩
  cache := .unavailable
  recognizer := { generation := 0 }
  follow := [.ofList [3]]
  maxDepth := maxDepth

/-- Where only two rules may be open, the inner one is refused and the outer one gives
up before the second token; where three may be open, the decision of the inner one
fails, and both are left. -/
theorem rule_balanced_probe :
    (State.probed 2).buffer.WF ∧
    (∃ slots t, rule 4 .empty Body.probe.run (.probed 2) = (.ok (.node 4 0 true slots), t) ∧
      t.follow = [.ofList [3]] ∧ ((t.reach 1).la 1 = eof ∨
        ∃ set ∈ [TokenSet.empty, .ofList [3]], set.contains ((t.reach 1).la 1) = true)) ∧
    (rule 4 .empty Body.probe.run (.probed 3)).1 = .error .cacheUnavailable ∧
    (rule 4 .empty Body.probe.run (.probed 3)).2.follow = [.ofList [3]] ∧
    ∃ d k f, Body.probe.Decides d k f ∧
      (predict d k f (.probed 3)).1 = .error (.failure .cacheUnavailable) := by
  have hwf (n : Nat) : (State.probed n).buffer.WF := Buffer.WF.ofSource _
  have hfail : (rule 4 .empty Body.probe.run (.probed 3)).1 = .error .cacheUnavailable := rfl
  obtain ⟨hfollow, -, -, hraise, -⟩ := rule_balanced 4 .empty Body.probe (hwf 3)
  obtain ⟨hfollow', -, -, -, hnode⟩ := rule_balanced 4 .empty Body.probe (hwf 2)
  obtain ⟨recovered, slots, htree, hset⟩ := hnode _ _ rfl
  obtain ⟨rfl⟩ : true = recovered := congrArg (fun | RawTree.node _ _ r _ => r | _ => false) htree
  exact ⟨hwf 2, ⟨_, _, rfl, hfollow', hset rfl⟩, hfail, hfollow, hraise _ hfail⟩

end Descent.Parser
