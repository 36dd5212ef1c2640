import Descent.Calc.Rules
import Descent.Proofs.Balance

/-! Two runs of a parser side by side. The second starts with another source of tokens
or another nesting limit, and does what the first does as long as nothing of the
difference has been met. A pairing says what the difference is and when the first run
has met it for good, so that nothing more is said of the second. It is carried through
the operations on states first, then through the operations that bodies are made of,
and through rules with any bodies; so the rules of calc go together if those that they
invoke do. -/

namespace Descent.Parser

variable {σ : Type} {α β : Type}

/-- What the second of two runs has in place of the source and of the nesting limit of
the first, and how far the two go together. -/
structure Pairing (σ : Type) where
  source : σ → σ
  limit : Nat → Nat
  /-- The sources at which the two have not parted. -/
  Fits : σ → Prop
  /-- `Level n depth limit`: where the first run has `depth` rules open, the second may
  have `n` more. -/
  Level : Nat → Nat → Nat → Prop
  /-- The first run has gone where the second need not follow. -/
  Lost : Nat → State σ → Prop

/-- The state of the second run beside one of the first. -/
def Pairing.view (P : Pairing σ) (s : State σ) : State σ :=
  { s with
    buffer := { s.buffer with source := P.source s.buffer.source }
    maxDepth := P.limit s.maxDepth }

/-- What makes a pairing good for every parser. -/
structure Pairing.Lawful [TokenSource σ] (P : Pairing σ) : Prop where
  bound : ∀ x, TokenSource.bound (P.source x) = TokenSource.bound x
  reach : ∀ n s k, P.Fits s.buffer.source →
    (P.Fits (s.reach k).buffer.source ∧ (P.view s).reach k = P.view (s.reach k)) ∨
      P.Lost n (s.reach k)
  level : ∀ n depth limit, P.Level (n + 1) depth limit → P.Level n (depth + 1) limit ∧
    ((depth < limit ∧ depth < P.limit limit) ∨ P.limit limit = limit)
  mono : ∀ n s t, Balanced s t → P.Lost n s → P.Lost n t
  close : ∀ n s t rule start recovered, P.Lost n t →
    P.Lost (n + 1) ((t.closeRule s).attach (.node rule start recovered t.slots))

/-- What can be said of the outcomes of the two runs. -/
inductive Beside (P : Pairing σ) (n : Nat) :
    Except Interrupt α × State σ → Except Interrupt α × State σ → Prop where
  | same {r : Except Interrupt α} {t : State σ} :
      P.Fits t.buffer.source → Beside P n (r, t) (r, P.view t)
  | lost {r : Except Interrupt α} {t : State σ} {out : Except Interrupt α × State σ} :
      P.Lost n t → Beside P n (r, t) out
  | failed {f : Failure} {t : State σ} {out : Except Interrupt α × State σ} :
      Beside P n (.error (.failure f), t) out

/-- An operation on states that the second run follows. -/
structure Follows (P : Pairing σ) (f : State σ → State σ) : Prop where
  balanced : ∀ s, Balanced s (f s)
  beside : ∀ n s, P.Fits s.buffer.source →
    (P.Fits (f s).buffer.source ∧ f (P.view s) = P.view (f s)) ∨ P.Lost n (f s)

/-- A piece `p` of the first run, and the piece `q` of the second beside it. -/
structure Keeps (P : Pairing σ) (n : Nat) (p q : Parser σ α) : Prop where
  balanced : ∀ s, Balanced s (p s).2
  beside : ∀ s, P.Fits s.buffer.source → P.Level n s.depth s.maxDepth →
    Beside P n (p s) (q (P.view s))

variable {P : Pairing σ} {n : Nat}

namespace Follows

variable {f g : State σ → State σ}

theorem of_eq (hbal : ∀ s, Balanced s (f s)) (hsource : ∀ s, (f s).buffer.source = s.buffer.source)
    (heq : ∀ s, f (P.view s) = P.view (f s)) : Follows P f :=
  ⟨hbal, fun _ s hs => Or.inl ⟨by rw [hsource]; exact hs, heq s⟩⟩

theorem stay : Follows P fun s => s := of_eq Balanced.refl (fun _ => rfl) fun _ => rfl

theorem attach (tree : RawTree) : Follows P fun s => s.attach tree :=
  of_eq (fun s => .attach s tree) (fun _ => rfl) fun _ => rfl

theorem settle : Follows P fun s => { s with recovering := false } :=
  of_eq Balanced.settle (fun _ => rfl) fun _ => rfl

theorem mark (place : Option Nat) : Follows P fun s => { s with lastError? := place } :=
  of_eq (fun s => .mark s place) (fun _ => rfl) fun _ => rfl

theorem report (place : Token) (message : String) : Follows P fun s => s.report place message := by
  refine of_eq (fun s => .report s place message) (fun s => ?_) (fun s => ?_)
  · rw [State.report_eq]
  · simp only [State.report_eq]
    rfl

theorem branch {c : State σ → Prop} [∀ s, Decidable (c s)] (hc : ∀ s, c (P.view s) ↔ c s)
    (hf : Follows P f) (hg : Follows P g) : Follows P fun s => if c s then f s else g s := by
  constructor
  · intro s
    split
    · exact hf.balanced s
    · exact hg.balanced s
  · intro n s hs
    by_cases h : c s
    · simp only [if_pos h, if_pos ((hc s).mpr h)]
      exact hf.beside n s hs
    · simp only [if_neg h, if_neg (mt (hc s).mp h)]
      exact hg.beside n s hs

/-- An operation with an argument that both runs read off their states alike. -/
theorem reading {γ : Type} {F : γ → State σ → State σ} {a : State σ → γ}
    (ha : ∀ s, a (P.view s) = a s) (hF : ∀ x, Follows P (F x)) : Follows P fun s => F (a s) s := by
  refine ⟨fun s => (hF _).balanced s, fun n s hs => ?_⟩
  rw [ha]
  exact (hF _).beside n s hs

end Follows

namespace Keeps

variable {p q p' q' : Parser σ α}

theorem act {f : State σ → State σ} (hf : Follows P f) (a : α) :
    Keeps P n (fun s => (.ok a, f s)) (fun s => (.ok a, f s)) := by
  refine ⟨hf.balanced, fun s hs _ => ?_⟩
  rcases hf.beside n s hs with ⟨hfit, heq⟩ | hlost
  · rw [heq]
    exact .same hfit
  · exact .lost hlost

/-- A piece that leaves the state alone. -/
theorem result {r : State σ → Except Interrupt α} (hr : ∀ s, r (P.view s) = r s) :
    Keeps P n (fun s => (r s, s)) (fun s => (r s, s)) := by
  refine ⟨Balanced.refl, fun s hs _ => ?_⟩
  rw [hr]
  exact .same hs

theorem pure (a : α) : Keeps P n (Pure.pure a) (Pure.pure a) := result fun _ => rfl

theorem fail (f : Failure) : Keeps P n (fail f) (Parser.fail f) := result fun _ => rfl

theorem branch {c : State σ → Prop} [∀ s, Decidable (c s)] (hc : ∀ s, c (P.view s) ↔ c s)
    (hp : Keeps P n p q) (hp' : Keeps P n p' q') :
    Keeps P n (fun s => if c s then p s else p' s) (fun s => if c s then q s else q' s) := by
  constructor
  · intro s
    split
    · exact hp.balanced s
    · exact hp'.balanced s
  · intro s hs hlevel
    by_cases h : c s
    · simp only [if_pos h, if_pos ((hc s).mpr h)]
      exact hp.beside s hs hlevel
    · simp only [if_neg h, if_neg (mt (hc s).mp h)]
      exact hp'.beside s hs hlevel

theorem ite {c : Prop} [Decidable c] (hp : Keeps P n p q) (hp' : Keeps P n p' q') :
    Keeps P n (if c then p else p') (if c then q else q') := by
  split
  · exact hp
  · exact hp'

end Keeps

variable [TokenSource σ]

theorem State.consume_reach (s : State σ) (error : Bool) :
    (s.reach 1).consume error = s.consume error := by
  rw [State.consume_eq, State.consume_eq, State.current_reach]
  simp only [State.reach, Buffer.consume_reach]

theorem view_remaining (h : P.Lawful) (s : State σ) :
    (P.view s).buffer.remaining = s.buffer.remaining :=
  congrArg (s.buffer.tokens.size - s.buffer.position + ·) (h.bound s.buffer.source)

section Operations

variable (h : P.Lawful)

include h

namespace Follows

variable {f g : State σ → State σ}

theorem comp (hg : Follows P g) (hf : Follows P f) : Follows P fun s => g (f s) := by
  refine ⟨fun s => (hf.balanced s).trans (hg.balanced _), fun n s hs => ?_⟩
  rcases hf.beside n s hs with ⟨hfit, heq⟩ | hlost
  · rw [heq]
    exact hg.beside n _ hfit
  · exact Or.inr (h.mono n _ _ (hg.balanced _) hlost)

theorem reach (k : Nat) : Follows P fun s => s.reach k :=
  ⟨fun s => .reach s k, fun n s hs => h.reach n s k hs⟩

/-- An operation that looks ahead first and then leaves the source alone. -/
theorem looking (k : Nat) (hbal : ∀ s, Balanced s (g (s.reach k)))
    (hsource : ∀ s, (g s).buffer.source = s.buffer.source)
    (heq : ∀ s, g (P.view s) = P.view (g s)) : Follows P fun s => g (s.reach k) := by
  refine ⟨hbal, fun n s hs => ?_⟩
  rcases h.reach n s k hs with ⟨hfit, hreach⟩ | hlost
  · rw [hreach, heq, hsource]
    exact Or.inl ⟨hfit, rfl⟩
  · have hrest := hbal (s.reach k)
    rw [State.reach_reach] at hrest
    exact Or.inr (h.mono n _ _ hrest hlost)

theorem reportHere (message : String) : Follows P fun s => s.reportHere message := by
  have hplace := reading (P := P) (F := fun place s => s.report place message)
    (a := fun s => s.peek 1) (fun _ => rfl) fun place => report place message
  exact comp h hplace (reach h 1)

theorem consume (error : Bool) : Follows P fun s => s.consume error := by
  refine looking h 1 (g := fun s =>
    ({ s with buffer := if (s.peek 1).isEof then s.buffer
        else { s.buffer with position := s.buffer.position + 1 } } : State σ).attach
      (.leaf (s.peek 1) error)) (fun s => .consume s error) (fun s => ?_) fun s => ?_
  · simp only [State.attach]
    split <;> rfl
  · have hpeek : (P.view s).peek 1 = s.peek 1 := rfl
    simp only [hpeek]
    split <;> rfl

/-- A token that is too much is reported and dropped. -/
theorem dropWith (expecting : TokenSet) : Follows P fun s =>
    (s.reportHere s!"extraneous input {(s.peek 1).display} expecting {
      expecting.display s.vocabulary}").consume true := by
  have hreport := reading (P := P) (F := fun message s => s.reportHere message) (a := fun s =>
      s!"extraneous input {(s.peek 1).display} expecting {expecting.display s.vocabulary}")
    (fun _ => rfl) (reportHere h)
  exact comp h (consume h true) hreport

theorem skipTo (set : TokenSet) (k : Nat) : Follows P (State.skipTo set k) := by
  induction k with
  | zero => exact stay
  | succ k ih =>
    have hstep := comp h (branch (c := fun s => set.contains (s.la 1) = true) (fun _ => Iff.rfl)
      stay (comp h ih (consume h true))) (reach h 1)
    exact hstep

theorem forceProgress : Follows P State.forceProgress := by
  have hforce := comp h (branch (c := fun s => (s.peek 1).type = eof) (fun _ => Iff.rfl)
    stay (consume h true)) (reach h 1)
  simp only [State.peek_one, State.consume_reach] at hforce
  have hboth := branch (c := fun s => s.lastError? = some s.index) (fun _ => Iff.rfl) hforce stay
  simpa only [← State.forceProgress_eq] using hboth

theorem recover : Follows P State.recover := by
  have hskip := reading (P := P) (F := fun set s => s.skipTo set (s.buffer.remaining + 1))
    (a := State.recoverySet) (fun _ => rfl) fun set =>
      reading (F := fun k s => s.skipTo set (k + 1)) (view_remaining h) fun k =>
        skipTo h set (k + 1)
  have hmark := reading (P := P) (F := fun place s => { s with lastError? := place })
    (a := fun s => some s.index) (fun _ => rfl) mark
  have hboth := comp h hskip (comp h hmark (forceProgress h))
  exact hboth

end Follows

namespace Keeps

variable {p q : Parser σ α}

/-- A piece of a run that is lost stays lost. -/
theorem lost (hp : Keeps P n p q) {s : State σ} (hs : P.Lost n s)
    {out : Except Interrupt α × State σ} : Beside P n (p s) out :=
  Beside.lost (h.mono n _ _ (hp.balanced s) hs)

theorem bind {k l : α → Parser σ β} (hp : Keeps P n p q) (hk : ∀ a, Keeps P n (k a) (l a)) :
    Keeps P n (p >>= k) (q >>= l) := by
  constructor
  · intro s
    have hbal := hp.balanced s
    rw [bind_apply]
    generalize p s = out at hbal
    match out with
    | (.ok a, t) => exact hbal.trans ((hk a).balanced t)
    | (.error e, t) => exact hbal
  · intro s hs hlevel
    have hbal := hp.balanced s
    have hbeside := hp.beside s hs hlevel
    rw [bind_apply, bind_apply]
    generalize p s = out at hbal hbeside
    generalize q (P.view s) = out' at hbeside
    cases hbeside with
    | @same r t hfit =>
      cases r with
      | ok a =>
        have hdepth : t.depth = s.depth := congrArg List.length hbal.follow
        exact (hk a).beside t hfit (by rw [hdepth, hbal.maxDepth]; exact hlevel)
      | error e => exact .same hfit
    | @lost r t _ hlost =>
      cases r with
      | ok a => exact (hk a).lost h hlost
      | error e => exact .lost hlost
    | failed => exact .failed

theorem after {f : State σ → State σ} (hf : Follows P f) (hp : Keeps P n p q) :
    Keeps P n (fun s => p (f s)) (fun s => q (f s)) :=
  bind h (act hf ()) fun _ => hp

theorem next : Keeps P n (next : Parser σ TokenType) next := by
  have hlook := after h (Follows.reach h 1) (result (P := P) (n := n)
    (r := fun s => .ok (s.la 1)) fun _ => rfl)
  exact hlook

theorem skipExtraneous (expecting : TokenSet) :
    Keeps P n (skipExtraneous expecting : Parser σ Unit) (Parser.skipExtraneous expecting) := by
  have hskip := after h (Follows.reach h 1) (act (n := n) (Follows.dropWith h expecting) ())
  exact hskip

theorem matchToken (x : TokenType) :
    Keeps P n (matchToken x : Parser σ Unit) (Parser.matchToken x) := by
  have htake := Follows.comp h (Follows.consume h false) Follows.settle
  have hmiss := Follows.reading (P := P) (F := fun m s => s.reportHere m)
    (a := fun s => s!"missing {s.vocabulary.displayName x} at {(s.peek 1).display}")
    (fun _ => rfl) (Follows.reportHere h)
  have hconjure := Follows.reading (P := P)
    (a := fun s =>
      { s.peek 1 with
        type := x
        text := s!"<missing {s.vocabulary.displayName x}>"
        stop := (s.peek 1).start })
    (fun _ => rfl) fun t => Follows.comp h (Follows.attach (.leaf t true)) hmiss
  have hmismatch : Keeps P n (fun s : State σ => ((.error (.recognition
      (.inputMismatch (s.peek 1) (.ofList [x]))) : Except Interrupt Unit), s)) _ :=
    result fun _ => rfl
  -- The token is there, or it comes next, or it is made up, or it is missed.
  have hmend := branch (c := fun s => s.la 2 = x) (fun _ => Iff.rfl)
    (act (Follows.comp h htake (Follows.dropWith h (.ofList [x]))) ())
    (branch (c := fun s => s.recoverySet.contains (s.la 1) = true) (fun _ => Iff.rfl)
      (act hconjure ()) hmismatch)
  have hmatch := after h (Follows.reach h 1) (branch (c := fun s => s.la 1 = x) (fun _ => Iff.rfl)
    (act htake ()) (after h (Follows.reach h 2) hmend))
  exact hmatch

theorem predict (d k : Nat) (f : Lookahead → Option Nat) :
    Keeps P n (predict d k f : Parser σ Nat) (Parser.predict d k f) := by
  have hbal : ∀ s : State σ, Balanced s (Parser.predict d k f s).2 :=
    (Careful.predict (D := fun _ _ _ => True) trivial).balanced
  have hsame (s : State σ) : Parser.predict d k f (s.reach k) = Parser.predict d k f s := by
    simp only [Parser.predict, State.reach_reach]
  refine ⟨hbal, fun s hs hlevel => ?_⟩
  rcases h.reach n s k hs with ⟨hfit, hreach⟩ | hlost
  · cases hc : s.cache with
    | unavailable =>
      have hc' : (s.reach k).cache = .unavailable := hc
      have hview : (P.view (s.reach k)).cache = .unavailable := hc
      simp only [Parser.predict, hreach, hc', hview]
      exact .same hfit
    | available c =>
      have hdecide : (P.view s).decide c d k f = P.view (s.decide c d k f) := by
        simp only [State.decide, hreach]
        rfl
      have hchosen : chosen (P.view s) c d k f = chosen s c d k f := by
        simp only [chosen, hreach]
        rfl
      have hcurrent (s : State σ) :
          s.current = ((s.decide c d k f).reach 1).peek 1 := by
        rw [State.peek_one]
        exact (State.current_reach s k).symm
      have hview : (P.view s).cache = .available c := hc
      rw [predict_eq hc, predict_eq hview, hchosen, hcurrent s, hcurrent (P.view s), hdecide]
      cases chosen s c d k f with
      | some alternative => exact .same hfit
      | none =>
        rcases h.reach n (s.decide c d k f) 1 hfit with ⟨hfit, hone⟩ | hlost
        · rw [hone]
          exact .same hfit
        · exact .lost hlost
  · have hrest := hbal (s.reach k)
    rw [hsame] at hrest
    exact Beside.lost (h.mono n _ _ hrest hlost)

theorem whileNext {body body' : Parser σ Unit} (hb : Keeps P n body body') (set : TokenSet)
    (k : Nat) : Keeps P n (whileNext set body k) (Parser.whileNext set body' k) := by
  induction k with
  | zero => exact fail _
  | succ k ih => exact bind h (next h) fun _ => ite (bind h hb fun _ => ih) (pure ())

/-- A piece that is given a bound on the tokens to come. -/
theorem bounded {k l : Nat → Parser σ α} (hk : ∀ m, Keeps P n (k m) (l m)) :
    Keeps P n (do k (← get).buffer.remaining) (do l (← get).buffer.remaining) := by
  refine ⟨fun s => (hk s.buffer.remaining).balanced s, fun s hs hlevel => ?_⟩
  rw [get_bind, get_bind, view_remaining h]
  exact (hk s.buffer.remaining).beside s hs hlevel

/-- A rule that gives up does so in both runs. -/
theorem abandoned {f : State σ → State σ} (hf : Follows P f) (s : State σ) {t : State σ}
    (ht : P.Fits t.buffer.source) (rule start : Nat) : Beside P (n + 1)
      ((.ok () : Except Interrupt Unit),
        ((f t).closeRule s).attach (.node rule start true (f t).slots))
      (.ok (), ((f (P.view t)).closeRule (P.view s)).attach
        (.node rule start true (f (P.view t)).slots)) := by
  rcases hf.beside n t ht with ⟨hfit, heq⟩ | hlost
  · rw [heq]
    exact Beside.same (P := P) (t := ((f t).closeRule s).attach _) hfit
  · exact .lost (h.close n _ _ _ _ _ hlost)

/-- Beyond one nesting limit for both, neither run enters the rule. -/
theorem refused {body body' : Parser σ Unit} {s : State σ} (hs : P.Fits s.buffer.source)
    (hlimit : P.limit s.maxDepth = s.maxDepth) (hd : ¬ s.depth < s.maxDepth) (index : Nat)
    (follow : TokenSet) : Beside P (n + 1) (attach (rule index follow body) s)
      (attach (rule index follow body') (P.view s)) := by
  have hd' : ¬ (P.view s).depth < (P.view s).maxDepth := by
    show ¬ s.depth < P.limit s.maxDepth
    rwa [hlimit]
  simp only [attach, rule, if_pos ((openRule_deep_iff s follow).mpr hd),
    if_pos ((openRule_deep_iff (P.view s) follow).mpr hd'), refuseRule]
  rcases h.reach n (s.openRule follow) 1 hs with ⟨hfit, hreach⟩ | hlost
  · have hmax : (P.view ((s.openRule follow).reach 1)).maxDepth = s.maxDepth := hlimit
    rw [show (P.view s).openRule follow = P.view (s.openRule follow) from rfl, hreach, hmax]
    let place := ((s.openRule follow).reach 1).peek 1
    have hreport := Follows.reportHere h
      s!"rule nesting exceeds {s.maxDepth} levels at input {place.display}"
    exact abandoned h (Follows.comp h (Follows.recover h) hreport) s hfit index s.index
  · refine .lost (h.close n _ _ _ _ _ (h.mono n _ _ ?_ hlost))
    exact (Balanced.reportHere _ _).trans (.recover _)

/-- Below the limits of both, what is lost inside the rule is lost around it. -/
theorem entered {body body' : Parser σ Unit} (hb : Keeps P n body body') {s : State σ}
    (hs : P.Fits s.buffer.source) (hlevel : P.Level n (s.depth + 1) s.maxDepth)
    (hd : s.depth < s.maxDepth) (hd' : s.depth < P.limit s.maxDepth) (index : Nat)
    (follow : TokenSet) : Beside P (n + 1) (attach (rule index follow body) s)
      (attach (rule index follow body') (P.view s)) := by
  have hview : (P.view s).depth < (P.view s).maxDepth := hd'
  have hopen : (P.view s).openRule follow = P.view (s.openRule follow) := rfl
  have hbeside := hb.beside (s.openRule follow) hs hlevel
  simp only [attach, rule_of_lt hd, rule_of_lt hview, hopen]
  generalize body (s.openRule follow) = out at hbeside
  generalize body' (P.view (s.openRule follow)) = out' at hbeside
  cases hbeside with
  | @same r t hfit =>
    match r with
    | .ok () => exact Beside.same (P := P) (t := (t.closeRule s).attach _) hfit
    | .error (.recognition e) =>
      have hreport := Follows.report (P := P) e.token (e.message t.vocabulary)
      exact abandoned h (Follows.comp h (Follows.recover h) hreport) s hfit index s.index
    | .error (.failure f) => exact .failed
  | @lost r t _ hlost =>
    match r with
    | .ok () => exact .lost (h.close n _ _ _ _ _ hlost)
    | .error (.recognition e) =>
      have hrecover := (Balanced.report t e.token (e.message t.vocabulary)).trans (.recover _)
      exact .lost (h.close n _ _ _ _ _ (h.mono n _ _ hrecover hlost))
    | .error (.failure f) => exact .failed
  | failed => exact .failed

/-- A rule whose bodies go together. -/
theorem rule {body body' : Parser σ Unit} (hb : Keeps P n body body') (index : Nat)
    (follow : TokenSet) : Keeps P (n + 1) (attach (rule index follow body))
      (attach (Parser.rule index follow body')) := by
  refine ⟨Balanced.attachRule hb.balanced index follow, fun s hs hlevel => ?_⟩
  obtain ⟨hinner, hlimit⟩ := h.level n s.depth s.maxDepth hlevel
  by_cases hd : s.depth < s.maxDepth ∧ s.depth < P.limit s.maxDepth
  · exact entered h hb hs hinner hd.1 hd.2 index follow
  · have hsame : P.limit s.maxDepth = s.maxDepth := hlimit.resolve_left hd
    exact refused h hs hsame (fun hlt => hd ⟨hlt, hsame.symm ▸ hlt⟩) index follow

end Keeps

end Operations

omit [TokenSource σ] in
theorem attach_inj {s t : State σ} {tree tree' : RawTree}
    (h : s.attach tree = t.attach tree') : s = t ∧ tree = tree' := by
  obtain ⟨hslots, htree⟩ := List.append_inj' (congrArg State.slots h) rfl
  refine ⟨?_, Option.some.inj (List.cons.inj htree).1⟩
  calc s = { s.attach tree with slots := s.slots } := rfl
    _ = { t.attach tree' with slots := t.slots } := by rw [h, hslots]

omit [TokenSource σ] in
/-- What a rule that comes back says of the rule beside it. -/
theorem Keeps.invocation {run run' : Invocation σ} (hk : Keeps P n (attach run) (attach run'))
    {s t : State σ} {tree : RawTree} (hs : P.Fits s.buffer.source)
    (hlevel : P.Level n s.depth s.maxDepth) (ht : run s = (.ok tree, t)) :
    (P.Fits t.buffer.source ∧ run' (P.view s) = (.ok tree, P.view t)) ∨
      P.Lost n (t.attach tree) := by
  have hbeside := hk.beside s hs hlevel
  simp only [attach, ht] at hbeside
  generalize hu : t.attach tree = u at hbeside
  match hrun : run' (P.view s) with
  | (.ok tree', t') =>
    simp only [hrun] at hbeside
    generalize hu' : t'.attach tree' = u' at hbeside
    cases hbeside with
    | same hfit =>
      subst hu
      obtain ⟨rfl, rfl⟩ := attach_inj (t := P.view t) hu'
      exact Or.inl ⟨hfit, rfl⟩
    | lost hlost => exact Or.inr hlost
  | (.error f, t') =>
    simp only [hrun] at hbeside
    cases hbeside with
    | lost hlost => exact Or.inr hlost

end Descent.Parser

namespace Descent.Calc

open Descent.Parser

variable {σ : Type} [TokenSource σ] {P : Pairing σ} {n : Nat}
  {inv inv' : Rule → TokenSet → Parser σ Unit} (h : P.Lawful)

include h

theorem terminator_keeps : Keeps P n (terminator : Parser σ Unit) terminator :=
  .bind h (.next h) fun _ => .ite (.matchToken h semi) (.pure ())

theorem matchNext_keeps : Keeps P n (matchNext : Parser σ Unit) matchNext :=
  .bind h (.next h) (.matchToken h)

variable (hinv : ∀ r follow, Keeps P n (inv r follow) (inv' r follow))

include hinv

theorem programRound_keeps : Keeps P n (programRound inv) (programRound inv') :=
  .bind h (.next h) fun _ => .ite (hinv .statement expressionStart) (.skipExtraneous h _)

theorem programLoop_keeps (k : Nat) : Keeps P n (programLoop inv k) (programLoop inv' k) := by
  induction k with
  | zero => exact .fail _
  | succ k ih =>
    exact .bind h (.next h) fun _ =>
      .ite (.pure ()) (.bind h (programRound_keeps h hinv) fun _ => ih)

theorem programBody_keeps : Keeps P n (programBody inv) (programBody inv') :=
  .bounded h fun m => programLoop_keeps h hinv (2 * m + 1)

theorem statementBody_keeps : Keeps P n (statementBody inv) (statementBody inv') :=
  .bind h (.predict h 0 2 simulateStatement) fun _ =>
    .bind h (hinv _ _) fun _ => terminator_keeps h

theorem assigned_keeps : Keeps P n (assigned inv) (assigned inv') :=
  .bind h (.matchToken h assign) fun _ => hinv .expression .empty

theorem assignmentBody_keeps : Keeps P n (assignmentBody inv) (assignmentBody inv') :=
  .bind h (.matchToken h ident) fun _ => assigned_keeps h hinv

theorem operations_keeps (operators : TokenSet) (operand : Rule) (follow : TokenSet) :
    Keeps P n (operations inv operators operand follow)
      (operations inv' operators operand follow) :=
  .bounded h fun m => .whileNext h (.bind h (matchNext_keeps h) fun _ => hinv operand follow)
    operators (m + 1)

theorem operatorBody_keeps (operators : TokenSet) (operand : Rule) (follow : TokenSet) :
    Keeps P n (operatorBody inv operators operand follow)
      (operatorBody inv' operators operand follow) :=
  .bind h (hinv operand follow) fun _ => operations_keeps h hinv operators operand follow

theorem exponent_keeps : Keeps P n (exponent inv) (exponent inv') :=
  .bind h (.next h) fun _ =>
    .ite (.bind h (.matchToken h caret) fun _ => hinv .factor .empty) (.pure ())

theorem factorBody_keeps : Keeps P n (factorBody inv) (factorBody inv') :=
  .bind h (.next h) fun _ => .ite
    (.bind h (matchNext_keeps h) fun _ => hinv .factor .empty)
    (.bind h (hinv .primary _) fun _ => exponent_keeps h hinv)

theorem enclosed_keeps : Keeps P n (enclosed inv) (enclosed inv') :=
  .bind h (hinv .expression _) fun _ => .matchToken h rparen

theorem parenthesized_keeps : Keeps P n (parenthesized inv) (parenthesized inv') :=
  .bind h (.matchToken h lparen) fun _ => enclosed_keeps h hinv

theorem primaryBody_keeps : Keeps P n (primaryBody inv) (primaryBody inv') :=
  .bind h (.predict h 1 2 simulatePrimary) fun _ =>
    .ite (.matchToken h number) <| .ite (.matchToken h string) <| .ite (.matchToken h ident) <|
      .ite (hinv .call .empty) (parenthesized_keeps h hinv)

theorem arguments_keeps : Keeps P n (arguments inv) (arguments inv') :=
  .bind h (.next h) fun _ =>
    .ite (operatorBody_keeps h hinv _ .expression separators) (.pure ())

theorem argumentList_keeps : Keeps P n (argumentList inv) (argumentList inv') :=
  .bind h (.matchToken h lparen) fun _ =>
    .bind h (arguments_keeps h hinv) fun _ => .matchToken h rparen

theorem callBody_keeps : Keeps P n (callBody inv) (callBody inv') :=
  .bind h (.matchToken h ident) fun _ => argumentList_keeps h hinv

/-- The body of every rule goes together if the rules that it invokes do. -/
theorem body_keeps (r : Rule) : Keeps P n (body inv r) (body inv' r) := by
  cases r with
  | program => exact programBody_keeps h hinv
  | statement => exact statementBody_keeps h hinv
  | assignment => exact assignmentBody_keeps h hinv
  | expression => exact operatorBody_keeps h hinv additive .term additive
  | term => exact operatorBody_keeps h hinv multiplicative .factor multiplicative
  | factor => exact factorBody_keeps h hinv
  | primary => exact primaryBody_keeps h hinv
  | call => exact callBody_keeps h hinv

omit hinv in
/-- With the same number of levels every rule goes along with itself. -/
theorem invokeWithin_keeps (levels : Nat) (r : Rule) (follow : TokenSet) :
    Keeps P (levels + 1) (attach (invokeWithin levels r follow))
      (attach (invokeWithin levels r follow)) := by
  induction levels generalizing r follow with
  | zero => exact .rule h (.fail _) _ _
  | succ levels ih => exact .rule h (body_keeps h ih r) _ _

end Descent.Calc
