import Descent.Proofs.Grammar
import Descent.Proofs.State

/-! What a parser can do, whatever its rules: runs from one state to another
that are labelled with the symbols they put into the tree of the open rule. A
run looks ahead, takes a token, drops one, makes one up, consults the cache, or
invokes a rule, which either finishes with a word that the grammar allows or is
abandoned. Every property of all parses is proved by induction over runs. -/

namespace Descent

/-- What the runs of a parser depend on: the tokens its rules ask for, the
numbers of its rules, the words each of them may be made of, and its decisions
with the lookahead they take and how they are simulated. -/
structure Grammar where
  tokens : Set TokenType
  rules : Set Nat
  words : Nat → Language Symbol
  decisions : Nat → Nat → (Lookahead → Option Nat) → Prop
  eof_notMem : eof ∉ tokens

namespace Parser

variable {σ : Type} [TokenSource σ]

/-- `Run G s w t`: from `s` a rule body of the grammar can come to `t`, and what
it attached on the way, less what it dropped, spells `w`. -/
inductive Run (G : Grammar) : State σ → List Symbol → State σ → Prop where
  | refl (s : State σ) : Run G s [] s
  | look {s t : State σ} {w : List Symbol} (k : Nat) : Run G s w t → Run G s w (t.reach k)
  | take {s t : State σ} {w : List Symbol} :
      Run G s w t → t.current.type ∈ G.tokens →
      Run G s (w ++ [.token t.current.type]) t.take
  | drop {s t : State σ} {w : List Symbol} (message : String) :
      Run G s w t → t.current.type ≠ eof → Run G s w (t.drop message)
  | conjure {s t : State σ} {w : List Symbol} (x : TokenType) (text message : String) :
      Run G s w t → x ∈ G.tokens → t.recoverySet.contains t.current.type = true →
      Run G s (w ++ [.token x]) (t.conjure x text message)
  | decide {s t : State σ} {w : List Symbol} {c : PredictionCache} {d k : Nat}
      {simulate : Lookahead → Option Nat} :
      Run G s w t → G.decisions d k simulate → t.cache = .available c →
      Run G s w (t.decide c d k simulate)
  | finish {s t u : State σ} {w v : List Symbol} {r : Nat} {follow : TokenSet} :
      Run G s w t → r ∈ G.rules → t.depth < t.maxDepth →
      Run G (t.openRule follow) v u → v ∈ G.words r →
      Run G s (w ++ [.rule r]) ((u.closeRule t).attach (.node r t.index false u.slots))
  | abandon {s t u : State σ} {w v : List Symbol} {r : Nat} {follow : TokenSet}
      (message : String) :
      Run G s w t → r ∈ G.rules →
      (t.depth < t.maxDepth ∨ u = (t.openRule follow).reach 1) →
      Run G (t.openRule follow) v u →
      Run G s (w ++ [.rule r])
        (((u.giveUp message).closeRule t).attach (.node r t.index true (u.giveUp message).slots))

/-- One invocation of a rule, with the tree it returns. -/
inductive Invoked (G : Grammar) (r : Nat) (follow : TokenSet) (s : State σ) :
    RawTree → State σ → Prop where
  | finish {t : State σ} {w : List Symbol} :
      s.depth < s.maxDepth → Run G (s.openRule follow) w t → w ∈ G.words r →
      Invoked G r follow s (.node r s.index false t.slots) (t.closeRule s)
  | abandon {t : State σ} {w : List Symbol} (message : String) :
      (s.depth < s.maxDepth ∨ t = (s.openRule follow).reach 1) →
      Run G (s.openRule follow) w t →
      Invoked G r follow s (.node r s.index true (t.giveUp message).slots)
        ((t.giveUp message).closeRule s)

namespace State

omit [TokenSource σ]

theorem index_close (s t : State σ) (tree : RawTree) :
    ((t.closeRule s).attach tree).index = t.index := rfl

theorem errors_close (s t : State σ) (tree : RawTree) :
    ((t.closeRule s).attach tree).errors = t.errors := rfl

theorem lastError_close (s t : State σ) (tree : RawTree) :
    ((t.closeRule s).attach tree).lastError? = t.lastError? := rfl

theorem cache_close (s t : State σ) (tree : RawTree) :
    ((t.closeRule s).attach tree).cache = t.cache := rfl

theorem recognizer_close (s t : State σ) (tree : RawTree) :
    ((t.closeRule s).attach tree).recognizer = t.recognizer := rfl

end State

variable {G : Grammar}

/-- What an invocation adds to the slots of the rule around is its tree. -/
theorem Invoked.more_eq {r : Nat} {follow : TokenSet} {s t : State σ} {tree : RawTree}
    {more : List (Option RawTree)} (h : Invoked G r follow s tree t)
    (hm : (t.attach tree).slots = s.slots ++ more) : more = [some tree] := by
  have hslots : t.slots = s.slots := by
    cases h <;> rfl
  rw [State.attach, hslots] at hm
  exact (List.append_cancel_left hm).symm

namespace Run

theorem trans {s t u : State σ} {w v : List Symbol} (h : Run G s w t) (h' : Run G t v u) :
    Run G s (w ++ v) u := by
  induction h' with
  | refl => simpa using h
  | look k _ ih => exact .look k (ih h)
  | take _ hx ih => simpa using Run.take (ih h) hx
  | drop message _ hne ih => exact .drop message (ih h) hne
  | conjure x text message _ hx hr ih =>
    simpa using Run.conjure x text message (ih h) hx hr
  | decide _ hd hc ih => exact .decide (ih h) hd hc
  | finish _ hr hd hb hv ih _ => simpa using Run.finish (ih h) hr hd hb hv
  | abandon message _ hr hd hb ih _ => simpa using Run.abandon message (ih h) hr hd hb

/-- A run can invoke a rule and attach its tree. -/
theorem invoke {s t t' : State σ} {w : List Symbol} {r : Nat} {follow : TokenSet} {tree : RawTree}
    (h : Run G s w t) (hr : r ∈ G.rules) (hi : Invoked G r follow t tree t') :
    Run G s (w ++ [.rule r]) (t'.attach tree) := by
  cases hi with
  | finish hd hb hv => exact .finish h hr hd hb hv
  | abandon message hd hb => exact .abandon message h hr hd hb

end Run

/-- What every run keeps of the state it started in. -/
structure Kept (s t : State σ) : Prop where
  ok : t.Ok
  vocabulary : t.vocabulary = s.vocabulary
  follow : t.follow = s.follow
  maxDepth : t.maxDepth = s.maxDepth
  whole : t.buffer.whole = s.buffer.whole
  index : s.index ≤ t.index
  slots : ∃ more, t.slots = s.slots ++ more

namespace Kept

theorem input {s t : State σ} (h : Kept s t) : t.buffer.input = s.buffer.input :=
  Buffer.input_of_whole h.whole

theorem refl {s : State σ} (h : s.Ok) : Kept s s :=
  ⟨h, rfl, rfl, rfl, rfl, Nat.le_refl _, [], by simp⟩

theorem trans {s t u : State σ} (h : Kept s t) (h' : Kept t u) : Kept s u := by
  obtain ⟨m, hm⟩ := h.slots
  obtain ⟨m', hm'⟩ := h'.slots
  exact ⟨h'.ok, h'.vocabulary.trans h.vocabulary, h'.follow.trans h.follow,
    h'.maxDepth.trans h.maxDepth, h'.whole.trans h.whole, Nat.le_trans h.index h'.index,
    m ++ m', by rw [hm', hm, List.append_assoc]⟩

theorem reach {s : State σ} (h : s.Ok) (k : Nat) : Kept s (s.reach k) :=
  ⟨h.reach k, rfl, rfl, rfl, Buffer.whole_reach _ k, by simp, [], by simp [State.reach]⟩

theorem report {s : State σ} (h : s.Ok) (place : Token) (message : String) :
    Kept s (s.report place message) := by
  rw [State.report_eq]
  exact ⟨⟨h.buffer, h.cache⟩, rfl, rfl, rfl, rfl, Nat.le_refl _, [], by simp⟩

theorem take {s : State σ} (h : s.Ok) (hne : s.current.type ≠ eof) : Kept s s.take := by
  obtain ⟨-, hp, hi⟩ := Buffer.consume_of_ne hne
  rw [State.take_eq]
  exact ⟨⟨h.buffer.consume, h.cache⟩, rfl, rfl, rfl, hi,
    by simp only [State.index, hp]; omega, _, rfl⟩

theorem drop {s : State σ} (h : s.Ok) (message : String) (hne : s.current.type ≠ eof) :
    Kept s (s.drop message) := by
  obtain ⟨-, hp, hi⟩ := Buffer.consume_of_ne hne
  rw [State.drop_eq]
  exact ⟨⟨h.buffer.consume, h.cache⟩, rfl, rfl, rfl, hi,
    by simp only [State.index, hp]; omega, _, rfl⟩

theorem conjure {s : State σ} (h : s.Ok) (x : TokenType) (text message : String) :
    Kept s (s.conjure x text message) := by
  rw [State.conjure_eq]
  exact ⟨⟨h.buffer.reach 1, h.cache⟩, rfl, rfl, rfl, Buffer.whole_reach _ 1,
    Nat.le_of_eq (State.index_reach s 1).symm, _, rfl⟩

theorem decide {s : State σ} (h : s.Ok) (c : PredictionCache) (d k : Nat)
    (simulate : Lookahead → Option Nat) : Kept s (s.decide c d k simulate) :=
  ⟨⟨h.buffer.reach k, _, rfl⟩, rfl, rfl, rfl, Buffer.whole_reach _ k,
    Nat.le_of_eq (State.index_reach s k).symm, [], by simp [State.decide, State.reach]⟩

theorem skipped {s t : State σ} {n : Nat} (h : s.Ok) (hs : s.Skipped n t) : Kept s t :=
  ⟨⟨hs.buffer, by rw [hs.same.cache]; exact h.cache⟩, hs.same.vocabulary, hs.same.follow,
    hs.same.maxDepth, hs.whole, by rw [hs.index]; omega, _, hs.slots⟩

theorem giveUp {s : State σ} (h : s.Ok) (message : String) : Kept s (s.giveUp message) := by
  have hr := report h s.current message
  obtain ⟨n, hn, -⟩ := State.recover_skipped (s.report s.current message) hr.ok.buffer
  exact hr.trans (skipped hr.ok hn)

/-- A rule that comes back leaves the rule around as it was. -/
theorem close {s t : State σ} {follow : TokenSet} (h : Kept (s.openRule follow) t)
    (tree : RawTree) : Kept s ((t.closeRule s).attach tree) := by
  refine ⟨⟨h.ok.buffer, h.ok.cache⟩, h.vocabulary, ?_, h.maxDepth, h.whole, h.index, [some tree],
    rfl⟩
  show t.follow.tail = s.follow
  rw [h.follow]
  rfl

end Kept

omit [TokenSource σ] in
theorem State.Ok.openRule {s : State σ} (h : s.Ok) (follow : TokenSet) : (s.openRule follow).Ok :=
  ⟨h.buffer, h.cache⟩

theorem Run.kept {s t : State σ} {w : List Symbol} (h : Run G s w t) (hs : s.Ok) : Kept s t := by
  induction h with
  | refl => exact .refl hs
  | look k _ ih => exact (ih hs).trans (.reach (ih hs).ok k)
  | take _ hx ih =>
    exact (ih hs).trans (.take (ih hs).ok (fun e => G.eof_notMem (e ▸ hx)))
  | drop message _ hne ih => exact (ih hs).trans (.drop (ih hs).ok message hne)
  | conjure x text message _ _ _ ih => exact (ih hs).trans (.conjure (ih hs).ok x text message)
  | decide _ _ _ ih => exact (ih hs).trans (.decide (ih hs).ok _ _ _ _)
  | finish _ _ _ _ _ ih ihb =>
    exact (ih hs).trans ((ihb ((ih hs).ok.openRule _)).close _)
  | abandon message _ _ _ _ ih ihb =>
    have hb := ihb ((ih hs).ok.openRule _)
    exact (ih hs).trans ((hb.trans (.giveUp hb.ok message)).close _)

end Parser

end Descent
