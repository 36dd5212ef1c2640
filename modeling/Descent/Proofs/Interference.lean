import Descent.Frontend
import Descent.Proofs.Sharing
import Descent.Proofs.Trust

/-! Grammars that share one cache. Each of them numbers its decisions from zero, and the
cache keeps them apart by these numbers and by nothing else. So what it holds for a
decision and a lookahead is what the first grammar found there that found anything since
the cache was last cleared, and this is given to whoever asks the same, of whatever
grammar. A grammar is answered as it would answer itself exactly when that first answer
happens to be its own. -/

namespace Descent

namespace PredictionCache

/-- The table with one more answer, unless there is one already. -/
def learn (table : Nat → Lookahead → Option Nat) (d : Nat) (w : Lookahead) (answer : Option Nat) :
    Nat → Lookahead → Option Nat :=
  fun d' w' => (table d' w').or (if (d, w) = (d', w') then answer else none)

theorem learn_of_known {table : Nat → Lookahead → Option Nat} {d : Nat} {w : Lookahead}
    {answer : Option Nat} (h : (table d w).or answer = table d w) :
    learn table d w answer = table := by
  funext d' w'
  unfold learn
  split
  · next e =>
    cases e
    exact h
  · simp

theorem learn_of_unknown {table : Nat → Lookahead → Option Nat} {d : Nat} {w : Lookahead}
    (h : table d w = none) (a : Nat) (d' : Nat) (w' : Lookahead) :
    learn table d w (some a) d' w' = if (d, w) = (d', w') then some a else table d' w' := by
  unfold learn
  split
  · next e =>
    cases e
    rw [h]
    rfl
  · simp

/-- `Quiet c c'`: nothing was recorded between the two. Either the cache was cleared, or
it gained contexts and nothing else. -/
def Quiet (c c' : PredictionCache) : Prop :=
  c' = c.clear ∨ c.Grows c' ∧ c'.generation = c.generation ∧ c'.decisions = c.decisions

theorem Quiet.refl (c : PredictionCache) : c.Quiet c := Or.inr ⟨.refl c, rfl, rfl⟩

theorem Quiet.enforce (c : PredictionCache) (threshold : Nat) :
    c.Quiet (c.enforce threshold).2 := by
  unfold PredictionCache.enforce
  split
  · exact .refl c
  · exact Or.inl rfl

theorem Quiet.intern (c : PredictionCache) (w : Lookahead) : c.Quiet (c.intern w).2 := by
  unfold PredictionCache.intern
  split
  · exact .refl c
  · next hw => exact Or.inr ⟨.insert hw _, rfl, rfl⟩

/-- The cache holds the alternatives of `table`, and no others. -/
structure Tabulates (table : Nat → Lookahead → Option Nat) (c : PredictionCache) : Prop where
  faithful : c.Faithful table
  held : ∀ d w a, table d w = some a →
    ∃ id, c.contexts[w]? = some id ∧ c.prediction? d id = some a

namespace Tabulates

variable {table : Nat → Lookahead → Option Nat} {c : PredictionCache}

theorem cleared (generation : Nat) :
    Tabulates (fun _ _ => none) { generation := generation } :=
  ⟨.cleared _ generation, by simp⟩

/-- What is recorded for the number of a lookahead is what the table has for it. -/
theorem prediction?_eq (h : Tabulates table c) {w : Lookahead} {id : Nat}
    (hw : c.contexts[w]? = some id) (d : Nat) : c.prediction? d id = table d w := by
  cases ha : table d w with
  | none => exact h.faithful.unrecorded hw ha
  | some a =>
    obtain ⟨id', hw', hp⟩ := h.held d w a ha
    rw [hw] at hw'
    cases hw'
    exact hp

/-- A cache that gained nothing but contexts holds what it held. -/
theorem grow (h : Tabulates table c) {c' : PredictionCache} (hf : c'.Faithful table)
    (hg : c.Grows c') (hgen : c'.generation = c.generation)
    (hd : c'.decisions = c.decisions) : Tabulates table c' := by
  refine ⟨hf, fun d w a ha => ?_⟩
  obtain ⟨id, hw, hp⟩ := h.held d w a ha
  refine ⟨id, hg.contexts hgen w id hw, ?_⟩
  rw [prediction?, hd]
  exact hp

theorem record (h : Tabulates table c) {d id : Nat} {w : Lookahead}
    (hw : c.contexts[w]? = some id) (hnone : table d w = none) (a : Nat) :
    Tabulates (learn table d w (some a)) (c.record d id a) := by
  have hlearn := learn_of_unknown hnone a
  constructor
  · refine Faithful.record ⟨h.faithful.bounded, h.faithful.injective, ?_⟩ hw ?_
    · intro d' id' a' hp
      obtain ⟨v, hv, hsim⟩ := h.faithful.simulated d' id' a' hp
      refine ⟨v, hv, ?_⟩
      rw [hlearn, if_neg]
      · exact hsim
      · intro e
        cases e
        rw [hnone] at hsim
        cases hsim
    · rw [hlearn, if_pos rfl]
  · intro d' w' a' ha
    rw [hlearn] at ha
    split at ha
    · next e =>
      cases e
      cases ha
      refine ⟨id, hw, ?_⟩
      rw [prediction?_record, if_pos rfl]
    · next hne =>
      obtain ⟨id', hw', hp⟩ := h.held d' w' a' ha
      refine ⟨id', hw', ?_⟩
      rw [prediction?_record, if_neg]
      · exact hp
      · intro e
        cases e
        exact hne (congrArg (Prod.mk d) (h.faithful.injective w w' id hw hw'))

end Tabulates

end PredictionCache

namespace Recognizer

open PredictionCache

/-- A prediction is what the table has, else what simulation gives, and the table learns it. -/
theorem predict_table {table : Nat → Lookahead → Option Nat} {c : PredictionCache}
    {r : Recognizer} (h : c.Tabulates table) (hr : r.Synced c) (d : Nat) (w : Lookahead)
    (simulate : Lookahead → Option Nat) :
    (r.predict c d w simulate).1 = (table d w).or (simulate w) ∧
      (r.predict c d w simulate).2.2.Tabulates (learn table d w (simulate w)) ∧
      (r.predict c d w simulate).2.1.Synced (r.predict c d w simulate).2.2 ∧
      c.Grows (r.predict c d w simulate).2.2 := by
  obtain ⟨hw, hf, hs, hg⟩ := locate_spec h.faithful hr w
  have ht := h.grow hf hg (r.locate_generation c w) (r.locate_decisions c w)
  have hp := ht.prediction?_eq hw d
  simp only [predict]
  split
  · next a ha =>
    have hd : table d w = some a := hp.symm.trans ha
    have hlearn : learn table d w (simulate w) = table := learn_of_known (by rw [hd]; rfl)
    rw [hd, hlearn]
    exact ⟨rfl, ht, hs, hg⟩
  · next hnone =>
    have hd : table d w = none := hp.symm.trans hnone
    split
    · next hsim =>
      rw [hd, hsim, learn_of_known Option.or_none]
      exact ⟨rfl, ht, hs, hg⟩
    · next a hsim =>
      rw [hd, hsim]
      exact ⟨rfl, ht.record hw hd a, hs.grow (.record _ d _ a), hg.trans (.record _ d _ a)⟩

end Recognizer

/-- A pool whose members parse by various grammars, and what they have asked since the
cache was last cleared: for which grammar, at which decision and lookahead. -/
structure Commons (γ : Type) extends Pool where
  asked : List (γ × Nat × Lookahead) := []

namespace Commons

open PredictionCache

variable {γ : Type} (sims : γ → Nat → Lookahead → Option Nat) (grammar : Nat → γ)

/-- The member that predicts; in any other step it does not matter who acts. -/
def actor : Pool.Act → Nat
  | .predict member _ _ => member
  | _ => 0

/-- What is asked of the cache in one step. -/
def question (p : Pool) : Pool.Act → List (γ × Nat × Lookahead)
  | .predict member decision w =>
    if member < p.members.length then [(grammar member, decision, w)] else []
  | _ => []

/-- One step, where `sims g d` simulates the decision `d` of the grammar `g`, and the
member numbered `m` parses by `grammar m`. -/
def act (p : Commons γ) (a : Pool.Act) : Commons γ :=
  let q := p.toPool.act (sims (grammar (actor a))) a
  ⟨q, if q.cache.generation = p.cache.generation then p.asked ++ question grammar p.toPool a
    else []⟩

def run (acts : List Pool.Act) : Commons γ := acts.foldl (act sims grammar) {}

/-- The first answer to a question: what the first grammar found that asked it and found
anything. -/
def firstFound (asked : List (γ × Nat × Lookahead)) (d : Nat) (w : Lookahead) : Option Nat :=
  asked.findSome? fun q => if q.2 = (d, w) then sims q.1 d w else none

/-- The cache holds the first answers, and nobody knows a wrong number. -/
structure Settled (p : Commons γ) : Prop where
  tabulates : p.cache.Tabulates (firstFound sims p.asked)
  synced : ∀ r ∈ p.members, r.Synced p.cache

variable {sims}

theorem firstFound_concat (asked : List (γ × Nat × Lookahead)) (g : γ) (d : Nat) (w : Lookahead) :
    firstFound sims (asked ++ [(g, d, w)]) = learn (firstFound sims asked) d w (sims g d w) := by
  funext d' w'
  unfold firstFound learn
  rw [List.findSome?_append]
  congr 1
  rw [List.findSome?_cons, List.findSome?_nil]
  by_cases e : (d, w) = (d', w')
  · cases e
    cases sims g d w <;> simp
  · simp [e]

variable {grammar} {p : Commons γ}

/-- Where nobody asks, the first answers stay what they are or are dropped. -/
theorem Settled.quiet (h : p.Settled sims) {q : Pool} (hq : q.InOrder (firstFound sims p.asked))
    (hc : p.cache.Quiet q.cache) :
    Settled sims ⟨q, if q.cache.generation = p.cache.generation then p.asked ++ [] else []⟩ := by
  rcases hc with hc | ⟨hg, hgen, hd⟩
  · have hgen : q.cache.generation ≠ p.cache.generation := by
      rw [hc]
      exact Nat.succ_ne_self _
    rw [if_neg hgen]
    refine ⟨?_, hq.synced⟩
    rw [hc]
    exact .cleared _
  · rw [if_pos hgen, List.append_nil]
    exact ⟨h.tabulates.grow hq.faithful hg hgen hd, hq.synced⟩

/-- A member that asks is given the first answer, or gives it. -/
theorem Settled.predict (h : p.Settled sims) (m d : Nat) (w : Lookahead) :
    (p.act sims grammar (.predict m d w)).Settled sims := by
  cases hr : p.members[m]? with
  | none =>
    have hm : ¬ m < p.members.length := Nat.not_lt.mpr (List.getElem?_eq_none_iff.mp hr)
    simp only [act, question, Pool.act, hr, if_true, if_neg hm, List.append_nil]
    exact h
  | some r =>
    obtain ⟨hm, -⟩ := List.getElem?_eq_some_iff.mp hr
    obtain ⟨-, ht, hs, hg⟩ := Recognizer.predict_table h.tabulates
      (h.synced r (List.mem_of_getElem? hr)) d w (sims (grammar m) d)
    simp only [act, actor, question, Pool.act, hr, Recognizer.predict_generation, if_true,
      if_pos hm]
    refine ⟨?_, fun r' hr' => ?_⟩
    · rw [firstFound_concat]
      exact ht
    · rcases List.mem_or_eq_of_mem_set hr' with hr' | rfl
      · exact (h.synced r' hr').grow hg
      · exact hs

theorem Settled.act (h : p.Settled sims) (a : Pool.Act) : (p.act sims grammar a).Settled sims := by
  -- what a step other than a prediction does depends on no simulation
  have hq := Pool.InOrder.act ⟨h.tabulates.faithful, h.synced⟩ a
  cases a with
  | predict m d w => exact h.predict m d w
  | join threshold => exact h.quiet hq (.enforce _ threshold)
  | arrive clears => exact h.quiet hq (.refl _)
  | intern w => exact h.quiet hq (.intern _ w)
  | clear => exact h.quiet hq (Or.inl rfl)
  | enforce threshold => exact h.quiet hq (.enforce _ threshold)

theorem settled_run (acts : List Pool.Act) : (run sims grammar acts).Settled sims := by
  unfold run
  refine List.foldlRecOn acts _ ⟨.cleared 0, by simp⟩ ?_
  intro p hp a _
  exact hp.act a

end Commons

/-- After any steps of anybody, a recognizer is given the first answer to its question if
there is one, and what its own grammar gives otherwise. So it is given what its own grammar
gives if and only if this is the first answer or there is none; in particular where every
grammar that asked the same found nothing or the same. -/
theorem Commons.run_gives_first {γ : Type} (sims : γ → Nat → Lookahead → Option Nat)
    (grammar : Nat → γ) (acts : List Pool.Act) {m : Nat} {r : Recognizer}
    (hr : (Commons.run sims grammar acts).members[m]? = some r) (d : Nat) (w : Lookahead) :
    let p := Commons.run sims grammar acts
    let own := sims (grammar m) d w
    let given := (r.predict p.cache d w (sims (grammar m) d)).1
    given = (firstFound sims p.asked d w).or own ∧
      (given = own ↔ ∀ a, firstFound sims p.asked d w = some a → own = some a) ∧
      ((∀ q ∈ p.asked, q.2 = (d, w) → sims q.1 d w = none ∨ sims q.1 d w = own) →
        given = own) := by
  intro p own given
  have h : p.Settled sims := Commons.settled_run acts
  have hsync : r.Synced p.cache := h.synced r (List.mem_of_getElem? hr)
  have hgiven : given = (firstFound sims p.asked d w).or own :=
    (Recognizer.predict_table h.tabulates hsync d w _).1
  have hiff : given = own ↔ ∀ a, firstFound sims p.asked d w = some a → own = some a := by
    rw [hgiven]
    cases firstFound sims p.asked d w with
    | none => simp
    | some a => simp [eq_comm]
  refine ⟨hgiven, hiff, fun hagree => hiff.mpr fun a ha => ?_⟩
  obtain ⟨q, hq, hqa⟩ := List.exists_of_findSome?_eq_some ha
  split at hqa
  · next hkey =>
    rcases hagree q hq hkey with hnone | hsame
    · rw [hnone] at hqa
      cases hqa
    · exact hsame.symm.trans hqa
  · cases hqa

/-- Calc beside a grammar that takes the second alternative everywhere, which has decided
something else before. -/
theorem Commons.run_gives_first_apart :
    let sims (g : Bool) := if g then Calc.simulate else fun _ _ => some 2
    let p := Commons.run sims (· == 1) [.join 10, .join 10, .predict 0 1 [Calc.ident, Calc.assign]]
    ∃ r, p.members[1]? = some r ∧
      (r.predict p.cache 0 [Calc.ident, Calc.assign] (Calc.simulate 0)).1 = some 1 := by
  intro sims p
  have hr : p.members[1]? = some ⟨0, {}⟩ := rfl
  obtain ⟨-, -, hown⟩ :=
    Commons.run_gives_first sims (· == 1) _ hr 0 [Calc.ident, Calc.assign]
  have hasked : p.asked = [(false, 1, [Calc.ident, Calc.assign])] := rfl
  refine ⟨_, hr, hown fun q hq hkey => ?_⟩
  rw [hasked, List.mem_singleton] at hq
  subst hq
  cases hkey

/-- Once such a grammar has decided the same, calc takes an assignment for an expression,
and reports an error in a text that has none. -/
theorem Commons.grammars_interfere :
    let sims (g : Bool) := if g then Calc.simulate else fun _ _ => some 2
    let p := Commons.run sims (· == 1) [.join 10, .join 10, .predict 0 0 [Calc.ident, Calc.assign]]
    let errors (c : SharedCache) := (Calc.parse {} "x=1" c).1.toOption.map ParseOutput.errorCount
    (∃ r, p.members[1]? = some r ∧ Calc.simulate 0 [Calc.ident, Calc.assign] = some 1 ∧
      (r.predict p.cache 0 [Calc.ident, Calc.assign] (Calc.simulate 0)).1 = some 2) ∧
    errors .fresh = some 0 ∧ errors (.available p.cache) = some 1 := by
  refine ⟨⟨⟨0, {}⟩, rfl, rfl, rfl⟩, ?_, ?_⟩ <;> decide +kernel

end Descent
