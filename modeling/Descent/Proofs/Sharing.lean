import Descent.Proofs.Prediction

/-! Recognizers that share one cache. Whatever they do to it, in whatever order,
and whoever else interns lookaheads or clears it meanwhile, each of them predicts
what simulation gives. What carries this is that the numbers a recognizer knows
are those of the cache as long as both are of one generation, and generations are
never used twice. -/

namespace Descent

/-- A cache and the recognizers that were made over it. -/
structure Pool where
  cache : PredictionCache := .empty
  members : List Recognizer := []

/-- What anybody may do to a shared cache in one step. -/
inductive Pool.Act where
  /-- A recognizer is made, under a guard. -/
  | join (threshold : Nat)
  /-- A recognizer is made that read the generation so many clears ago: others
  came in between its guard and its look at the cache. -/
  | arrive (clears : Nat)
  | predict (member decision : Nat) (w : Lookahead)
  | intern (w : Lookahead)
  | clear
  | enforce (threshold : Nat)
  deriving DecidableEq, Repr

namespace Pool

open PredictionCache Recognizer

variable (sim : Nat → Lookahead → Option Nat)

/-- The pool after one step, where `sim d` simulates the decision `d`. -/
def act (p : Pool) : Act → Pool
  | .join threshold =>
    let (r, c) := Recognizer.start threshold p.cache
    ⟨c, p.members ++ [r]⟩
  | .arrive clears =>
    { p with members := p.members ++ [{ generation := p.cache.generation - clears }] }
  | .predict member decision w =>
    match p.members[member]? with
    | none => p
    | some r =>
      let (_, r, c) := r.predict p.cache decision w (sim decision)
      ⟨c, p.members.set member r⟩
  | .intern w => { p with cache := (p.cache.intern w).2 }
  | .clear => { p with cache := p.cache.clear }
  | .enforce threshold => { p with cache := (p.cache.enforce threshold).2 }

/-- The pool after some steps, from an empty cache that nobody uses yet. -/
def run (acts : List Act) : Pool := acts.foldl (act sim) {}

/-- The cache holds what simulation gives, and nobody knows a wrong number. -/
structure InOrder (p : Pool) : Prop where
  faithful : p.cache.Faithful sim
  synced : ∀ r ∈ p.members, r.Synced p.cache

variable {sim}

theorem InOrder.grow {p : Pool} (h : p.InOrder sim) {c : PredictionCache}
    (hc : c.Faithful sim) (hg : p.cache.Grows c) : InOrder sim ⟨c, p.members⟩ :=
  ⟨hc, fun r hr => (h.synced r hr).grow hg⟩

theorem InOrder.add {p : Pool} (h : p.InOrder sim) {r : Recognizer} (hr : r.Synced p.cache) :
    InOrder sim ⟨p.cache, p.members ++ [r]⟩ := by
  refine ⟨h.faithful, fun r' hr' => ?_⟩
  rcases List.mem_append.1 hr' with hr' | hr'
  · exact h.synced r' hr'
  · rw [List.mem_singleton.1 hr']
    exact hr

theorem InOrder.act {p : Pool} (h : p.InOrder sim) (a : Act) : (p.act sim a).InOrder sim := by
  cases a with
  | join threshold =>
    obtain ⟨hf, hs, hg⟩ := start_spec h.faithful threshold
    exact (h.grow hf hg).add hs
  | arrive clears => exact h.add ⟨Nat.sub_le _ _, by simp⟩
  | predict member decision w =>
    simp only [Pool.act]
    split
    · exact h
    · next r hr =>
      have hsync := h.synced r (List.mem_of_getElem? hr)
      obtain ⟨-, hf, hs, hg⟩ := predict_spec h.faithful hsync decision w
      refine ⟨hf, fun r' hr' => ?_⟩
      rcases List.mem_or_eq_of_mem_set hr' with hr' | rfl
      · exact (h.synced r' hr').grow hg
      · exact hs
  | intern w =>
    obtain ⟨-, hf, hg, -⟩ := intern_spec h.faithful w
    exact h.grow hf hg
  | clear => exact h.grow (.cleared sim _) (.clear _)
  | enforce threshold => exact h.grow (h.faithful.enforce threshold) (.enforce threshold _)

theorem inOrder_run (sim : Nat → Lookahead → Option Nat) (acts : List Act) :
    (run sim acts).InOrder sim := by
  unfold run
  refine List.foldlRecOn acts _ ⟨.cleared sim 0, by simp⟩ ?_
  intro p hp a _
  exact hp.act a

end Pool

/-- Where simulation finds no alternative, none is recorded. -/
theorem PredictionCache.Faithful.unrecorded {sim : Nat → Lookahead → Option Nat}
    {c : PredictionCache} (h : c.Faithful sim) {d id : Nat} {w : Lookahead}
    (hw : c.contexts[w]? = some id) (hsim : sim d w = none) : c.prediction? d id = none := by
  cases hp : c.prediction? d id with
  | none => rfl
  | some a =>
    obtain ⟨v, hv, ha⟩ := h.simulated d id a hp
    rw [h.injective v w id hv hw, hsim] at ha
    cases ha

/-- Looking up a lookahead adds at most that one. -/
theorem Recognizer.locate_cases (r : Recognizer) (c : PredictionCache) (w : Lookahead) :
    (r.locate c w).2.2 = c ∨
      (r.locate c w).2.2 = { c with contexts := c.contexts.insert w c.size } := by
  unfold locate context
  split
  · exact Or.inl rfl
  · simp only [PredictionCache.intern]
    split
    · exact Or.inl rfl
    · exact Or.inr rfl

theorem Recognizer.locate_decisions (r : Recognizer) (c : PredictionCache) (w : Lookahead) :
    (r.locate c w).2.2.decisions = c.decisions := by
  rcases r.locate_cases c w with h | h <;> rw [h]

theorem Recognizer.locate_generation (r : Recognizer) (c : PredictionCache) (w : Lookahead) :
    (r.locate c w).2.2.generation = c.generation := by
  rcases r.locate_cases c w with h | h <;> rw [h]

/-- A prediction that comes to nothing records nothing. -/
theorem Recognizer.predict_none {r : Recognizer} {c : PredictionCache} {d : Nat} {w : Lookahead}
    {simulate : Lookahead → Option Nat} (h : (r.predict c d w simulate).1 = none) :
    (r.predict c d w simulate).2.2.decisions = c.decisions := by
  unfold predict at h ⊢
  dsimp only at h ⊢
  split
  · next ha => simp [ha] at h
  · next hp =>
    simp only [hp] at h
    split
    · exact r.locate_decisions c w
    · next hs => simp [hs] at h

theorem Recognizer.predict_contexts (r : Recognizer) (c : PredictionCache) (d : Nat)
    (w : Lookahead) (simulate : Lookahead → Option Nat) :
    (r.predict c d w simulate).2.2.contexts = (r.locate c w).2.2.contexts := by
  unfold predict
  dsimp only
  split
  · rfl
  · split <;> rfl

/-- A prediction does not clear the cache. -/
theorem Recognizer.predict_generation (r : Recognizer) (c : PredictionCache) (d : Nat)
    (w : Lookahead) (simulate : Lookahead → Option Nat) :
    (r.predict c d w simulate).2.2.generation = c.generation := by
  rw [← r.locate_generation c w]
  unfold predict
  dsimp only
  split
  · rfl
  · split <;> rfl

/-- After any steps of anybody, every recognizer predicts what simulation gives,
an outcome without an alternative is not recorded, neither by the call that had it
nor ever, and a recognizer of the cache's generation knows only what the cache
knows. -/
theorem Pool.run_predicts (sim : Nat → Lookahead → Option Nat) (acts : List Pool.Act)
    {r : Recognizer} (hr : r ∈ (Pool.run sim acts).members) :
    (∀ d w, (r.predict (Pool.run sim acts).cache d w (sim d)).1 = sim d w) ∧
      (∀ d w, sim d w = none →
        let c := (r.predict (Pool.run sim acts).cache d w (sim d)).2.2
        c.decisions = (Pool.run sim acts).cache.decisions ∧
          ∃ id, c.contexts[w]? = some id ∧ c.prediction? d id = none) ∧
      (∀ d w id, (Pool.run sim acts).cache.contexts[w]? = some id → sim d w = none →
        (Pool.run sim acts).cache.prediction? d id = none) ∧
      (r.generation = (Pool.run sim acts).cache.generation → ∀ (w : Lookahead) (id : Nat),
        r.known[w]? = some id → (Pool.run sim acts).cache.contexts[w]? = some id) := by
  have h := Pool.inOrder_run sim acts
  have hs := h.synced r hr
  refine ⟨fun d w => (Recognizer.predict_spec h.faithful hs d w).1, fun d w hn => ?_,
    fun d w id hw hn => h.faithful.unrecorded hw hn, hs.known⟩
  obtain ⟨he, hf, -, -⟩ := Recognizer.predict_spec h.faithful hs d w
  obtain ⟨hw, -⟩ := Recognizer.locate_spec h.faithful hs w
  rw [← Recognizer.predict_contexts r _ d w (sim d)] at hw
  exact ⟨Recognizer.predict_none (he.trans hn), _, hw, hf.unrecorded hw hn⟩

/-- The number that a recognizer knows for one lookahead has come to stand for
another, since the cache was cleared behind its back. -/
theorem Pool.run_predicts_stale :
    let sim : Nat → Lookahead → Option Nat := fun _ w => if w = [1] then some 7 else none
    let p := Pool.run sim [.join 10, .predict 0 5 [1], .clear, .arrive 1, .intern [2]]
    ∃ r ∈ p.members, r.known[([1] : Lookahead)]? = some 0 ∧
      p.cache.contexts[([2] : Lookahead)]? = some 0 ∧
      (r.predict p.cache 5 [1] (sim 5)).1 = some 7 ∧
      (r.predict p.cache 5 [2] (sim 5)).1 = none := by
  intro sim p
  have hr : (Recognizer.mk 0 (({} : Std.TreeMap Lookahead Nat).insert [1] 0)) ∈ p.members :=
    List.mem_cons_self
  obtain ⟨hpredict, -⟩ := Pool.run_predicts sim _ hr
  exact ⟨_, hr, rfl, rfl, hpredict 5 [1], hpredict 5 [2]⟩

end Descent
