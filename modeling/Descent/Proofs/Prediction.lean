import Descent.Prediction

/-! A cache into which nobody records from outside predicts what simulation
would: the number of a context stands for one lookahead only, and what is
recorded for it is what simulation gave there. A recognizer may keep the numbers
it knows as long as the cache stays in one generation. -/

namespace Descent

namespace PredictionCache

/-- What is recorded for a context is what `sim` gives for its lookahead. -/
structure Faithful (sim : Nat → Lookahead → Option Nat) (c : PredictionCache) : Prop where
  bounded : ∀ (w : Lookahead) (id : Nat), c.contexts[w]? = some id → id < c.size
  injective : ∀ (w w' : Lookahead) (id : Nat), c.contexts[w]? = some id →
    c.contexts[w']? = some id → w = w'
  simulated : ∀ d id a, c.prediction? d id = some a →
    ∃ w : Lookahead, c.contexts[w]? = some id ∧ sim d w = some a

/-- A later cache has all contexts of an earlier one of its generation. -/
structure Grows (c c' : PredictionCache) : Prop where
  generation : c.generation ≤ c'.generation
  contexts : c'.generation = c.generation →
    ∀ (w : Lookahead) (id : Nat), c.contexts[w]? = some id → c'.contexts[w]? = some id

namespace Grows

theorem refl (c : PredictionCache) : Grows c c := ⟨Nat.le_refl _, fun _ _ _ h => h⟩

theorem trans {a b c : PredictionCache} (h : Grows a b) (h' : Grows b c) : Grows a c := by
  refine ⟨Nat.le_trans h.generation h'.generation, fun he w id hw => ?_⟩
  have hab := h.generation
  have hbc := h'.generation
  exact h'.contexts (by omega) w id (h.contexts (by omega) w id hw)

theorem clear (c : PredictionCache) : Grows c c.clear :=
  ⟨Nat.le_succ _, fun he => absurd he (Nat.succ_ne_self _)⟩

theorem enforce (threshold : Nat) (c : PredictionCache) : Grows c (c.enforce threshold).2 := by
  unfold PredictionCache.enforce
  split
  · exact refl c
  · exact clear c

end Grows

variable {sim : Nat → Lookahead → Option Nat}

theorem Faithful.cleared (sim : Nat → Lookahead → Option Nat) (generation : Nat) :
    Faithful sim { generation := generation } where
  bounded := by simp
  injective := by simp
  simulated := by simp [prediction?]

theorem Faithful.enforce {c : PredictionCache} (h : Faithful sim c) (threshold : Nat) :
    Faithful sim (c.enforce threshold).2 := by
  unfold PredictionCache.enforce
  split
  · exact h
  · exact .cleared sim _

theorem contexts_insert (c : PredictionCache) (w w' : Lookahead) (id : Nat) :
    (c.contexts.insert w id)[w']? = if w = w' then some id else c.contexts[w']? := by
  rw [Std.TreeMap.getElem?_insert]
  simp only [Std.LawfulEqCmp.compare_eq_iff_eq]

theorem prediction?_record (c : PredictionCache) (d id a d' id' : Nat) :
    (c.record d id a).prediction? d' id' =
      if (d, id) = (d', id') then some a else c.prediction? d' id' := by
  unfold prediction? record
  rw [Std.TreeMap.getElem?_insert]
  simp only [Std.LawfulEqCmp.compare_eq_iff_eq]

theorem contexts_size_insert {c : PredictionCache} {w : Lookahead} (hw : c.contexts[w]? = none)
    (id : Nat) : (c.contexts.insert w id).size = c.size + 1 := by
  rw [Std.TreeMap.size_insert, if_neg]
  · rfl
  · rw [Std.TreeMap.contains_eq_isSome_getElem?, hw]
    simp

/-- A new context takes a number that no context has. -/
theorem Faithful.insert {c : PredictionCache} (h : Faithful sim c) {w : Lookahead}
    (hw : c.contexts[w]? = none) :
    Faithful sim { c with contexts := c.contexts.insert w c.size } := by
  refine ⟨?_, ?_, ?_⟩
  · intro v id hv
    show id < (c.contexts.insert w c.size).size
    rw [contexts_size_insert hw]
    rw [contexts_insert] at hv
    split at hv
    · cases hv
      omega
    · have := h.bounded v id hv
      omega
  · intro v v' id hv hv'
    rw [contexts_insert] at hv hv'
    split at hv
    · next e =>
      split at hv'
      · next e' => rw [← e, ← e']
      · cases hv
        exact absurd (h.bounded v' _ hv') (Nat.lt_irrefl _)
    · split at hv'
      · cases hv'
        exact absurd (h.bounded v _ hv) (Nat.lt_irrefl _)
      · exact h.injective v v' id hv hv'
  · intro d id a ha
    obtain ⟨v, hv, hs⟩ := h.simulated d id a ha
    refine ⟨v, ?_, hs⟩
    rw [contexts_insert, if_neg]
    · exact hv
    · rintro rfl
      rw [hw] at hv
      cases hv

theorem Grows.insert {c : PredictionCache} {w : Lookahead} (hw : c.contexts[w]? = none)
    (id : Nat) : Grows c { c with contexts := c.contexts.insert w id } := by
  refine ⟨Nat.le_refl _, fun _ v i hv => ?_⟩
  rw [contexts_insert, if_neg]
  · exact hv
  · rintro rfl
    rw [hw] at hv
    cases hv

theorem Grows.intern (c : PredictionCache) (w : Lookahead) : Grows c (c.intern w).2 := by
  unfold PredictionCache.intern
  split
  · exact .refl c
  · next hnone => exact .insert hnone _

/-- The number that interning gives is the one in the table from then on. -/
theorem contexts_intern (c : PredictionCache) (w : Lookahead) :
    (c.intern w).2.contexts[w]? = some (c.intern w).1 := by
  unfold intern
  split
  · next hid => exact hid
  · rw [contexts_insert, if_pos rfl]

theorem intern_generation (c : PredictionCache) (w : Lookahead) :
    (c.intern w).2.generation = c.generation := by
  unfold intern
  split <;> rfl

theorem intern_spec {c : PredictionCache} (h : Faithful sim c) (w : Lookahead) :
    (c.intern w).2.contexts[w]? = some (c.intern w).1 ∧ Faithful sim (c.intern w).2 ∧
      Grows c (c.intern w).2 ∧ (c.intern w).2.generation = c.generation := by
  refine ⟨contexts_intern c w, ?_, .intern c w, intern_generation c w⟩
  unfold intern
  split
  · exact h
  · next hnone => exact h.insert hnone

theorem Faithful.record {c : PredictionCache} (h : Faithful sim c) {d id a : Nat} {w : Lookahead}
    (hw : c.contexts[w]? = some id) (ha : sim d w = some a) : Faithful sim (c.record d id a) := by
  refine ⟨h.bounded, h.injective, fun d' id' a' hp => ?_⟩
  rw [prediction?_record] at hp
  split at hp
  · next e =>
    cases hp
    cases e
    exact ⟨w, hw, ha⟩
  · exact h.simulated d' id' a' hp

theorem Grows.record (c : PredictionCache) (d id a : Nat) : Grows c (c.record d id a) :=
  ⟨Nat.le_refl _, fun _ _ _ h => h⟩

end PredictionCache

namespace Recognizer

open PredictionCache

/-- A recognizer does not run ahead of the cache, and what it knows of the
current generation is so. -/
structure Synced (r : Recognizer) (c : PredictionCache) : Prop where
  generation : r.generation ≤ c.generation
  known : r.generation = c.generation →
    ∀ (w : Lookahead) (id : Nat), r.known[w]? = some id → c.contexts[w]? = some id

namespace Synced

theorem grow {r : Recognizer} {c c' : PredictionCache} (h : Synced r c) (hg : Grows c c') :
    Synced r c' := by
  refine ⟨Nat.le_trans h.generation hg.generation, fun he w id hw => ?_⟩
  have hr := h.generation
  have hc := hg.generation
  exact hg.contexts (by omega) w id (h.known (by omega) w id hw)

theorem blank (c : PredictionCache) : Synced { generation := c.generation } c :=
  ⟨Nat.le_refl _, by simp⟩

theorem refresh {r : Recognizer} {c : PredictionCache} (h : Synced r c) :
    Synced (r.refresh c) c ∧ (r.refresh c).generation = c.generation := by
  unfold Recognizer.refresh
  split
  · next he => exact ⟨h, he⟩
  · exact ⟨blank c, rfl⟩

end Synced

variable {sim : Nat → Lookahead → Option Nat}

theorem start_spec {c : PredictionCache} (h : Faithful sim c) (threshold : Nat) :
    Faithful sim (start threshold c).2 ∧ Synced (start threshold c).1 (start threshold c).2 ∧
      Grows c (start threshold c).2 :=
  ⟨h.enforce threshold, .blank _, .enforce threshold c⟩

theorem locate_spec {r : Recognizer} {c : PredictionCache} (h : Faithful sim c)
    (hr : Synced r c) (w : Lookahead) :
    (r.locate c w).2.2.contexts[w]? = some (r.locate c w).1 ∧
      Faithful sim (r.locate c w).2.2 ∧ Synced (r.locate c w).2.1 (r.locate c w).2.2 ∧
      Grows c (r.locate c w).2.2 := by
  obtain ⟨hs, he⟩ := hr.refresh
  unfold locate context
  split
  · next id hid => exact ⟨hs.known he w id hid, h, hs, .refl c⟩
  · next hnone =>
    obtain ⟨hw, hf, hg, hgen⟩ := intern_spec h w
    refine ⟨hw, hf, ⟨?_, ?_⟩, hg⟩
    · exact (hs.grow hg).generation
    · intro _ v id hv
      have hv : ((r.refresh c).known.insert w (c.intern w).1)[v]? = some id := hv
      rw [Std.TreeMap.getElem?_insert] at hv
      simp only [Std.LawfulEqCmp.compare_eq_iff_eq] at hv
      split at hv
      · next e =>
        cases hv
        exact e ▸ hw
      · exact (hs.grow hg).known (he.trans hgen.symm) v id hv

/-- Whether it comes from the cache or not, a prediction is what simulation
gives. -/
theorem predict_spec {r : Recognizer} {c : PredictionCache} (h : Faithful sim c)
    (hr : Synced r c) (d : Nat) (w : Lookahead) :
    (r.predict c d w (sim d)).1 = sim d w ∧
      Faithful sim (r.predict c d w (sim d)).2.2 ∧
      Synced (r.predict c d w (sim d)).2.1 (r.predict c d w (sim d)).2.2 ∧
      Grows c (r.predict c d w (sim d)).2.2 := by
  obtain ⟨hw, hf, hs, hg⟩ := locate_spec h hr w
  simp only [predict]
  split
  · next a ha =>
    obtain ⟨v, hv, hsim⟩ := hf.simulated d _ a ha
    have hsame : v = w := hf.injective v w _ hv hw
    exact ⟨hsame ▸ hsim.symm, hf, hs, hg⟩
  · split
    · next hnone => exact ⟨hnone.symm, hf, hs, hg⟩
    · next a ha =>
      exact ⟨ha.symm, hf.record hw ha, hs.grow (.record _ d _ a), hg.trans (.record _ d _ a)⟩

end Recognizer

end Descent
