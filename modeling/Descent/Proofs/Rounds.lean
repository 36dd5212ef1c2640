import Descent.Proofs.Progress

/-! The loop of a program. Two rounds in a row move the cursor, so there are at
most twice as many rounds as there are tokens, and the loop ends, at the end of
the input and nowhere else. -/

namespace Descent.Calc

open Descent.Parser

variable {σ : Type} [TokenSource σ] {c₀ : PredictionCache} {levels : Nat}

/-- How rules are invoked with so many levels below them. -/
def invoker (levels : Nat) : Rule → TokenSet → Parser σ Unit :=
  fun r follow => attach (invokeWithin levels r follow)

/-- What one round of the loop does to the state. -/
def round (levels : Nat) (s : State σ) : State σ :=
  (programRound (invoker levels) (s.reach 1)).2

theorem round_spec {s : State σ} (h : Sound c₀ levels s) (hne : s.current.type ≠ eof) :
    programRound (invoker levels) (s.reach 1) = (.ok (), round levels s) ∧
    (∃ w, (w = [] ∨ w = [.rule Rule.statement.index]) ∧ Run grammar s w (round levels s)) ∧
    Advances s (round levels s) := by
  have hlook := Decided.look s 1
  obtain ⟨t, ht, w, hw, hr⟩ := programRound_run (invokeWithin_returns levels) (h.toAt.look 1)
    (hlook.current ▸ hne)
  have hround : round levels s = t := congrArg Prod.snd ht
  rw [hround]
  refine ⟨ht, ⟨w, hw, Run.trans hlook.run hr⟩, ?_⟩
  refine Advances.of_eq ?_ hlook.index.symm hlook.lastError.symm
  have hs := (h.look 1).look 1
  rw [programRound, next_bind] at ht
  split at ht
  · next hc =>
    -- The look before the statement is a look more, and changes nothing.
    have hadv : Advances ((s.reach 1).reach 1) t :=
      attach_advances (fun tree u => invokeWithin_advances levels hs (by simpa [Begins] using hc))
        ht
    exact hadv.of_eq (State.index_reach _ 1).symm rfl
  · obtain ⟨message, hm⟩ := skipExtraneous_eq expressionStart ((s.reach 1).reach 1)
    have ht : t = ((((s.reach 1).reach 1).reach 1).drop message) := by
      rw [hm] at ht
      exact (congrArg Prod.snd ht).symm
    have hi := State.drop_index (s := ((s.reach 1).reach 1).reach 1) (by simpa using hne) message
    simp only [State.index_reach] at hi
    left
    rw [ht, hi, State.index_reach]
    exact Nat.lt_succ_self _

theorem round_sound {s : State σ} (h : Sound c₀ levels s) (hne : s.current.type ≠ eof) :
    Sound c₀ levels (round levels s) := by
  obtain ⟨-, ⟨w, -, hr⟩, -⟩ := round_spec h hne
  exact h.run hr

/-- What the rounds come to is a run. -/
theorem rounds_run {s : State σ} (h : Sound c₀ levels s) (k : Nat)
    (hne : ∀ j < k, ((round levels)^[j] s).current.type ≠ eof) :
    ∃ w, Run grammar s w ((round levels)^[k] s) := by
  induction k with
  | zero => exact ⟨[], .refl s⟩
  | succ k ih =>
    obtain ⟨w, hr⟩ := ih fun j hj => hne j (by omega)
    obtain ⟨-, ⟨v, -, hr'⟩, -⟩ := round_spec (h.run hr) (hne k (by omega))
    rw [Function.iterate_succ_apply']
    exact ⟨w ++ v, hr.trans hr'⟩

/-- The state before each round of a loop that is still running. -/
theorem rounds_sound {s : State σ} (h : Sound c₀ levels s) (k : Nat)
    (hne : ∀ j < k, ((round levels)^[j] s).current.type ≠ eof) :
    Sound c₀ levels ((round levels)^[k] s) := by
  obtain ⟨w, hr⟩ := rounds_run h k hne
  exact h.run hr

/-- A bound on the rounds to come: two for every token, one less when the first
of them has failed already. -/
def budget (s : State σ) : Nat :=
  2 * s.rest.length - if s.lastError? = some s.index then 1 else 0

theorem budget_round {s : State σ} (h : Sound c₀ levels s) (hne : s.current.type ≠ eof) :
    budget (round levels s) < budget s := by
  obtain ⟨-, ⟨w, -, hr⟩, hadv⟩ := round_spec h hne
  have hk := hr.kept h.ok
  obtain ⟨ts, hrest⟩ := State.rest_eq_cons h.ok.buffer hne
  have hpos : 1 ≤ s.rest.length := by
    rw [hrest, List.length_cons]
    omega
  unfold budget
  rcases hadv with hlt | ⟨hi, hlast, hfirst⟩
  · have hless := rest_lt hk hlt
    split <;> split <;> omega
  · have hsame : (round levels s).rest = s.rest := by
      have hp : (round levels s).buffer.position = s.buffer.position := hi
      simp only [State.rest, Buffer.rest, hk.input, hp]
    rw [if_pos (by rw [hi]; exact hlast), if_neg hfirst, hsame]
    omega

/-- The loop comes to the end of the input. -/
theorem rounds_end {s : State σ} (h : Sound c₀ levels s) :
    ∃ k ≤ budget s, (∀ j < k, ((round levels)^[j] s).current.type ≠ eof) ∧
      ((round levels)^[k] s).current.type = eof := by
  induction hn : budget s using Nat.strong_induction_on generalizing s with
  | _ n ih =>
    by_cases he : s.current.type = eof
    · exact ⟨0, Nat.zero_le _, by simp, he⟩
    · have hlt := budget_round h he
      obtain ⟨k, hk, hne, heof⟩ := ih _ (hn ▸ hlt) (round_sound h he) rfl
      refine ⟨k + 1, by omega, fun j hj => ?_, ?_⟩
      · cases j with
        | zero => exact he
        | succ j =>
          rw [Function.iterate_succ_apply]
          exact hne j (by omega)
      · rw [Function.iterate_succ_apply]
        exact heof

/-- Two rounds in a row move the cursor. -/
theorem rounds_advance {s : State σ} (h : Sound c₀ levels s) {k : Nat}
    (hne : ∀ j < k, ((round levels)^[j] s).current.type ≠ eof) (j : Nat) (hj : j + 2 ≤ k) :
    ((round levels)^[j] s).index < ((round levels)^[j + 2] s).index := by
  have hs := rounds_sound h j fun i hi => hne i (by omega)
  have hs' := rounds_sound h (j + 1) fun i hi => hne i (by omega)
  obtain ⟨-, -, hfirst⟩ := round_spec hs (hne j (by omega))
  obtain ⟨-, ⟨w, -, hr⟩, hsecond⟩ := round_spec hs' (hne (j + 1) (by omega))
  rw [← Function.iterate_succ_apply' (round levels)] at hfirst
  rw [Function.iterate_succ_apply' (round levels) (j + 1)]
  exact hfirst.twice hsecond (hr.kept hs'.ok).index

/-- However many rounds it is given beyond those it needs, the loop makes these. -/
theorem programLoop_eq {s : State σ} (h : Sound c₀ levels s) {k : Nat}
    (hne : ∀ j < k, ((round levels)^[j] s).current.type ≠ eof)
    (heof : ((round levels)^[k] s).current.type = eof) (fuel : Nat) (hf : k < fuel) :
    programLoop (invoker levels) fuel s = (.ok (), ((round levels)^[k] s).reach 1) := by
  induction k generalizing s fuel with
  | zero =>
    obtain ⟨fuel, rfl⟩ := Nat.exists_eq_succ_of_ne_zero (Nat.ne_of_gt hf)
    rw [Function.iterate_zero_apply] at heof ⊢
    rw [programLoop, next_bind, if_pos heof]
    rfl
  | succ k ih =>
    obtain ⟨fuel, rfl⟩ := Nat.exists_eq_succ_of_ne_zero (Nat.ne_of_gt (Nat.zero_lt_of_lt hf))
    have hs : s.current.type ≠ eof := hne 0 (Nat.zero_lt_succ k)
    obtain ⟨hround, -, -⟩ := round_spec h hs
    rw [programLoop, next_bind, if_neg hs, bind_ok hround]
    rw [Function.iterate_succ_apply] at heof ⊢
    refine ih (round_sound h hs) (fun j hj => ?_) heof fuel (by omega)
    rw [← Function.iterate_succ_apply]
    exact hne (j + 1) (by omega)

end Descent.Calc
