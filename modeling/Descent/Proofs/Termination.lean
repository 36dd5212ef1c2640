import Descent.Proofs.Rounds

/-! Every parse on a cache that nobody records into comes to its end. Such a
cache predicts what simulation gives, since all that others do to it, parses
included, keeps it so. -/

namespace Descent.Calc

open Descent.Parser

/-- Before a program's round `k`, the rounds before it done. -/
def programState (s : ParserState) (k : Nat) : ParserState :=
  (round (s.maxDepth - s.depth - 1))^[k] (s.openRule .empty)

variable {c₀ : PredictionCache}

theorem Idle.sound {s : ParserState} (h : Idle s) (ht : Trusts simulate c₀ s) :
    Sound c₀ (s.maxDepth - s.depth - 1) (s.openRule .empty) := by
  have hd := h.depth_lt
  have hlevels : s.maxDepth - s.depth = s.maxDepth - s.depth - 1 + 1 := by omega
  exact Sound.openRule ⟨⟨h.ok, hlevels⟩, ht⟩ .empty

/-- A program on a cache that can be trusted makes its rounds and returns. -/
theorem parseRule_program_eq {s : ParserState} (h : Idle s) (ht : Trusts simulate c₀ s) {k : Nat}
    (hk : k ≤ 2 * s.rest.length) (hne : ∀ j < k, (programState s j).current.type ≠ eof)
    (heof : (programState s k).current.type = eof) :
    parseRule .program s = (.ok (.node Rule.program.index s.index false (programState s k).slots),
      ((programState s k).reach 1).closeRule s) := by
  have hd := h.depth_lt
  have hlevels : s.maxDepth - s.depth = s.maxDepth - s.depth - 1 + 1 := by omega
  have hfuel : k < 2 * (s.openRule .empty).buffer.remaining + 1 := by
    have hrest : s.rest.length ≤ s.buffer.remaining := h.ok.buffer.rest_le
    show k < 2 * s.buffer.remaining + 1
    omega
  have hloop := programLoop_eq (h.sound ht) hne heof _ hfuel
  unfold invoker at hloop
  unfold parseRule
  rw [hlevels]
  simp only [invokeWithin, rule_of_lt hd, body, programBody, get_bind, hloop, finishRule]
  rfl

/-- Where the loop of a program stops. -/
theorem programState_end {s : ParserState} (h : Idle s) (ht : Trusts simulate c₀ s) :
    ∃ k ≤ 2 * s.rest.length, (∀ j < k, (programState s j).current.type ≠ eof) ∧
      (programState s k).current.type = eof := by
  obtain ⟨k, hk, hne, heof⟩ := rounds_end (h.sound ht)
  refine ⟨k, Nat.le_trans hk ?_, hne, heof⟩
  show budget (s.openRule .empty) ≤ 2 * (s.openRule .empty).rest.length
  unfold budget
  omega

/-- On a cache that can be trusted every rule returns a tree. -/
theorem parseRule_returns {s : ParserState} (h : Idle s) (ht : Trusts simulate c₀ s) (r : Rule) :
    ∃ tree t, parseRule r s = (.ok tree, t) := by
  by_cases hr : r = .program
  · subst hr
    obtain ⟨k, hk, hne, heof⟩ := programState_end h ht
    exact ⟨_, _, parseRule_program_eq h ht hk hne heof⟩
  · obtain ⟨tree, t, he, -⟩ := invokeWithin_invoked _ hr .empty ⟨h.ok, rfl⟩
    exact ⟨tree, t, he⟩

/-- What a rule leaves of an idle parser. -/
theorem parseRule_kept {s t : ParserState} {r : Rule} {tree : RawTree} (h : Idle s)
    (ht : Trusts simulate c₀ s) (he : parseRule r s = (.ok tree, t)) :
    Idle t ∧ Trusts simulate c₀ t ∧ t.buffer.whole = s.buffer.whole := by
  have hrun := parseRule_run h.ok he
  have hk := hrun.kept h.ok
  have hidle := h.kept hk
  refine ⟨⟨⟨hidle.ok.buffer, hidle.ok.cache⟩, hidle.follow, hidle.maxDepth, hidle.lexed⟩, ?_,
    hk.whole⟩
  exact (hrun.trusts decisions_simulate h.ok ht).of_eq rfl rfl

theorem fresh_trusts {c : PredictionCache} (h : c.Faithful simulate) (threshold depth : Nat)
    (source : String) (stalls : Nat → Bool) :
    Trusts simulate c (fresh threshold depth source stalls c) := by
  obtain ⟨hf, -, hg⟩ := Recognizer.start_spec h threshold
  obtain ⟨hf', hs', hg'⟩ := Recognizer.start_spec hf threshold
  exact ⟨_, rfl, hf', hs', hg.trans hg'⟩

/-- What may be done to a cache without recording into it from outside: `d` has
become of `c`. -/
inductive Uses (c : PredictionCache) : PredictionCache → Prop where
  | none : Uses c c
  | intern {d : PredictionCache} (w : Lookahead) : Uses c d → Uses c (d.intern w).2
  | clear {d : PredictionCache} : Uses c d → Uses c d.clear
  | enforce {d : PredictionCache} (threshold : Nat) : Uses c d → Uses c (d.enforce threshold).2
  | tokenize {d e : PredictionCache} (settings : Settings) (source : String)
      (stalls : Nat → Bool) : Uses c d →
      (tokenizeFrom settings (.ofString source stalls) (.available d)).2 = .available e →
      Uses c e
  | parse {d e : PredictionCache} (settings : Settings) (source : String)
      (stalls : Nat → Bool) : Uses c d →
      (parseFrom settings (.ofString source stalls) (.available d)).2 = .available e →
      Uses c e

/-- A cache into which nobody has recorded from outside. -/
def Coherent (c : PredictionCache) : Prop := Uses .empty c

theorem tokenizeFrom_cache (settings : Settings) (lexer : Lexer) (c : PredictionCache) :
    (tokenizeFrom settings lexer (.available c)).2 =
      .available (Recognizer.start settings.cacheThreshold c).2 := by
  unfold tokenizeFrom
  dsimp only
  split <;> rfl

theorem parseFrom_cache {c e : PredictionCache} (h : c.Faithful simulate) (settings : Settings)
    (source : String) (stalls : Nat → Bool)
    (he : (parseFrom settings (.ofString source stalls) (.available c)).2 = .available e) :
    e.Faithful simulate ∧ c.Grows e := by
  have hidle := fresh_idle settings.cacheThreshold settings.maxRuleDepth source stalls c
  have ht := fresh_trusts h settings.cacheThreshold settings.maxRuleDepth source stalls
  have hcache : ∃ s : ParserState, Trusts simulate c s ∧ s.cache = .available e := by
    simp only [parseFrom] at he
    split at he
    · exact ⟨_, ht, he⟩
    · next r _ =>
      obtain ⟨tree, t, hr⟩ := parseRule_returns hidle ht r
      have hr' : parseRule r ((newParser settings.cacheThreshold (.ofString source stalls)
        c).setMaxDepth settings.maxRuleDepth) = (.ok tree, t) := hr
      rw [hr'] at he
      exact ⟨t, (parseRule_kept hidle ht hr).2.1, he⟩
  obtain ⟨s, ⟨c', hc', hf, -, hg⟩, hs⟩ := hcache
  obtain rfl : c' = e := SharedCache.available.inj (hc'.symm.trans hs)
  exact ⟨hf, hg⟩

/-- Whatever is done to a cache without recording into it keeps it faithful. -/
theorem Uses.faithful {c d : PredictionCache} (h : Uses c d) (hc : c.Faithful simulate) :
    d.Faithful simulate ∧ c.Grows d := by
  induction h with
  | none => exact ⟨hc, .refl c⟩
  | intern w _ ih =>
    obtain ⟨-, hf, hg, -⟩ := PredictionCache.intern_spec ih.1 w
    exact ⟨hf, ih.2.trans hg⟩
  | clear _ ih => exact ⟨.cleared simulate _, ih.2.trans (.clear _)⟩
  | enforce threshold _ ih => exact ⟨ih.1.enforce threshold, ih.2.trans (.enforce threshold _)⟩
  | tokenize settings source stalls _ he ih =>
    rw [tokenizeFrom_cache] at he
    obtain rfl := SharedCache.available.inj he
    obtain ⟨hf, -, hg⟩ := Recognizer.start_spec ih.1 settings.cacheThreshold
    exact ⟨hf, ih.2.trans hg⟩
  | parse settings source stalls _ he ih =>
    obtain ⟨hf, hg⟩ := parseFrom_cache ih.1 settings source stalls he
    exact ⟨hf, ih.2.trans hg⟩

theorem Coherent.faithful {c : PredictionCache} (h : Coherent c) : c.Faithful simulate :=
  (Uses.faithful h (.cleared simulate 0)).1

/-- The states a parser can be left in by calls, whether they return trees or
fail, while others use its cache without recording into it, and the nesting
limit may be set. -/
inductive Reached (s : ParserState) : ParserState → Prop where
  | start : Reached s s
  | share {t : ParserState} {c d : PredictionCache} :
      Reached s t → t.cache = .available c → Uses c d → Reached s (t.share d)
  | limit {t : ParserState} (depth : Nat) : Reached s t → Reached s (t.setMaxDepth depth)
  | call {t : ParserState} (index : Nat) : Reached s t → Reached s (invoke index t).2

theorem Reached.kept {s t : ParserState} (h : Reached s t) (hs : Idle s)
    (ht : Trusts simulate c₀ s) :
    Idle t ∧ Trusts simulate c₀ t ∧ t.buffer.whole = s.buffer.whole := by
  induction h with
  | start => exact ⟨hs, ht, rfl⟩
  | @share t c d _ hc hu ih =>
    obtain ⟨hidle, ⟨c', hc', hf, hsync, hg⟩, hw⟩ := ih
    obtain rfl : c' = c := SharedCache.available.inj (hc'.symm.trans hc)
    obtain ⟨hf', hg'⟩ := hu.faithful hf
    exact ⟨hidle.share d, ⟨d, rfl, hf', hsync.grow hg', hg.trans hg'⟩, hw⟩
  | limit depth _ ih =>
    obtain ⟨hidle, htrust, hw⟩ := ih
    exact ⟨hidle.limit depth, htrust.of_eq rfl rfl, hw⟩
  | @call t index _ ih =>
    obtain ⟨hidle, htrust, hw⟩ := ih
    unfold invoke
    cases hr : Rule.ofIndex? index with
    | none => exact ⟨hidle, htrust, hw⟩
    | some r =>
      obtain ⟨tree, u, he⟩ := parseRule_returns hidle htrust r
      obtain ⟨hidle', htrust', hw'⟩ := parseRule_kept hidle htrust he
      simp only [he]
      exact ⟨hidle', htrust', hw'.trans hw⟩

/-- On every cache that nobody records into and in every state that earlier calls
leave, a program ends. Its loop makes at most twice as many rounds as the text
has tokens, of any two in a row one moves the cursor, however many more it were
allowed it makes no more, and it stops at the end of the input only. -/
theorem program_ends (threshold depth : Nat) (source : String) (stalls : Nat → Bool)
    {c : PredictionCache} (hc : Coherent c) {s : ParserState}
    (h : Reached (fresh threshold depth source stalls c) s) :
    ∃ k ≤ 2 * (Buffer.ofSource (Lexer.ofString source stalls)).input.length,
      (∀ j < k, (programState s j).current.type ≠ eof) ∧
      (programState s k).current.type = eof ∧
      (∀ j, j + 2 ≤ k → (programState s j).index < (programState s (j + 2)).index) ∧
      (∀ fuel, k < fuel →
        programLoop (invoker (s.maxDepth - s.depth - 1)) fuel (s.openRule .empty) =
          (.ok (), (programState s k).reach 1)) ∧
      parseRule .program s =
        (.ok (.node Rule.program.index s.index false (programState s k).slots),
          ((programState s k).reach 1).closeRule s) := by
  have htrust := fresh_trusts hc.faithful threshold depth source stalls
  obtain ⟨hidle, ht, hw⟩ := h.kept (fresh_idle threshold depth source stalls c) htrust
  obtain ⟨k, hk, hne, heof⟩ := programState_end hidle ht
  have hsound := hidle.sound ht
  refine ⟨k, Nat.le_trans hk ?_, hne, heof, ?_, ?_, ?_⟩
  · have hin : s.buffer.input = (Buffer.ofSource (Lexer.ofString source stalls)).input :=
      Buffer.input_of_whole hw
    rw [State.rest, Buffer.rest, List.length_drop, hin]
    omega
  · exact rounds_advance hsound hne
  · exact fun fuel hf => programLoop_eq hsound hne heof fuel hf
  · exact parseRule_program_eq hidle ht hk hne heof

/-- A sign under a limit of one level: its statement is refused where it stands,
and the second time the sign is forced through. -/
theorem program_ends_sign :
    ∃ k ≤ 2 * (Buffer.ofSource (Lexer.ofString "+" never)).input.length,
      (programState (fresh 10 1 "+" never .empty) k).current.type = eof ∧
      ∀ j, j + 2 ≤ k → (programState (fresh 10 1 "+" never .empty) j).index <
        (programState (fresh 10 1 "+" never .empty) (j + 2)).index := by
  obtain ⟨k, hk, -, heof, hadv, -⟩ := program_ends 10 1 "+" never (c := .empty) Uses.none
    Reached.start
  exact ⟨k, hk, heof, hadv⟩

end Descent.Calc
