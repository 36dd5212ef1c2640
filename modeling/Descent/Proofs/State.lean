import Descent.Parser.Rule
import Descent.Proofs.Buffer
import Descent.Proofs.TokenSet

/-! What the operations on a parser's state do to it, said in terms of the
current token and the rest of the input instead of what has been drawn so far.
Recovery attaches the tokens it skips as errors and stops at one at which some
open rule could go on. -/

namespace Descent.Parser.State

variable {σ : Type} [TokenSource σ]

/-- The current token, drawn already or not. -/
def current (s : State σ) : Token := s.buffer.ahead 1

/-- The tokens from the current one on, without the one that ends the input. -/
def rest (s : State σ) : List Token := s.buffer.rest

/-- A parser that can go on: its buffer is in order, and its cache there. -/
structure Ok (s : State σ) : Prop where
  buffer : s.buffer.WF
  cache : ∃ c, s.cache = .available c

@[simp]
theorem current_reach (s : State σ) (k : Nat) : (s.reach k).current = s.current :=
  Buffer.ahead_reach s.buffer k 1

@[simp]
theorem rest_reach (s : State σ) (k : Nat) : (s.reach k).rest = s.rest :=
  Buffer.rest_reach s.buffer k

@[simp]
theorem index_reach (s : State σ) (k : Nat) : (s.reach k).index = s.index :=
  Buffer.reach_position s.buffer k

theorem peek_reach (s : State σ) {j k : Nat} (hj : 1 ≤ j) (hk : j ≤ k) :
    (s.reach k).peek j = s.buffer.ahead j := Buffer.peek_reach s.buffer hj hk

theorem la_reach (s : State σ) {j k : Nat} (hj : 1 ≤ j) (hk : j ≤ k) :
    (s.reach k).la j = (s.buffer.ahead j).type := by
  unfold la
  rw [peek_reach s hj hk]

theorem peek_one (s : State σ) : (s.reach 1).peek 1 = s.current :=
  peek_reach s (Nat.le_refl 1) (Nat.le_refl 1)

theorem la_one (s : State σ) : (s.reach 1).la 1 = s.current.type :=
  la_reach s (Nat.le_refl 1) (Nat.le_refl 1)

theorem reach_reach (s : State σ) (k : Nat) : (s.reach k).reach k = s.reach k := by
  unfold reach
  rw [Buffer.reach_of_ready (Buffer.reach_ready s.buffer k)]

theorem Ok.reach {s : State σ} (h : s.Ok) (k : Nat) : (s.reach k).Ok :=
  ⟨h.buffer.reach k, h.cache⟩

theorem rest_eq_nil_iff {s : State σ} (h : s.buffer.WF) : s.rest = [] ↔ s.current.type = eof := by
  rw [current, h.ahead_eq_eof_iff]
  have hp := h.position_le_input
  simp only [rest, Buffer.rest, List.drop_eq_nil_iff]
  omega

theorem rest_eq_cons {s : State σ} (h : s.buffer.WF) (hne : s.current.type ≠ eof) :
    ∃ ts, s.rest = s.current :: ts := h.rest_of_ahead hne

/-- The errors after one more would be reported at a token. -/
def errorsAfter (s : State σ) (place : Token) (message : String) : List SyntaxError :=
  if s.recovering then s.errors else s.errors ++ [.report place.line place.column message]

omit [TokenSource σ] in
theorem report_eq (s : State σ) (place : Token) (message : String) :
    s.report place message =
      { s with recovering := true, errors := s.errorsAfter place message } := by
  unfold report errorsAfter
  split
  · next h => rw [← h]
  · rfl

theorem reportHere_eq (s : State σ) (message : String) :
    s.reportHere message = { s.reach 1 with
      recovering := true, errors := s.errorsAfter s.current message } := by
  simp only [reportHere, peek_one, report_eq]
  rfl

theorem consume_eq (s : State σ) (error : Bool) :
    s.consume error = { s with
      buffer := s.buffer.consume.2, slots := s.slots ++ [some (.leaf s.current error)] } := by
  unfold consume current
  rw [Buffer.consume_eq]
  rfl

/-- The current token is taken as it is. -/
def take (s : State σ) : State σ := { s with recovering := false }.consume false

/-- The current token is reported and dropped. -/
def drop (s : State σ) (message : String) : State σ := (s.reportHere message).consume true

/-- A token of type `x` made up in front of the current one. -/
def madeUp (s : State σ) (x : TokenType) (text : String) : Token :=
  { s.current with type := x, text := text, stop := s.current.start }

/-- A missing token is reported and made up. -/
def conjure (s : State σ) (x : TokenType) (text message : String) : State σ :=
  (s.reportHere message).attach (.leaf (s.madeUp x text) true)

/-- The state after a decision by the next `k` tokens. -/
def decide (s : State σ) (c : PredictionCache) (d k : Nat)
    (simulate : Lookahead → Option Nat) : State σ :=
  let s := s.reach k
  { s with
    recognizer := (s.recognizer.predict c d (s.buffer.types k) simulate).2.1
    cache := .available (s.recognizer.predict c d (s.buffer.types k) simulate).2.2 }

/-- A rule gives up: it reports at the current token and recovers. -/
def giveUp (s : State σ) (message : String) : State σ :=
  (s.report s.current message).recover

theorem reportError_recover {s : State σ} {e : RecognitionError} (h : e.token = s.current) :
    (s.reportError e).recover = s.giveUp (e.message s.vocabulary) := by
  rw [reportError, h, giveUp]

theorem take_eq (s : State σ) : s.take = { s with
    buffer := s.buffer.consume.2, recovering := false,
    slots := s.slots ++ [some (.leaf s.current false)] } := consume_eq _ _

theorem take_index {s : State σ} (h : s.current.type ≠ eof) : s.take.index = s.index + 1 := by
  rw [take_eq]
  exact (Buffer.consume_of_ne h).2.1

theorem drop_eq (s : State σ) (message : String) : s.drop message = { s with
    buffer := s.buffer.consume.2, recovering := true, errors := s.errorsAfter s.current message,
    slots := s.slots ++ [some (.leaf s.current true)] } := by
  rw [drop, consume_eq, reportHere_eq]
  simp only [State.current, State.reach, Buffer.consume_reach, Buffer.ahead_reach]

theorem drop_index {s : State σ} (h : s.current.type ≠ eof) (message : String) :
    (s.drop message).index = s.index + 1 := by
  rw [drop_eq]
  exact (Buffer.consume_of_ne h).2.1

theorem conjure_eq (s : State σ) (x : TokenType) (text message : String) :
    s.conjure x text message = { s.reach 1 with
      recovering := true, errors := s.errorsAfter s.current message,
      slots := s.slots ++ [some (.leaf (s.madeUp x text) true)] } := by
  rw [conjure, reportHere_eq]
  rfl

/-- Everything but the buffer, the slots and the place of the last error is as
it was. -/
structure SameParser (s t : State σ) : Prop where
  vocabulary : t.vocabulary = s.vocabulary
  cache : t.cache = s.cache
  recognizer : t.recognizer = s.recognizer
  follow : t.follow = s.follow
  recovering : t.recovering = s.recovering
  errors : t.errors = s.errors
  maxDepth : t.maxDepth = s.maxDepth

omit [TokenSource σ] in
theorem SameParser.trans {s t u : State σ} (h : SameParser s t) (h' : SameParser t u) :
    SameParser s u :=
  ⟨h'.vocabulary.trans h.vocabulary, h'.cache.trans h.cache, h'.recognizer.trans h.recognizer,
    h'.follow.trans h.follow, h'.recovering.trans h.recovering, h'.errors.trans h.errors,
    h'.maxDepth.trans h.maxDepth⟩

/-- `t` comes from `s` by skipping `n` tokens as errors. -/
structure Skipped (s : State σ) (n : Nat) (t : State σ) : Prop where
  same : SameParser s t
  buffer : t.buffer.WF
  whole : t.buffer.whole = s.buffer.whole
  index : t.index = s.index + n
  le : n ≤ s.rest.length
  slots : t.slots = s.slots ++ (s.rest.take n).map fun t => some (.leaf t true)

namespace Skipped

theorem refl {s : State σ} (h : s.buffer.WF) : Skipped s 0 s :=
  ⟨⟨rfl, rfl, rfl, rfl, rfl, rfl, rfl⟩, h, rfl, rfl, Nat.zero_le _, by simp⟩

theorem rest {s t : State σ} {n : Nat} (h : Skipped s n t) : t.rest = s.rest.drop n := by
  have hi : t.buffer.position = s.buffer.position + n := h.index
  simp only [State.rest, Buffer.rest, Buffer.input, h.whole, hi, List.drop_drop]

theorem trans {s t u : State σ} {n m : Nat} (h : Skipped s n t) (h' : Skipped t m u) :
    Skipped s (n + m) u := by
  have hr := h.rest
  have hle : m ≤ s.rest.length - n := by simpa [hr] using h'.le
  have hn := h.le
  refine ⟨h.same.trans h'.same, h'.buffer, h'.whole.trans h.whole, ?_, by omega, ?_⟩
  · rw [h'.index, h.index, Nat.add_assoc]
  · rw [h'.slots, h.slots, hr, List.take_add, List.map_append, List.append_assoc]

theorem reach {s : State σ} (h : s.buffer.WF) (k : Nat) : Skipped s 0 (s.reach k) := by
  refine ⟨⟨rfl, rfl, rfl, rfl, rfl, rfl, rfl⟩, h.reach k, Buffer.whole_reach _ k,
    index_reach s k, Nat.zero_le _, ?_⟩
  simp [State.reach]

theorem consume {s : State σ} (h : s.buffer.WF) (hne : s.current.type ≠ eof) :
    Skipped s 1 (s.consume true) := by
  obtain ⟨ts, hr⟩ := rest_eq_cons h hne
  obtain ⟨-, hp, hi⟩ := Buffer.consume_of_ne hne
  rw [consume_eq]
  refine ⟨⟨rfl, rfl, rfl, rfl, rfl, rfl, rfl⟩, h.consume, hi, hp, ?_, ?_⟩
  · simp [hr]
  · simp [hr]

end Skipped

omit [TokenSource σ] in
theorem recoverySet_contains (s : State σ) (t : TokenType) :
    s.recoverySet.contains t = true ↔ t = eof ∨ ∃ f ∈ s.follow, f.contains t = true := by
  unfold recoverySet
  induction s.follow with
  | nil =>
    rw [List.foldr_nil, TokenSet.contains_ofList [eof] t (by decide)]
    simp
  | cons f fs ih =>
    simp only [List.foldr_cons, TokenSet.contains_union, Bool.or_eq_true, ih, List.mem_cons,
      exists_eq_or_imp, or_assoc]
    rw [or_comm (b := f.contains t = true)]

theorem skipTo_skipped (set : TokenSet) (n : Nat) (s : State σ) (h : s.buffer.WF)
    (hset : set.contains eof = true) (hn : s.rest.length < n) :
    ∃ m, Skipped s m (s.skipTo set n) ∧
      set.contains (s.skipTo set n).current.type = true ∧
      (s.skipTo set n).lastError? = s.lastError? := by
  induction n generalizing s with
  | zero => omega
  | succ n ih =>
    simp only [skipTo, la_one]
    by_cases hc : set.contains s.current.type = true
    · rw [if_pos hc]
      exact ⟨0, Skipped.reach h 1, by simpa using hc, rfl⟩
    · rw [if_neg hc]
      have hne : s.current.type ≠ eof := fun e => hc (e ▸ hset)
      have hone : Skipped s 1 ((s.reach 1).consume true) := by
        simpa using (Skipped.reach h 1).trans (Skipped.consume (h.reach 1) (by simpa using hne))
      have hlen : ((s.reach 1).consume true).rest.length < n := by
        obtain ⟨ts, hr⟩ := rest_eq_cons h hne
        rw [hone.rest, hr]
        simp only [hr, List.length_cons] at hn
        simp
        omega
      obtain ⟨m, hm, hstop, hlast⟩ := ih _ hone.buffer hlen
      exact ⟨1 + m, hone.trans hm, hstop, hlast⟩

theorem forceProgress_eq (s : State σ) : s.forceProgress =
    if s.lastError? = some s.index then
      if s.current.type = eof then s.reach 1 else s.consume true
    else s := by
  unfold forceProgress
  split
  · rw [consume_eq, Buffer.consume_eq]
    by_cases he : s.current.type = eof
    · have hr : (s.buffer.ahead 1).isEof = true := (Buffer.isEof_iff _).mpr he
      rw [if_pos he]
      simp only [hr, ↓reduceIte]
      rfl
    · have hr : (s.buffer.ahead 1).isEof = false := (Buffer.isEof_eq_false_iff _).mpr he
      rw [if_neg he]
      simp only [hr, Bool.false_eq_true, ↓reduceIte]
      rfl
  · rfl

theorem forceProgress_skipped (s : State σ) (h : s.buffer.WF) :
    ∃ m, Skipped s m s.forceProgress ∧
      (s.lastError? = some s.index → s.current.type ≠ eof → m = 1) := by
  rw [forceProgress_eq]
  split
  · split
    · next he => exact ⟨0, Skipped.reach h 1, fun _ hne => absurd he hne⟩
    · next he => exact ⟨1, Skipped.consume h he, fun _ _ => rfl⟩
  · next hl => exact ⟨0, Skipped.refl h, fun hl' => absurd hl' hl⟩

/-- Recovery skips tokens up to one in the recovery set. It remembers where it
began when it skips none, and the second time in one place it does not skip
none, except at the end of the input. -/
theorem recover_skipped (s : State σ) (h : s.buffer.WF) :
    ∃ m, Skipped s m s.recover ∧
      s.recoverySet.contains s.recover.current.type = true ∧
      (m = 0 → s.recover.lastError? = some s.index) ∧
      (s.lastError? = some s.index → s.current.type ≠ eof → 1 ≤ m) := by
  obtain ⟨m, hm, hone⟩ := forceProgress_skipped s h
  let u : State σ := { s.forceProgress with lastError? := some s.forceProgress.index }
  have hu : Skipped s m u :=
    ⟨⟨hm.same.vocabulary, hm.same.cache, hm.same.recognizer, hm.same.follow, hm.same.recovering,
      hm.same.errors, hm.same.maxDepth⟩, hm.buffer, hm.whole, hm.index, hm.le, hm.slots⟩
  have hset : u.recoverySet = s.recoverySet := by
    unfold recoverySet
    rw [hu.same.follow]
  have heof : u.recoverySet.contains eof = true := (recoverySet_contains u eof).mpr (Or.inl rfl)
  obtain ⟨n, hn, hstop, hl⟩ := skipTo_skipped u.recoverySet (u.buffer.remaining + 1) u
    hu.buffer heof (Nat.lt_succ_of_le hu.buffer.rest_le)
  have hrec : s.recover = u.skipTo u.recoverySet (u.buffer.remaining + 1) := rfl
  rw [hrec, ← hset]
  refine ⟨m + n, hu.trans hn, hstop, ?_, ?_⟩
  · intro hzero
    have hi := hm.index
    rw [hl, show s.index = s.forceProgress.index by omega]
  · intro he hne
    rw [hone he hne]
    omega

/-- A rule that gives up reports and skips; in one place twice it moves on. -/
theorem giveUp_skipped {s : State σ} (h : s.buffer.WF) (message : String) :
    ∃ n, Skipped
        { s with recovering := true, errors := s.errorsAfter s.current message } n
        (s.giveUp message) ∧
      (n = 0 → (s.giveUp message).lastError? = some s.index) ∧
      (s.lastError? = some s.index → s.current.type ≠ eof → 1 ≤ n) := by
  unfold giveUp
  rw [report_eq]
  obtain ⟨n, hn, -, hzero, hone⟩ := recover_skipped
    { s with recovering := true, errors := s.errorsAfter s.current message } h
  exact ⟨n, hn, hzero, hone⟩

end Descent.Parser.State
