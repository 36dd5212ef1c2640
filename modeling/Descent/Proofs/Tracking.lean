import Descent.Proofs.Completeness
import Descent.Proofs.Reports
import Descent.Proofs.Viability

/-! Parsers that know what may come. While nothing has been reported, a language of
continuations says of every beginning of the tokens to come whether a sentence can
still be made of all that was read and of it. A look at the next tokens narrows it
down, taking one takes it off, and where no word of it begins with the current
token, that token is the first with which no sentence begins. -/

namespace Descent.Parser

variable {σ : Type} [TokenSource σ] {G : Grammar}

/-- Nothing that was reported is taken back. -/
theorem Run.errors_prefix {s t : State σ} {w : List Symbol} (h : Run G s w t) (hs : s.Ok) :
    s.errors <+: t.errors := by
  induction h with
  | refl => exact List.prefix_refl _
  | look k _ ih => exact ih hs
  | take _ _ ih =>
    rw [State.take_eq]
    exact ih hs
  | drop message _ _ ih =>
    rw [State.drop_eq]
    exact (ih hs).trans (State.errors_le_errorsAfter _ _ message)
  | conjure x text message _ _ _ ih =>
    rw [State.conjure_eq]
    exact (ih hs).trans (State.errors_le_errorsAfter _ _ message)
  | decide _ _ _ ih => exact ih hs
  | finish hr _ _ _ _ ih ihb => exact (ih hs).trans (ihb ((hr.kept hs).ok.openRule _))
  | @abandon _ _ _ _ _ _ follow message hr _ _ hbody ih ihb =>
    have hok := (hr.kept hs).ok.openRule follow
    obtain ⟨n, hn, -⟩ := State.giveUp_skipped (hbody.kept hok).ok.buffer message
    rw [State.errors_close, hn.same.errors]
    exact (ih hs).trans ((ihb hok).trans (State.errors_le_errorsAfter _ _ message))

end Descent.Parser

namespace Descent.Calc

open Computability Descent.Parser

variable {σ : Type} [TokenSource σ]

/-- The types of all tokens, the one that ends the input included. -/
def text (s : State σ) : List TokenType := s.tokens.map Token.type

/-- Those before the current token. -/
def read (s : State σ) : List TokenType := (text s).take s.index

/-- Those from the current token on. -/
def ahead (s : State σ) : List TokenType := (text s).drop s.index

/-- Before token `i` a word of `P` could still be made, and with it no more. -/
def Culprit (P : Language TokenType) (ts : List TokenType) (i : Nat) : Prop :=
  Viable P (ts.take i) ∧ ¬ Viable P (ts.take (i + 1))

/-- Nothing has been reported, and the current token is the culprit. -/
structure Stuck (P : Language TokenType) (s : State σ) : Prop where
  errors : s.errors = []
  recovering : s.recovering = false
  culprit : Culprit P (text s) s.index

/-- The first error was reported at the culprit. -/
def Told (P : Language TokenType) (s : State σ) : Prop :=
  ∃ i t e es, s.tokens[i]? = some t ∧ Culprit P (text s) i ∧ s.errors = e :: es ∧
    e.position = t.position

variable {c₀ : PredictionCache} {P K L M N : Language TokenType} {levels n m : Nat} {s t : State σ}

theorem Told.later (h : Told P s) (htokens : t.tokens = s.tokens) (hle : s.errors <+: t.errors) :
    Told P t := by
  obtain ⟨i, x, e, es, hget, hc, he, hpos⟩ := h
  obtain ⟨more, hmore⟩ := hle
  rw [he] at hmore
  exact ⟨i, x, e, es ++ more, htokens ▸ hget, by rwa [text, htokens], hmore.symm, hpos⟩

theorem Told.run {w : List Symbol} (h : Told P s) (hs : s.Ok) (hr : Run grammar s w t) :
    Told P t :=
  h.later (State.tokens_of_whole (hr.kept hs).whole) (hr.errors_prefix hs)

theorem Told.close (h : Told P t) (s : State σ) (tree : RawTree) :
    Told P ((t.closeRule s).attach tree) := h

/-- A rule that recovers may report something more, but not before. -/
theorem Told.recover (h : Told P t) (ht : t.Ok) (e : RecognitionError) :
    Told P (t.reportError e).recover := by
  have hreport := Kept.report ht e.token (e.message t.vocabulary)
  obtain ⟨m, hm, -⟩ := State.recover_skipped (t.reportError e) hreport.ok.buffer
  refine h.later (State.tokens_of_whole (hm.whole.trans hreport.whole)) ?_
  rw [hm.same.errors, State.reportError, State.report_eq]
  exact t.errors_le_errorsAfter _ _

theorem text_of_run {w : List Symbol} (hs : s.Ok) (hr : Run grammar s w t) : text t = text s := by
  rw [text, State.tokens_of_whole (hr.kept hs).whole, text]

/-- A report at the culprit is the first. -/
theorem Stuck.told (h : Stuck P s) (hs : s.buffer.WF) (message : String)
    (hwhole : t.buffer.whole = s.buffer.whole)
    (herrors : t.errors = s.errorsAfter s.current message) : Told P t := by
  have htokens := State.tokens_of_whole hwhole
  refine ⟨s.index, s.current, .report s.current.line s.current.column message, [],
    htokens ▸ hs.ahead_get, ?_, ?_, rfl⟩
  · rw [text, htokens]
    exact h.culprit
  · rw [herrors, State.errorsAfter, h.recovering, h.errors]
    rfl

theorem Stuck.giveUp (h : Stuck P s) (hs : s.buffer.WF) (message : String) :
    Told P (s.giveUp message) := by
  obtain ⟨m, hm, -⟩ := State.giveUp_skipped hs message
  exact h.told hs message hm.whole hm.same.errors

theorem ahead_eq (h : s.Ok) : ahead s = types s ++ [eof] := by
  obtain ⟨e, he, htype, -⟩ := h.buffer.tokens_fill
  have hle := h.buffer.position_le_input
  rw [ahead, text, State.tokens, he, List.map_append, List.map_singleton, htype, types,
    State.rest, Buffer.rest, List.map_drop, List.drop_append_of_le_length]
  · rfl
  · rwa [List.length_map]

/-- What lies ahead begins with the current token. -/
theorem exists_ahead (h : s.Ok) : ∃ ts, ahead s = s.current.type :: ts := by
  rw [ahead_eq h, current_type_eq h]
  cases types s with
  | nil => exact ⟨[], rfl⟩
  | cons x xs => exact ⟨xs ++ [eof], rfl⟩

theorem exists_ahead_two (h : s.Ok) (hne : s.current.type ≠ eof) :
    ∃ ts, ahead s = s.current.type :: (s.buffer.ahead 2).type :: ts := by
  rw [current_type_eq h] at hne
  rw [ahead_eq h, current_type_eq h, second_type_eq h]
  cases hts : types s with
  | nil =>
    rw [hts] at hne
    exact absurd rfl hne
  | cons x xs =>
    cases xs with
    | nil => exact ⟨[], rfl⟩
    | cons y ys => exact ⟨ys ++ [eof], rfl⟩

/-- A parser that has reported nothing, over at most `n` more tokens. Of what it
has read and some of what lies ahead a word of `P` can be made exactly when a word
of `L` can be made of the latter. -/
structure Tracks (c₀ : PredictionCache) (P : Language TokenType) (k n : Nat)
    (L : Language TokenType) (s : State σ) : Prop extends Sound c₀ k s where
  errors : s.errors = []
  recovering : s.recovering = false
  length_le : (types s).length ≤ n
  viable : Viable L []
  viable_iff : ∀ v, v <+: ahead s → (Viable P (read s ++ v) ↔ Viable L v)
  mem_iff : text s ∈ P ↔ ahead s ∈ L

/-- How a piece comes out of it that is to lead to where `L` comes next: it does,
or it stops at the culprit, or the culprit has been reported. -/
inductive Heads (c₀ : PredictionCache) (P : Language TokenType) (k n : Nat)
    (L : Language TokenType) : Except Interrupt Unit × State σ → Prop where
  | ok {t : State σ} : Tracks c₀ P k n L t → Heads c₀ P k n L (.ok (), t)
  | raised {e : RecognitionError} {t : State σ} : At k t → Stuck P t → e.token = t.current →
      Heads c₀ P k n L (.error (.recognition e), t)
  | told {a : Except Interrupt Unit} {t : State σ} : At k t → Told P t →
      Heads c₀ P k n L (a, t)

namespace Tracks

theorem weaken (h : Tracks c₀ P levels n L s) (hm : n ≤ m) : Tracks c₀ P levels m L s :=
  { h with length_le := Nat.le_trans h.length_le hm }

theorem exact (h : Tracks c₀ P levels n L s) : Tracks c₀ P levels (types s).length L s :=
  { h with length_le := Nat.le_refl _ }

/-- Where the current token does not go on, it is the culprit. -/
theorem stuck (h : Tracks c₀ P levels n L s) (hne : ¬ Viable L [s.current.type]) : Stuck P s := by
  obtain ⟨ts, hts⟩ := exists_ahead h.ok
  have hread : (text s).take (s.index + 1) = read s ++ [s.current.type] := by
    rw [List.take_add, ← ahead, hts, read]
    rfl
  have hnow := (h.viable_iff [] List.nil_prefix).mpr h.viable
  have hnext := h.viable_iff [s.current.type] (hts ▸ ⟨ts, rfl⟩)
  refine ⟨h.errors, h.recovering, ?_, ?_⟩
  · rwa [List.append_nil] at hnow
  · rw [hread, hnext]
    exact hne

/-- The current token tells that only words of `M` are to come. -/
theorem narrow (h : Tracks c₀ P levels n L s) (hv : Viable M []) (hle : ∀ x ∈ M, x ∈ L)
    (hfirst : ∀ ts, s.current.type :: ts ∈ L → s.current.type :: ts ∈ M) :
    Tracks c₀ P levels n M s := by
  obtain ⟨ts, hts⟩ := exists_ahead h.ok
  refine { h with viable := hv, viable_iff := ?_, mem_iff := ?_ }
  · intro v hpre
    rw [h.viable_iff v hpre]
    cases v with
    | nil => exact iff_of_true h.viable hv
    | cons a v =>
      obtain ⟨z, hz⟩ := hpre
      obtain rfl : a = s.current.type := (List.cons.inj (hz.trans hts)).1
      exact ⟨fun hl => hl.mono fun _ => hfirst _, fun hm => hm.mono fun _ => hle _⟩
  · rw [h.mem_iff, hts]
    exact ⟨hfirst ts, hle _⟩

/-- The next two tokens tell that only words of `M` are to come. -/
theorem narrowTwo (h : Tracks c₀ P levels n L s) (hv : Viable M [s.current.type])
    (hle : ∀ x ∈ M, x ∈ L) (hne : s.current.type ≠ eof)
    (hfirst : ∀ ts, s.current.type :: (s.buffer.ahead 2).type :: ts ∈ L →
      s.current.type :: (s.buffer.ahead 2).type :: ts ∈ M) :
    Tracks c₀ P levels n M s := by
  obtain ⟨ts, hts⟩ := exists_ahead_two h.ok hne
  refine { h with viable := hv.of_append (v := []), viable_iff := ?_, mem_iff := ?_ }
  · intro v hpre
    rw [h.viable_iff v hpre]
    refine ⟨fun hl => ?_, fun hm => hm.mono fun _ => hle _⟩
    obtain ⟨z, hz⟩ := hpre
    have hz := hz.trans hts
    -- A beginning of one token cannot tell `L` from `M`, so `hv` is asked for apart.
    match v with
    | [] => exact hv.of_append (v := [])
    | [a] =>
      obtain rfl : a = s.current.type := (List.cons.inj hz).1
      exact hv
    | a :: b :: v =>
      obtain rfl : a = s.current.type := (List.cons.inj hz).1
      obtain rfl : b = (s.buffer.ahead 2).type := (List.cons.inj (List.cons.inj hz).2).1
      exact hl.mono fun _ => hfirst _
  · rw [h.mem_iff, hts]
    exact ⟨hfirst ts, hle _⟩

theorem decided (h : Tracks c₀ P levels n L s) (hd : Decided s t) :
    Tracks c₀ P levels n L t := by
  have htext : text t = text s := text_of_run h.ok hd.run
  have hread : read t = read s := by rw [read, htext, hd.index, read]
  have hahead : ahead t = ahead s := by rw [ahead, htext, hd.index, ahead]
  have htypes : types t = types s := congrArg (List.map Token.type) hd.rest
  exact ⟨h.toSound.run hd.run, hd.errors.trans h.errors, hd.recovering.trans h.recovering,
    htypes ▸ h.length_le, h.viable, by rw [hread, hahead]; exact h.viable_iff,
    by rw [htext, hahead]; exact h.mem_iff⟩

theorem look (h : Tracks c₀ P levels n L s) (k : Nat) : Tracks c₀ P levels n L (s.reach k) :=
  h.decided (.look s k)

/-- An optional part is there if the current token, with which nothing else goes
on that does not also go on with it, opens it. -/
theorem present {choice : List TokenType}
    (h : Tracks c₀ P levels n (K + oneOf choice * N) s) (hc : s.current.type ∈ choice)
    (hv : Viable N []) (hglue : ∀ ts, s.current.type :: ts ∈ K → ts ∈ N) :
    Tracks c₀ P levels n (oneOf choice * N) s := by
  refine h.narrow ((viable_oneOf hc).mul hv) (fun _ hx => Or.inr hx) fun ts hts => ?_
  exact cons_mem_oneOf_mul.mpr ⟨hc, mem_of_present hts (hglue ts)⟩

/-- It is not there if the current token does not open it. -/
theorem absent {choice : List TokenType}
    (h : Tracks c₀ P levels n (K + oneOf choice * N) s) (hc : s.current.type ∉ choice)
    (hv : Viable K []) : Tracks c₀ P levels n K s :=
  h.narrow hv (fun _ hx => Or.inl hx) fun _ hts => cons_mem_of_absent hts hc

/-- Before the end of the input there is a token to come. -/
theorem pos (h : Tracks c₀ P levels n L s) (hne : s.current.type ≠ eof) : 1 ≤ n := by
  refine Nat.le_trans (List.length_pos_iff.mpr fun hnil => hne ?_) h.length_le
  rw [current_type_eq h.ok, hnil]
  rfl

/-- The token that goes on is taken. -/
theorem take {choice : List TokenType} (h : Tracks c₀ P levels n (oneOf choice * K) s)
    (hc : s.current.type ∈ choice) (htok : s.current.type ∈ grammar.tokens) :
    Tracks c₀ P levels (n - 1) K (s.reach 1).take := by
  have hne : s.current.type ≠ eof := fun e => grammar.eof_notMem (e ▸ htok)
  have hrun : Run grammar s [.token (s.reach 1).current.type] (s.reach 1).take :=
    .take (.look 1 (.refl s)) (by rwa [State.current_reach])
  have hindex : (s.reach 1).take.index = s.index + 1 := by
    rw [State.take_index (by rwa [State.current_reach]), State.index_reach]
  obtain ⟨ts, hts⟩ := exists_ahead h.ok
  have htext : text (s.reach 1).take = text s := text_of_run h.ok hrun
  have hread : read (s.reach 1).take = read s ++ [s.current.type] := by
    rw [read, htext, hindex, List.take_add, ← ahead, hts, read]
    rfl
  have hahead : s.current.type :: ahead (s.reach 1).take = ahead s := by
    rw [ahead, htext, hindex, ← List.drop_drop, ← ahead, hts]
    rfl
  refine ⟨h.toSound.run hrun, ?_, ?_, ?_, h.viable.right, ?_, ?_⟩
  · rw [State.take_eq]
    exact h.errors
  · rw [State.take_eq]
  · have hlen := h.length_le
    have hle := congrArg List.length hahead
    rw [ahead_eq h.ok, ahead_eq (hrun.kept h.ok).ok] at hle
    simp only [List.length_cons, List.length_append, List.length_nil] at hle
    omega
  · rintro v ⟨z, hz⟩
    have hpre : s.current.type :: v <+: ahead s := ⟨z, by rw [← hahead, ← hz]; rfl⟩
    have hiff := h.viable_iff _ hpre
    rw [viable_cons] at hiff
    rw [hread, List.append_assoc]
    exact hiff.trans (and_iff_right hc)
  · rw [htext, h.mem_iff, ← hahead, cons_mem_oneOf_mul]
    exact and_iff_right hc

end Tracks

/-- However it comes out of it, a piece is a run. -/
def Runs (levels : Nat) (p : Parser σ Unit) : Prop :=
  ∀ s, At levels s → ∃ w, Run grammar s w (p s).2

theorem Runs.of_ends {p : Parser σ Unit} {W : Language Symbol}
    (h : ∀ s, At levels s → Ends grammar s W (p s)) : Runs levels p := by
  intro s hs
  have hends := h s hs
  generalize p s = out at hends ⊢
  cases hends with
  | ok hr _ => exact ⟨_, hr⟩
  | error hr _ => exact ⟨_, hr⟩

theorem Runs.bind {p : Parser σ Unit} {k : Unit → Parser σ Unit} (hp : Runs levels p)
    (hk : Runs levels (k ())) : Runs levels (p >>= k) := by
  intro s hs
  obtain ⟨w, hr⟩ := hp s hs
  rw [bind_apply]
  generalize p s = out at hr
  obtain ⟨a, t⟩ := out
  cases a with
  | error e => exact ⟨w, hr⟩
  | ok u =>
    obtain ⟨v, hr'⟩ := hk t (hs.run hr)
    exact ⟨w ++ v, hr.trans hr'⟩

theorem matchToken_runs {x : TokenType} (hx : x ∈ grammar.tokens) :
    Runs levels (matchToken x : Parser σ Unit) := .of_ends fun _ hs => matchToken_ends hx hs.ok

theorem invoke_runs {inv : Rule → TokenSet → Parser σ Unit} (hinv : Returns levels inv) {r : Rule}
    (hr : r ≠ .program) (follow : TokenSet) : Runs levels (inv r follow) :=
  .of_ends fun _ => hinv.ends hr follow

theorem operations_runs {inv : Rule → TokenSet → Parser σ Unit} (hinv : Returns levels inv)
    {set follow : TokenSet} {operand : Rule} (hoperand : operand ≠ .program)
    (htok : ∀ t, set.contains t = true → t ∈ grammar.tokens) (fuel : Nat) :
    Runs levels (whileNext set (do matchNext; inv operand follow) fuel) := by
  induction fuel with
  | zero => exact fun s _ => ⟨[], .refl s⟩
  | succ fuel ih =>
    intro s hs
    rw [whileNext, next_bind]
    split
    · next hc =>
      have hx : (s.reach 1).current.type ∈ grammar.tokens := by
        rw [State.current_reach]
        exact htok _ hc
      have htake : Run grammar s [.token _] ((s.reach 1).reach 1).take :=
        .take (.look 1 (.look 1 (.refl s))) (by rwa [State.current_reach])
      obtain ⟨t, ht, hr⟩ := hinv operand hoperand follow _ (hs.run htake)
      obtain ⟨w, hw⟩ := ih t ((hs.run htake).run hr)
      rw [bind_assoc, bind_ok (matchNext_apply _), bind_ok ht]
      exact ⟨_, (htake.trans hr).trans hw⟩
    · exact ⟨[], .look 1 (.refl s)⟩

namespace Heads

theorem weaken {out : Except Interrupt Unit × State σ} (h : Heads c₀ P levels n L out)
    (hm : n ≤ m) : Heads c₀ P levels m L out := by
  cases h with
  | ok ht => exact .ok (ht.weaken hm)
  | raised hat hs he => exact .raised hat hs he
  | told hat ht => exact .told hat ht

theorem pure (h : Tracks c₀ P levels n L s) :
    Heads c₀ P levels n L ((Pure.pure () : Parser σ Unit) s) := .ok h

/-- What is done after a report leaves it the first. -/
theorem bind {p : Parser σ Unit} {k : Unit → Parser σ Unit} (h : Heads c₀ P levels n L (p s))
    (hruns : Runs levels (k ()))
    (hk : ∀ t, Tracks c₀ P levels n L t → Heads c₀ P levels m K (k () t)) :
    Heads c₀ P levels m K ((p >>= k) s) := by
  rw [bind_apply]
  generalize p s = out at h
  cases h with
  | ok ht => exact hk _ ht
  | raised hat hs he => exact .raised hat hs he
  | @told a t hat ht =>
    cases a with
    | error e => exact .told hat ht
    | ok u =>
      obtain ⟨w, hr⟩ := hruns t hat
      exact .told (hat.run hr) (ht.run hat.ok hr)

end Heads

/-- A token that is missed is the culprit: dropped, made up or left to the rule, it
is reported where the parser stands. -/
theorem matchToken_misses {x : TokenType} (hx : x ∈ grammar.tokens)
    (h : Tracks c₀ P levels n (oneOf [x] * K) s) (hne : s.current.type ≠ x) :
    Heads c₀ P levels m N (matchToken x s) := by
  obtain ⟨w, hr⟩ := matchToken_runs hx s h.toAt
  have hstuck : Stuck P ((s.reach 1).reach 2) := by
    refine ((h.look 1).look 2).stuck fun hv => hne ?_
    have hmem := (viable_cons.mp hv).1
    rwa [State.current_reach, State.current_reach, List.mem_singleton] at hmem
  have hok : ((s.reach 1).reach 2).Ok := (h.ok.reach 1).reach 2
  have hwhole : ((s.reach 1).reach 2).buffer.whole = s.buffer.whole := by
    simp only [State.reach, Buffer.whole_reach]
  rcases matchToken_cases x s with ⟨heq, -⟩ | ⟨-, ⟨-, message, hm⟩ | ⟨-, text, message, hm⟩ | hm⟩
  · exact absurd heq hne
  · rw [hm] at hr ⊢
    refine .told (h.toAt.run hr) (hstuck.told hok.buffer message
      ((hr.kept h.ok).whole.trans hwhole.symm) ?_)
    rw [State.take_eq, State.drop_eq]
  · rw [hm] at hr ⊢
    refine .told (h.toAt.run hr) (hstuck.told hok.buffer message
      ((hr.kept h.ok).whole.trans hwhole.symm) ?_)
    rw [State.conjure_eq]
  · rw [hm]
    exact .raised ((h.toAt.look 1).look 2) hstuck (by simp [RecognitionError.token])

theorem matchToken_heads {x : TokenType} (hx : x ∈ grammar.tokens)
    (h : Tracks c₀ P levels n (oneOf [x] * K) s) :
    Heads c₀ P levels (n - 1) K (matchToken x s) := by
  by_cases heq : s.current.type = x
  · rw [matchToken_of_eq heq]
    exact .ok (h.take (List.mem_singleton.mpr heq) (heq ▸ hx))
  · exact matchToken_misses hx h heq

/-- What comes after a token that is there has one token less to come. -/
theorem matchToken_bind {x : TokenType} {k : Unit → Parser σ Unit} (hx : x ∈ grammar.tokens)
    (h : Tracks c₀ P levels n (oneOf [x] * K) s) (hruns : Runs levels (k ()))
    (hk : ∀ t, 1 ≤ n → Tracks c₀ P levels (n - 1) K t → Heads c₀ P levels m M (k () t)) :
    Heads c₀ P levels m M ((matchToken x >>= k) s) := by
  by_cases heq : s.current.type = x
  · have hpos : 1 ≤ n := h.pos fun e => grammar.eof_notMem (e ▸ heq ▸ hx)
    rw [bind_ok (matchToken_of_eq heq)]
    exact hk _ hpos (h.take (List.mem_singleton.mpr heq) (heq ▸ hx))
  · -- A token that was missed leads nowhere, that is to where no word comes next.
    refine (matchToken_misses (N := 0) (m := n) hx h heq).bind hruns fun t ht => ?_
    obtain ⟨z, hz⟩ := ht.viable
    exact absurd hz (Language.notMem_zero _)

namespace Tracks

/-- A number or a string is itself. -/
theorem literal {x : TokenType} (h : Tracks c₀ P levels n (sentences .primary * K) s)
    (hx : x ∈ [number, string]) (hcur : s.current.type = x) :
    Tracks c₀ P levels n (oneOf [x] * K) s := by
  have hall : ∀ x ∈ [number, string], x ∈ [number, string, ident] := by decide
  refine h.narrow ((viable_oneOf (List.mem_singleton_self x)).mul h.viable.right)
    (fun _ => mem_primary_of_literal (hall x hx)) fun ts hts => ?_
  exact cons_mem_oneOf_mul.mpr ⟨List.mem_singleton.mpr hcur, primary_literal (hcur ▸ hx) hts⟩

/-- A name that no parenthesis follows stands for itself. -/
theorem name (h : Tracks c₀ P levels n (sentences .primary * K) s)
    (hcur : s.current.type = ident) (hsecond : (s.buffer.ahead 2).type ≠ lparen) :
    Tracks c₀ P levels n (oneOf [ident] * K) s := by
  refine h.narrowTwo ?_ (fun _ => mem_primary_of_literal (by decide)) (hcur ▸ by decide)
    fun ts hts => ?_
  · exact viable_cons.mpr ⟨List.mem_singleton.mpr hcur, h.viable.right⟩
  · rw [hcur] at hts ⊢
    refine cons_mem_oneOf_mul.mpr ⟨List.mem_singleton_self _, primary_name (fun us e => ?_) hts⟩
    exact hsecond (List.cons.inj e).1

/-- A name that a parenthesis follows is called. -/
theorem call (h : Tracks c₀ P levels n (sentences .primary * after .primary K) s) (hK : Glue K)
    (hcur : s.current.type = ident) (hsecond : (s.buffer.ahead 2).type = lparen) :
    Tracks c₀ P levels n (sentences .call * after .call K) s := by
  refine h.narrowTwo ?_ (fun x hx => ?_) (hcur ▸ by decide) fun ts hts => ?_
  · rw [call_mul, viable_cons]
    exact ⟨List.mem_singleton.mpr hcur, (viable_oneOf (List.mem_singleton_self _)).mul
      (Viable.mul (.of_mem (Or.inl rfl)) ((viable_oneOf (List.mem_singleton_self _)).mul
        h.viable.right))⟩
  · rw [primary_mul]
    exact Or.inr (Or.inl hx)
  · rw [hcur, hsecond] at hts ⊢
    exact primary_call hK hts

/-- A parenthesis encloses an expression. -/
theorem paren (h : Tracks c₀ P levels n (sentences .primary * K) s)
    (hcur : s.current.type = lparen) :
    Tracks c₀ P levels n (oneOf [lparen] * (sentences .expression * (oneOf [rparen] * K))) s := by
  refine h.narrow ?_ (fun x hx => ?_) fun ts hts => ?_
  · exact (viable_oneOf (List.mem_singleton_self _)).mul ((sentences_viable (by decide)).mul
      ((viable_oneOf (List.mem_singleton_self _)).mul h.viable.right))
  · rw [primary_mul]
    exact Or.inr (Or.inr hx)
  · rw [hcur] at hts ⊢
    exact cons_mem_oneOf_mul.mpr ⟨List.mem_singleton_self _, primary_paren hts⟩

/-- A name before an equals sign is assigned to. -/
theorem assignment
    (h : Tracks c₀ P levels n (sentences .assignment * K + sentences .expression * K) s)
    (hK : Glue K) (hv : Viable K []) (hcur : s.current.type = ident)
    (hsecond : (s.buffer.ahead 2).type = assign) :
    Tracks c₀ P levels n (sentences .assignment * K) s := by
  refine h.narrowTwo ?_ (fun _ hx => Or.inl hx) (hcur ▸ by decide) fun ts hts => ?_
  · rw [assignment_eq, mul_assoc, mul_assoc, viable_cons]
    exact ⟨List.mem_singleton.mpr hcur, (viable_oneOf (List.mem_singleton_self _)).mul
      ((sentences_viable (by decide)).mul hv)⟩
  · rw [hcur, hsecond] at hts ⊢
    exact hts.resolve_right hK.assignment_notMem

/-- Anything else is an expression. -/
theorem expression
    (h : Tracks c₀ P levels n (sentences .assignment * K + sentences .expression * K) s)
    (hv : Viable K []) (hne : ¬ (s.current.type = ident ∧ (s.buffer.ahead 2).type = assign)) :
    Tracks c₀ P levels n (sentences .expression * K) s := by
  by_cases hcur : s.current.type = ident
  · refine h.narrowTwo ?_ (fun _ hx => Or.inr hx) (hcur ▸ by decide) fun ts hts => ?_
    · obtain ⟨z, hz⟩ := hv
      rw [hcur]
      exact ⟨z, Language.append_mem_mul (ident_mem_sentences (by decide)) hz⟩
    · refine hts.resolve_left fun ha => hne ⟨hcur, ?_⟩
      rw [assignment_eq, mul_assoc, mul_assoc] at ha
      exact List.mem_singleton.mp (cons_mem_oneOf_mul.mp (cons_mem_oneOf_mul.mp ha).2).1
  · refine h.narrow ((sentences_viable (by decide)).mul hv) (fun _ hx => Or.inr hx) fun ts hts => ?_
    exact hts.resolve_left fun ha => hcur ((sentences_opens (by decide)).mul.first _ ts ha)

end Tracks

end Descent.Calc
