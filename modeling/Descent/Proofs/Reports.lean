import Descent.Proofs.Conformance
import Descent.Proofs.Positions

/-! Errors are reported in the order of the input, each in a place of its own,
and at most one more of them than tokens that fit. After a report the parser says
nothing until a token fits, and taking that token moves it behind the place of
the report. -/

namespace Descent

namespace RawTree

/-- A leaf with a token that fits. -/
def fits : RawTree → Bool
  | leaf _ error => !error
  | node .. => false

/-- The number of tokens that fit below the children of a node. -/
def fitting (slots : List (Option RawTree)) : Nat := (slotSubtrees slots).countP fits

@[simp]
theorem fitting_append (slots more : List (Option RawTree)) :
    fitting (slots ++ more) = fitting slots + fitting more := by
  rw [fitting, slotSubtrees_append, List.countP_append, fitting, fitting]

@[simp]
theorem fitting_leaf (t : Token) (error : Bool) :
    fitting [some (.leaf t error)] = if error then 0 else 1 := by
  cases error <;> rfl

@[simp]
theorem fitting_node (rule start : Nat) (recovered : Bool) (slots : List (Option RawTree)) :
    fitting [some (.node rule start recovered slots)] = fitting slots := by
  simp [fitting, subtrees, fits]

end RawTree

namespace Parser

open RawTree

variable {σ : Type} [TokenSource σ] {G : Grammar}

namespace State

/-- All tokens of the input, the one that ends it included. -/
def tokens (s : State σ) : List Token := s.buffer.fill.tokens.toList

theorem tokens_of_whole {s t : State σ} (h : t.buffer.whole = s.buffer.whole) :
    t.tokens = s.tokens := by
  have hwhole : t.buffer.whole.tokens.toList = s.buffer.whole.tokens.toList := by rw [h]
  exact hwhole

section Frontier

omit [TokenSource σ]

/-- How many tokens an error may have been reported at: those before the current
one, and that one too while the parser recovers. -/
def frontier (s : State σ) : Nat := s.index + if s.recovering then 1 else 0

theorem frontier_le (s : State σ) : s.frontier ≤ s.index + 1 := by
  unfold frontier
  split <;> omega

/-- The errors so far, and the one that may be reported before the next token
fits. -/
def credit (s : State σ) : Nat := s.errors.length + if s.recovering then 0 else 1

theorem errorsAfter_length (s : State σ) (place : Token) (message : String) :
    (s.errorsAfter place message).length = s.credit := by
  unfold errorsAfter credit
  split <;> simp

theorem credit_close (s t : State σ) (tree : RawTree) :
    ((t.closeRule s).attach tree).credit = t.credit := rfl

theorem fitting_close (s t : State σ) (tree : RawTree) :
    fitting ((t.closeRule s).attach tree).slots = fitting s.slots + fitting [some tree] :=
  fitting_append s.slots [some tree]

end Frontier

/-- The errors stand at tokens before the frontier, in their order. -/
def Placed (s : State σ) : Prop :=
  ∃ ts : List Token, ts.Sublist (s.tokens.take s.frontier) ∧
    s.errors.map SyntaxError.position = ts.map Token.position

theorem Placed.later {s t : State σ} (h : s.Placed) (htokens : t.tokens = s.tokens)
    (hfrontier : s.frontier ≤ t.frontier) (herrors : t.errors = s.errors) : t.Placed := by
  obtain ⟨ts, hts, hpos⟩ := h
  refine ⟨ts, ?_, by rw [herrors, hpos]⟩
  rw [htokens]
  exact hts.trans (List.take_sublist_take_left hfrontier)

theorem Placed.close {t : State σ} (h : t.Placed) (s : State σ) (tree : RawTree) :
    ((t.closeRule s).attach tree).Placed := h

/-- A report at the current token comes after all before it. -/
theorem Placed.report {s t : State σ} (h : s.Placed) (hwf : s.buffer.WF) {message : String}
    (htokens : t.tokens = s.tokens) (hfrontier : s.index + 1 ≤ t.frontier)
    (herrors : t.errors = s.errorsAfter s.current message) : t.Placed := by
  by_cases hr : s.recovering = true
  · refine h.later htokens (Nat.le_trans s.frontier_le hfrontier) ?_
    rw [herrors, errorsAfter, if_pos hr]
  · obtain ⟨ts, hts, hpos⟩ := h
    rw [frontier, if_neg hr, Nat.add_zero] at hts
    have hget : s.tokens[s.index]? = some s.current := hwf.ahead_get
    have htake : s.tokens.take (s.index + 1) = s.tokens.take s.index ++ [s.current] := by
      rw [List.take_add_one, hget]
      rfl
    refine ⟨ts ++ [s.current], ?_, ?_⟩
    · have hsub : (ts ++ [s.current]).Sublist (s.tokens.take (s.index + 1)) := by
        rw [htake]
        exact hts.append (List.Sublist.refl _)
      rw [htokens]
      exact hsub.trans (List.take_sublist_take_left hfrontier)
    · rw [herrors, errorsAfter, if_neg hr, List.map_append, List.map_append, hpos]
      rfl

end State

/-- Every run keeps its errors in order. -/
theorem Run.placed {s t : State σ} {w : List Symbol} (h : Run G s w t) (hs : s.Ok)
    (hp : s.Placed) : t.Placed := by
  induction h with
  | refl => exact hp
  | @look _ t _ k hr ih =>
    have hk := Kept.reach (hr.kept hs).ok k
    refine (ih hs hp).later (State.tokens_of_whole hk.whole) (Nat.le_of_eq ?_) rfl
    rw [State.frontier, State.frontier, State.index_reach]
    rfl
  | @take _ t _ hr hx ih =>
    have hne : t.current.type ≠ eof := fun e => G.eof_notMem (e ▸ hx)
    have hk := Kept.take (hr.kept hs).ok hne
    have hindex := State.take_index hne
    refine (ih hs hp).later (State.tokens_of_whole hk.whole) ?_ (by rw [State.take_eq])
    refine Nat.le_trans t.frontier_le ?_
    rw [← hindex]
    exact Nat.le_add_right _ _
  | @drop _ t _ message hr hne ih =>
    have hkt := hr.kept hs
    have hk := Kept.drop hkt.ok message hne
    refine (ih hs hp).report hkt.ok.buffer (State.tokens_of_whole hk.whole) ?_
      (by rw [State.drop_eq])
    rw [← State.drop_index hne message]
    exact Nat.le_add_right _ _
  | @conjure _ t _ x text message hr _ _ ih =>
    have hkt := hr.kept hs
    have hk := Kept.conjure hkt.ok x text message
    refine (ih hs hp).report hkt.ok.buffer (State.tokens_of_whole hk.whole) (Nat.le_of_eq ?_)
      (by rw [State.conjure_eq])
    rw [State.conjure_eq, ← t.index_reach 1]
    rfl
  | @decide _ t _ c d k simulate hr _ _ ih =>
    have hk := Kept.decide (hr.kept hs).ok c d k simulate
    refine (ih hs hp).later (State.tokens_of_whole hk.whole) (Nat.le_of_eq ?_) rfl
    rw [State.frontier, ← t.index_reach k]
    rfl
  | @finish _ t u _ _ r follow hr _ _ _ _ ih ihb =>
    exact (ihb ((hr.kept hs).ok.openRule follow) (ih hs hp)).close t _
  | @abandon _ t u _ _ r follow message hr _ _ hbody ih ihb =>
    have hok := (hr.kept hs).ok.openRule follow
    have hwf := (hbody.kept hok).ok.buffer
    obtain ⟨n, hn, -⟩ := State.giveUp_skipped hwf message
    have hgive : (u.giveUp message).Placed := by
      refine (ihb hok (ih hs hp)).report hwf (State.tokens_of_whole hn.whole) ?_ hn.same.errors
      have hindex : (u.giveUp message).index = u.index + n := hn.index
      rw [State.frontier, hn.same.recovering, hindex, if_pos rfl]
      omega
    exact hgive.close t _

/-- Every report is paid for by a token that fits, but for one. -/
theorem Run.paid {s t : State σ} {w : List Symbol} (h : Run G s w t) (hs : s.Ok) :
    t.credit + fitting s.slots ≤ s.credit + fitting t.slots := by
  induction h with
  | refl => exact Nat.le_refl _
  | look k _ ih => exact ih hs
  | @take _ t _ _ _ ih =>
    have hstep : t.take.credit ≤ t.credit + 1 := by
      rw [State.take_eq, State.credit]
      exact Nat.succ_le_succ (Nat.le_add_right _ _)
    have hslots : fitting t.take.slots = fitting t.slots + 1 := by
      rw [State.take_eq, fitting_append, fitting_leaf]
      rfl
    have hrun := ih hs
    omega
  | @drop _ t _ message _ _ ih =>
    have hstep : (t.drop message).credit = t.credit := by
      rw [State.drop_eq]
      exact t.errorsAfter_length _ message
    have hslots : fitting (t.drop message).slots = fitting t.slots := by
      rw [State.drop_eq, fitting_append, fitting_leaf]
      rfl
    rw [hstep, hslots]
    exact ih hs
  | @conjure _ t _ x text message _ _ _ ih =>
    have hstep : (t.conjure x text message).credit = t.credit := by
      rw [State.conjure_eq]
      exact t.errorsAfter_length _ message
    have hslots : fitting (t.conjure x text message).slots = fitting t.slots := by
      rw [State.conjure_eq, fitting_append, fitting_leaf]
      rfl
    rw [hstep, hslots]
    exact ih hs
  | decide _ _ _ ih => exact ih hs
  | @finish _ t u _ _ r follow hr _ _ _ _ ih ihb =>
    have hrun := ih hs
    have hbody : u.credit + 0 ≤ t.credit + fitting u.slots := ihb ((hr.kept hs).ok.openRule follow)
    rw [State.credit_close, State.fitting_close, fitting_node]
    omega
  | @abandon _ t u _ _ r follow message hr _ _ hb ih ihb =>
    have hok := (hr.kept hs).ok.openRule follow
    have hrun := ih hs
    have hbody : u.credit + 0 ≤ t.credit + fitting u.slots := ihb hok
    obtain ⟨n, hn, -⟩ := State.giveUp_skipped (hb.kept hok).ok.buffer message
    have hgive : (u.giveUp message).credit = u.credit := by
      rw [State.credit, hn.same.errors, hn.same.recovering]
      exact u.errorsAfter_length _ message
    have hslots : fitting u.slots ≤ fitting (u.giveUp message).slots := by
      rw [hn.slots, fitting_append]
      exact Nat.le_add_right _ _
    rw [State.credit_close, State.fitting_close, fitting_node, hgive]
    omega

end Parser

namespace Calc

open Descent.Parser RawTree

theorem Calls.placed {s t : ParserState} {trees : List RawTree} (h : Calls s trees t)
    (hs : Idle s) (hp : s.Placed) :
    t.Placed ∧ t.tokens = s.tokens ∧
      t.credit ≤ s.credit + (trees.flatMap subtrees).countP fits := by
  induction h with
  | start => exact ⟨hp, rfl, Nat.le_refl _⟩
  | share c _ ih => exact ih
  | limit depth _ ih => exact ih
  | @call trees tree t u index hc hi ih =>
    obtain ⟨hplaced, htokens, hcredit⟩ := ih
    have hok := (hc.idle hs).ok
    have hrun := invoke_run hok hi
    have hk := hrun.kept hok
    obtain ⟨r, -, -, hinv⟩ := invoke_invoked hok hi
    obtain ⟨more, hmore⟩ := hk.slots
    obtain rfl := hinv.more_eq hmore
    have hpaid := hrun.paid hok
    rw [hmore, fitting_append] at hpaid
    have hsum : (u.attach tree).credit ≤ t.credit + fitting [some tree] := by omega
    refine ⟨hrun.placed hok hplaced, (State.tokens_of_whole hk.whole).trans htokens, ?_⟩
    rw [fitting, slotSubtrees_singleton] at hsum
    rw [List.flatMap_append, List.flatMap_singleton, List.countP_append]
    have hattach : (u.attach tree).credit = u.credit := rfl
    omega

/-- Whatever calls return trees, in whatever order and with whatever in the
cache, errors are reported further and further on in the text, at tokens of it or
at its end, and there is at most one more of them than tokens that fit. -/
theorem calls_report_once (threshold depth : Nat) (source : String) (stalls : Nat → Bool)
    (c : PredictionCache) {trees : List RawTree} {s : ParserState}
    (h : Calls (fresh threshold depth source stalls c) trees s) :
    (s.errors.Pairwise fun e f => Earlier e.position f.position) ∧
    (∀ e ∈ s.errors, ∃ t ∈ (Buffer.ofSource (Lexer.ofString source stalls)).fill.tokens.toList,
      e.line = t.line ∧ e.column = t.column) ∧
    s.errors.length ≤ (trees.flatMap subtrees).countP fits + 1 := by
  obtain ⟨⟨ts, hts, hpos⟩, htokens, hcredit⟩ :=
    h.placed (fresh_idle threshold depth source stalls c) ⟨[], List.nil_sublist _, rfl⟩
  have hsub : ts.Sublist (Buffer.ofSource (Lexer.ofString source stalls)).fill.tokens.toList := by
    rw [htokens] at hts
    exact hts.trans (List.take_sublist _ _)
  refine ⟨?_, ?_, ?_⟩
  · have horder := (Buffer.fill_inOrder (Lexer.ofString source stalls)).tokens.sublist hsub
    rw [← List.pairwise_map (f := SyntaxError.position) (R := Earlier), hpos, List.pairwise_map]
    exact horder
  · intro e he
    have hmem : e.position ∈ ts.map Token.position := hpos ▸ List.mem_map_of_mem he
    obtain ⟨t, ht, heq⟩ := List.mem_map.mp hmem
    obtain ⟨hline, hcolumn⟩ := Prod.mk.inj heq
    exact ⟨t, hsub.subset ht, hline.symm, hcolumn.symm⟩
  · have hle : s.errors.length ≤ s.credit := Nat.le_add_right _ _
    have hfresh : (fresh threshold depth source stalls c).credit = 1 := rfl
    omega

/-- A sign is no assignment, and neither is the end of the input behind it: two
assignments fail, and only the first says so. -/
theorem calls_report_once_sign : ∃ trees s,
    Calls (fresh 10 1 "+" never .empty) trees s ∧ trees.length = 2 ∧ s.errors.length = 1 ∧
    (s.errors.Pairwise fun e f => Earlier e.position f.position) ∧
    s.errors.length ≤ (trees.flatMap subtrees).countP fits + 1 :=
  have hcalls : Calls (fresh 10 1 "+" never .empty) _ _ :=
    (Calls.start.call 2 rfl).call 2 rfl
  have hreports := calls_report_once 10 1 "+" never .empty hcalls
  ⟨_, _, hcalls, rfl, rfl, hreports.1, hreports.2.2⟩

end Calc

end Descent
