import Descent.Frontend
import Descent.Proofs.Bodies
import Descent.Proofs.Lexer

/-! The life of a calc parser: it is made over a text, rules are invoked on it
one after another, and meanwhile others may do what they like to the cache it
shares with them. -/

namespace Descent

/-- A parser after others have put something else into its cache. -/
def Parser.State.share {σ : Type} (s : State σ) (c : PredictionCache) : State σ :=
  { s with cache := .available c }

namespace Calc

open Descent.Parser

/-- A new parser over a text, with a nesting limit. -/
def fresh (threshold depth : Nat) (source : String) (stalls : Nat → Bool) (c : PredictionCache) :
    ParserState :=
  (newParser threshold (.ofString source stalls) c).setMaxDepth depth

/-- A parser that may be called: no rule is open, at least one may be, and its
input is that of a lexer. -/
structure Idle (s : ParserState) : Prop where
  ok : s.Ok
  follow : s.follow = []
  maxDepth : 1 ≤ s.maxDepth
  lexed : ∀ t ∈ s.buffer.input, Lexed t

theorem fresh_index (threshold depth : Nat) (source : String) (stalls : Nat → Bool)
    (c : PredictionCache) : (fresh threshold depth source stalls c).index = 0 := rfl

theorem fresh_idle (threshold depth : Nat) (source : String) (stalls : Nat → Bool)
    (c : PredictionCache) : Idle (fresh threshold depth source stalls c) where
  ok := ⟨Buffer.WF.ofSource _, _, rfl⟩
  follow := rfl
  maxDepth := Nat.le_max_right depth 1
  lexed := Buffer.input_lexed _

namespace Idle

theorem share {s : ParserState} (h : Idle s) (c : PredictionCache) :
    Idle (s.share c) :=
  ⟨⟨h.ok.buffer, _, rfl⟩, h.follow, h.maxDepth, h.lexed⟩

theorem limit {s : ParserState} (h : Idle s) (depth : Nat) : Idle (s.setMaxDepth depth) :=
  ⟨⟨h.ok.buffer, h.ok.cache⟩, h.follow, Nat.le_max_right depth 1, h.lexed⟩

theorem kept {s t : ParserState} (h : Idle s) (hk : Kept s t) : Idle t where
  ok := hk.ok
  follow := hk.follow.trans h.follow
  maxDepth := hk.maxDepth ▸ h.maxDepth
  lexed := hk.input ▸ h.lexed

theorem depth_lt {s : ParserState} (h : Idle s) : s.depth < s.maxDepth := by
  have hm := h.maxDepth
  rw [State.depth, h.follow, List.length_nil]
  omega

end Idle

theorem ofIndex?_eq_some {i : Nat} {r : Rule} (h : Rule.ofIndex? i = some r) : r.index = i := by
  have hall : ∀ i < 8, ∀ r ∈ Rule.ofIndex? i, r.index = i := by decide
  have hi : i < 8 := by
    obtain ⟨hlt, -⟩ := List.getElem?_eq_some_iff.mp h
    exact hlt
  exact hall i hi r h

/-- Every tree that a call returns comes from a run of the grammar. -/
theorem invoke_invoked {s t : ParserState} {index : Nat} {tree : RawTree} (h : s.Ok)
    (hi : invoke index s = (.ok tree, t)) : ∃ r, Rule.ofIndex? index = some r ∧
      parseRule r s = (.ok tree, t) ∧ Invoked grammar index .empty s tree t := by
  unfold invoke at hi
  cases hr : Rule.ofIndex? index with
  | none => simp [hr] at hi
  | some r =>
    simp only [hr] at hi
    have hinv := parseRule_invoked h hi
    rw [ofIndex?_eq_some hr] at hinv
    exact ⟨r, rfl, hi, hinv⟩

theorem invoke_run {s t : ParserState} {index : Nat} {tree : RawTree} (h : s.Ok)
    (hi : invoke index s = (.ok tree, t)) : Run grammar s [.rule index] (t.attach tree) := by
  obtain ⟨r, hr, hp, -⟩ := invoke_invoked h hi
  rw [← ofIndex?_eq_some hr]
  exact parseRule_run h hp

/-- The trees that a parser has returned, call after call, and the state it is
in then. Between the calls its cache may come to hold anything, and the nesting
limit may be set. -/
inductive Calls (s : ParserState) : List RawTree → ParserState → Prop where
  | start : Calls s [] s
  | share {trees : List RawTree} {t : ParserState} (c : PredictionCache) :
      Calls s trees t → Calls s trees (t.share c)
  | limit {trees : List RawTree} {t : ParserState} (depth : Nat) :
      Calls s trees t → Calls s trees (t.setMaxDepth depth)
  | call {trees : List RawTree} {tree : RawTree} {t u : ParserState} (index : Nat) :
      Calls s trees t → invoke index t = (.ok tree, u) → Calls s (trees ++ [tree]) u

theorem Calls.idle {s t : ParserState} {trees : List RawTree} (h : Calls s trees t)
    (hs : Idle s) : Idle t := by
  induction h with
  | start => exact hs
  | share c _ ih => exact ih.share c
  | limit depth _ ih => exact ih.limit depth
  | call _ _ hi ih =>
    have hk := ih.kept ((invoke_run ih.ok hi).kept ih.ok)
    exact ⟨⟨hk.ok.buffer, hk.ok.cache⟩, hk.follow, hk.maxDepth, hk.lexed⟩

end Calc

end Descent
