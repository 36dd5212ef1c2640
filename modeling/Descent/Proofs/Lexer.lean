import Descent.Frontend
import Descent.Proofs.Buffer

/-! What the lexer promises the parser: every token but the one that ends the
input has a type of the vocabulary and covers at least one byte, and a lexer
whose matcher never gives up keeps no failure. -/

namespace Descent.Calc

/-- A token of the language that stands somewhere in a text. -/
structure Lexed (t : Token) : Prop where
  pos : 1 ≤ t.type
  le : t.type ≤ 14
  nonempty : t.start < t.stop

theorem lexeme_type {l : Letters} {x : Lexeme} (hx : x ∈ lexemes l) {t : TokenType}
    (h : x.type? = some t) : 1 ≤ t ∧ t ≤ 14 := by
  have htypes : (lexemes l).map Lexeme.type? =
      [none, none, some number, some string, some ident] ++ marks.map fun m => some m.2 := rfl
  have hall : ∀ type? ∈ [none, none, some number, some string, some ident] ++
      marks.map fun m => some m.2, ∀ t ∈ type?, 1 ≤ t ∧ t ≤ 14 := by decide
  exact hall _ (htypes ▸ List.mem_map_of_mem hx) t h

theorem scan_type {l : Letters} {cs : List Char} {t : TokenType} {k : Nat}
    (h : scan l cs = some (some t, k)) : 1 ≤ t ∧ t ≤ 14 := by
  obtain ⟨x, hx, hk⟩ := List.exists_of_findSome?_eq_some h
  obtain ⟨m, -, e⟩ := Option.map_eq_some_iff.1 hk
  exact lexeme_type hx (congrArg Prod.fst e)

namespace Place

theorem offset_step (p : Place) (c : Char) : (p.step c).offset = p.offset + c.utf8Size := by
  unfold step
  split <;> rfl

theorem offset_le_advance (cs : List Char) (p : Place) : p.offset ≤ (p.advance cs).offset := by
  induction cs generalizing p with
  | nil => exact Nat.le_refl _
  | cons c cs ih =>
    have h := ih (p.step c)
    rw [offset_step] at h
    exact Nat.le_trans (Nat.le_add_right _ _) h

theorem offset_lt_advance (c : Char) (cs : List Char) (p : Place) :
    p.offset < (p.advance (c :: cs)).offset := by
  have hpos := c.utf8Size_pos
  have h := offset_le_advance cs (p.step c)
  rw [offset_step] at h
  exact Nat.lt_of_lt_of_le (by omega) h

end Place

namespace Lexer

theorem nextWithin_lexed (n : Nat) (l : Lexer) (h : (nextWithin n l).1.type ≠ eof) :
    Lexed (nextWithin n l).1 := by
  induction n generalizing l with
  | zero => exact absurd rfl h
  | succ n ih =>
    unfold nextWithin at h ⊢
    split at h
    · exact absurd rfl h
    · next c cs hrest =>
      split at h
      · exact absurd rfl h
      · next hstall =>
        simp only [hstall]
        split at h
        · exact ih _ h
        · exact ih _ h
        · next t k hscan =>
          obtain ⟨h1, h14⟩ := scan_type hscan
          refine ⟨h1, h14, ?_⟩
          obtain ⟨k, rfl⟩ := Nat.exists_eq_succ_of_ne_zero (Nat.ne_of_gt (scan_pos hscan))
          simp only [token, hrest, List.take_succ_cons]
          exact Place.offset_lt_advance c _ l.place

/-- A lexer that never gives up and never gave up. -/
structure Steady (l : Lexer) : Prop where
  stalls : ∀ offset, l.stalls offset = false
  failure : l.failure? = none

theorem nextWithin_steady (n : Nat) (l : Lexer) (h : l.Steady) : (nextWithin n l).2.Steady := by
  induction n generalizing l with
  | zero => exact h
  | succ n ih =>
    unfold nextWithin
    split
    · exact h
    · rw [if_neg (by simp [h.stalls])]
      split
      · exact ih _ ⟨h.stalls, h.failure⟩
      · exact ih _ ⟨h.stalls, h.failure⟩
      · exact ⟨h.stalls, h.failure⟩

/-- A failure that was kept once stays kept. -/
theorem failure_of_nextWithin (n : Nat) (l : Lexer) (h : (nextWithin n l).2.failure? = none) :
    l.failure? = none := by
  induction n generalizing l with
  | zero => exact h
  | succ n ih =>
    unfold nextWithin at h
    split at h
    · exact h
    · split at h
      · cases h
      · split at h
        · have hreject := ih _ h
          exact hreject
        · have hskip := ih _ h
          exact hskip
        · exact h

end Lexer

end Descent.Calc

namespace Descent.Buffer

open Descent.Calc

theorem pull_lexed (n : Nat) (b : Buffer Lexer)
    (h : ∀ t ∈ b.tokens.toList, t.type ≠ eof → Lexed t) :
    ∀ t ∈ (pull n b).tokens.toList, t.type ≠ eof → Lexed t := by
  induction n generalizing b with
  | zero => exact h
  | succ n ih =>
    unfold pull
    split
    · exact h
    · apply ih
      intro t ht hne
      simp only [fetch, Array.toList_push, List.mem_append, List.mem_singleton] at ht
      rcases ht with ht | rfl
      · exact h t ht hne
      · have hl := Lexer.nextWithin_lexed _ b.source hne
        exact ⟨hl.pos, hl.le, hl.nonempty⟩

theorem input_lexed (l : Lexer) : ∀ t ∈ (ofSource l).input, Lexed t := by
  intro t ht
  obtain ⟨e, he, -, hne⟩ := (WF.ofSource l).tokens_fill
  have hmem : t ∈ (ofSource l).fill.tokens.toList := by
    rw [he]
    exact List.mem_append_left _ ht
  exact pull_lexed _ (ofSource l) (by simp [ofSource]) t hmem (hne t ht)

theorem pull_steady (n : Nat) (b : Buffer Lexer) (h : b.source.Steady) :
    (pull n b).source.Steady := by
  induction n generalizing b with
  | zero => exact h
  | succ n ih =>
    unfold pull
    split
    · exact h
    · exact ih _ (Lexer.nextWithin_steady _ b.source h)

theorem failure_of_pull (n : Nat) (b : Buffer Lexer) (h : (pull n b).source.failure? = none) :
    b.source.failure? = none := by
  induction n generalizing b with
  | zero => exact h
  | succ n ih =>
    unfold pull at h
    split at h
    · exact h
    · exact Lexer.failure_of_nextWithin _ b.source (ih b.fetch h)

/-- What the lexer will never keep it does not keep now. -/
theorem failure_of_whole {b : Buffer Lexer} (h : b.whole.source.failure? = none) :
    b.source.failure? = none := failure_of_pull _ b h

theorem whole_steady (source : String) :
    (ofSource (Lexer.ofString source never)).whole.source.Steady :=
  pull_steady _ _ ⟨fun _ => rfl, rfl⟩

end Descent.Buffer
