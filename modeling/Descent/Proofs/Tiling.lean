import Descent.Proofs.Positions
import Mathlib.Data.List.DropRight

/-! The lexer tiles a text. It cuts the text into slices, each of them a lexeme or
a character that fits nowhere, and steps over one after another, with its place
exactly behind the last of them: the bytes, the lines and the columns are those of
the text before it. What it returns are the slices that make tokens, and what it
reports are the characters that fit nowhere. -/

namespace Descent.Calc

namespace Place

/-- The place behind a text: its bytes, one line more than it has line breaks, and
the characters behind the last of these. -/
def behind (before : List Char) : Place where
  offset := (String.ofList before).utf8ByteSize
  line := 1 + before.count '\n'
  column := (before.rtakeWhile (· ≠ '\n')).length

theorem behind_concat (before : List Char) (c : Char) :
    behind (before ++ [c]) = (behind before).step c := by
  have hsize : (String.ofList (before ++ [c])).utf8ByteSize =
      (String.ofList before).utf8ByteSize + c.utf8Size := by
    rw [String.ofList_append, String.utf8ByteSize_append, ← String.singleton_eq_ofList,
      String.utf8ByteSize_singleton]
  rw [behind, hsize]
  by_cases hc : c = '\n'
  · subst hc
    simp [behind, step, Nat.add_assoc]
  · simp [behind, step, hc]

theorem behind_append (before cs : List Char) :
    behind (before ++ cs) = (behind before).advance cs := by
  induction cs generalizing before with
  | nil => rw [List.append_nil, advance, List.foldl_nil]
  | cons c cs ih =>
    rw [← List.singleton_append, ← List.append_assoc, ih, behind_concat]
    rfl

end Place

/-- What the lexer makes of a slice. -/
inductive Kind where
  | token (type : TokenType)
  /-- Blanks and comments. -/
  | trivia
  /-- A character that fits nowhere. -/
  | stray (c : Char)
  deriving DecidableEq, Repr

/-- A stretch of a text, with the text before it. -/
structure Slice where
  before : List Char
  kind : Kind
  text : List Char
  deriving DecidableEq, Repr

namespace Slice

def place (x : Slice) : Place := .behind x.before

/-- The token it makes, if any. -/
def token? (x : Slice) : Option Token :=
  match x.kind with
  | .token t =>
    some { type := t, text := String.ofList x.text, line := x.place.line,
           column := x.place.column, start := x.place.offset,
           stop := (Place.behind (x.before ++ x.text)).offset, index := 0 }
  | _ => none

/-- The error it is reported as, if any. -/
def error? (x : Slice) : Option SyntaxError :=
  match x.kind with
  | .stray c =>
    some (.report x.place.line x.place.column
      s!"token recognition error at: '{String.ofList (visibleChar c)}'")
  | _ => none

/-- Whether it is a character that fits nowhere. -/
def isStray (x : Slice) : Bool :=
  match x.kind with
  | .stray _ => true
  | _ => false

end Slice

/-- What is in front of a text: its kind, its own text, and what comes then. -/
def cut : List Char → Option (Kind × List Char × List Char)
  | [] => none
  | c :: cs =>
    match scan letters (c :: cs) with
    | none => some (.stray c, [c], cs)
    | some (none, k) => some (.trivia, (c :: cs).take k, (c :: cs).drop k)
    | some (some t, k) => some (.token t, (c :: cs).take k, (c :: cs).drop k)

theorem cut_spec {cs text rest : List Char} {kind : Kind} (h : cut cs = some (kind, text, rest)) :
    text ++ rest = cs ∧ text ≠ [] := by
  cases cs with
  | nil => cases h
  | cons c cs =>
    simp only [cut] at h
    split at h
    · cases h
      exact ⟨rfl, List.cons_ne_nil c []⟩
    · next k hscan =>
      cases h
      have hpos := scan_pos hscan
      exact ⟨List.take_append_drop k (c :: cs), by simp; omega⟩
    · next t k hscan =>
      cases h
      have hpos := scan_pos hscan
      exact ⟨List.take_append_drop k (c :: cs), by simp; omega⟩

theorem cut_stray {cs text rest : List Char} {c : Char}
    (h : cut cs = some (.stray c, text, rest)) : text = [c] := by
  cases cs with
  | nil => cases h
  | cons d cs =>
    simp only [cut] at h
    split at h <;> cases h
    rfl

theorem cut_eq_none {cs : List Char} (h : cut cs = none) : cs = [] := by
  cases cs with
  | nil => rfl
  | cons c cs =>
    simp only [cut] at h
    split at h <;> cases h

theorem cut_shorter {cs text rest : List Char} {kind : Kind}
    (h : cut cs = some (kind, text, rest)) : rest.length < cs.length := by
  obtain ⟨rfl, hne⟩ := cut_spec h
  have hpos := List.length_pos_iff.mpr hne
  rw [List.length_append]
  omega

/-- The slices of `cs` where it comes behind `before`. -/
def slices (before cs : List Char) : List Slice :=
  match _h : cut cs with
  | none => []
  | some (kind, text, rest) => ⟨before, kind, text⟩ :: slices (before ++ text) rest
termination_by cs.length
decreasing_by exact cut_shorter _h

/-- The tokens of `cs` where it comes behind `before`. -/
def tokensOf (before cs : List Char) : List Token := (slices before cs).filterMap Slice.token?

/-- The errors that `cs` is reported with where it comes behind `before`. -/
def complaints (before cs : List Char) : List SyntaxError :=
  (slices before cs).filterMap Slice.error?

theorem slices_nil (before : List Char) : slices before [] = [] := by
  rw [slices]
  rfl

theorem slices_eq {cs text rest : List Char} {kind : Kind} (before : List Char)
    (h : cut cs = some (kind, text, rest)) :
    slices before cs = ⟨before, kind, text⟩ :: slices (before ++ text) rest := by
  rw [slices]
  split
  · next hnone => rw [hnone] at h; cases h
  · next hsome =>
    rw [hsome] at h
    cases h
    rfl

theorem slices_text (before cs : List Char) : (slices before cs).flatMap Slice.text = cs := by
  fun_induction slices before cs with
  | case1 before cs h => rw [cut_eq_none h, List.flatMap_nil]
  | case2 before cs kind text rest h ih => rw [List.flatMap_cons, ih, (cut_spec h).1]

/-- Every slice is what is in front of the text from there on. -/
theorem slices_split {before cs : List Char} {ps qs : List Slice} {x : Slice}
    (h : slices before cs = ps ++ x :: qs) :
    x.before = before ++ ps.flatMap Slice.text ∧
      cut (x.text ++ qs.flatMap Slice.text) = some (x.kind, x.text, qs.flatMap Slice.text) := by
  induction ps generalizing before cs with
  | nil =>
    cases hc : cut cs with
    | none => simp [cut_eq_none hc, slices_nil] at h
    | some p =>
      obtain ⟨kind, text, rest⟩ := p
      rw [slices_eq before hc, List.nil_append] at h
      obtain ⟨rfl, rfl⟩ := List.cons.inj h
      rw [slices_text, (cut_spec hc).1, List.flatMap_nil, List.append_nil]
      exact ⟨rfl, hc⟩
  | cons p ps ih =>
    cases hc : cut cs with
    | none => simp [cut_eq_none hc, slices_nil] at h
    | some q =>
      obtain ⟨kind, text, rest⟩ := q
      rw [slices_eq before hc, List.cons_append] at h
      obtain ⟨rfl, htail⟩ := List.cons.inj h
      obtain ⟨hbefore, hcut⟩ := ih htail
      rw [hbefore, List.flatMap_cons, List.append_assoc]
      exact ⟨rfl, hcut⟩

namespace Lexer

/-- A lexer that never gives up and stands behind `before`. -/
structure Behind (before : List Char) (l : Lexer) : Prop extends Steady l where
  place : l.place = .behind before

theorem ofString_behind (source : String) : (ofString source never).Behind [] :=
  ⟨⟨fun _ => rfl, rfl⟩, rfl⟩

/-- Steps over a slice, and reports it if it fits nowhere. -/
def pass (l : Lexer) (x : Slice) : Lexer :=
  match x.kind with
  | .stray c => l.reject c
  | _ => l.skip x.text.length

theorem skip_take (l : Lexer) (k : Nat) : l.skip (l.rest.take k).length = l.skip k := by
  rcases Nat.le_total k l.rest.length with hk | hk
  · rw [List.length_take, Nat.min_eq_left hk]
  · rw [List.take_of_length_le hk, skip, skip, List.take_length, List.take_of_length_le hk,
      List.drop_length, List.drop_of_length_le hk]

variable {before : List Char} {l : Lexer}

theorem Behind.pass {text rest : List Char} {kind : Kind} (h : l.Behind before)
    (hc : cut l.rest = some (kind, text, rest)) :
    (l.pass ⟨before, kind, text⟩).Behind (before ++ text) ∧
      (l.pass ⟨before, kind, text⟩).rest = rest ∧
      (l.pass ⟨before, kind, text⟩).errors =
        l.errors ++ (Slice.error? ⟨before, kind, text⟩).toList := by
  have hcut := (cut_spec hc).1
  have hskip : (l.skip text.length).rest = rest ∧
      (l.skip text.length).place = .behind (before ++ text) := by
    rw [skip, ← hcut, List.drop_left, List.take_left, h.place, Place.behind_append]
    exact ⟨rfl, rfl⟩
  cases kind with
  | token t => exact ⟨⟨⟨h.stalls, h.failure⟩, hskip.2⟩, hskip.1, (List.append_nil _).symm⟩
  | trivia => exact ⟨⟨⟨h.stalls, h.failure⟩, hskip.2⟩, hskip.1, (List.append_nil _).symm⟩
  | stray c =>
    obtain rfl := cut_stray hc
    refine ⟨⟨⟨h.stalls, h.failure⟩, hskip.2⟩, hskip.1, ?_⟩
    simp only [Lexer.pass, reject, h.place]
    rfl

/-- The next token among slices that are in front. -/
def nextOver (l : Lexer) : List Slice → Token × Lexer
  | [] => (l.atEnd, l)
  | x :: xs =>
    match x.token? with
    | some t => (t, l.pass x)
    | none => nextOver (l.pass x) xs

/-- The next token is the next one among the slices. -/
theorem nextWithin_eq (n : Nat) (h : l.Behind before) (hn : l.rest.length ≤ n) :
    nextWithin n l = l.nextOver (slices before l.rest) := by
  induction n generalizing l before with
  | zero =>
    rw [List.length_eq_zero_iff.mp (Nat.le_zero.mp hn), slices_nil]
    rfl
  | succ n ih =>
    cases hrest : l.rest with
    | nil =>
      rw [slices_nil, nextWithin, hrest]
      rfl
    | cons c cs =>
      have hstall : l.stalls l.place.offset = false := h.stalls _
      have hstep : ∀ {kind text rest}, cut l.rest = some (kind, text, rest) →
          nextWithin n (l.pass ⟨before, kind, text⟩) =
            (l.pass ⟨before, kind, text⟩).nextOver (slices (before ++ text) rest) := by
        intro kind text rest hc
        obtain ⟨hbehind, hrest', -⟩ := h.pass hc
        have hlt := cut_shorter hc
        rw [ih hbehind (by rw [hrest']; omega), hrest']
      rw [nextWithin, hrest]
      simp only [hstall, Bool.false_eq_true, ↓reduceIte]
      split
      · next hscan =>
        have hc : cut (c :: cs) = some (.stray c, [c], cs) := by simp only [cut, hscan]
        rw [slices_eq before hc]
        exact hstep (hrest ▸ hc)
      · next k hscan =>
        have hc : cut (c :: cs) = some (.trivia, (c :: cs).take k, (c :: cs).drop k) := by
          simp only [cut, hscan]
        have hpass : l.skip k = l.pass ⟨before, .trivia, (c :: cs).take k⟩ := by
          rw [← hrest]
          exact (l.skip_take k).symm
        rw [slices_eq before hc, hpass]
        exact hstep (hrest ▸ hc)
      · next t k hscan =>
        have hc : cut (c :: cs) = some (.token t, (c :: cs).take k, (c :: cs).drop k) := by
          simp only [cut, hscan]
        have hpass : l.skip k = l.pass ⟨before, .token t, (c :: cs).take k⟩ := by
          rw [← hrest]
          exact (l.skip_take k).symm
        rw [slices_eq before hc, hpass]
        simp only [nextOver, Slice.token?, Slice.place, token, hrest, h.place,
          Place.behind_append]

theorem Behind.next (h : l.Behind before) : l.next = l.nextOver (slices before l.rest) :=
  nextWithin_eq _ h (Nat.le_refl _)

/-- Steps over one slice after another. -/
def passAll (l : Lexer) (xs : List Slice) : Lexer := xs.foldl pass l

theorem passAll_append (l : Lexer) (xs ys : List Slice) :
    l.passAll (xs ++ ys) = (l.passAll xs).passAll ys := List.foldl_append

/-- Where the lexer stands after it has stepped over some of the slices. -/
theorem Behind.passAll {ps qs : List Slice} (h : l.Behind before)
    (hs : slices before l.rest = ps ++ qs) :
    (l.passAll ps).Behind (before ++ ps.flatMap Slice.text) ∧
      slices (before ++ ps.flatMap Slice.text) (l.passAll ps).rest = qs ∧
      (l.passAll ps).errors = l.errors ++ ps.filterMap Slice.error? := by
  induction ps generalizing l before with
  | nil => simpa [Lexer.passAll] using ⟨h, hs⟩
  | cons x ps ih =>
    cases hc : cut l.rest with
    | none => simp [cut_eq_none hc, slices_nil] at hs
    | some p =>
      obtain ⟨kind, text, rest⟩ := p
      rw [slices_eq before hc, List.cons_append] at hs
      obtain ⟨rfl, htail⟩ := List.cons.inj hs
      obtain ⟨hbehind, hrest, herrors⟩ := h.pass hc
      obtain ⟨hbehind', hslices, herrors'⟩ := ih hbehind (hrest ▸ htail)
      rw [List.append_assoc] at hbehind' hslices
      refine ⟨hbehind', hslices, herrors'.trans ?_⟩
      rw [herrors, List.append_assoc, List.filterMap_cons]
      cases Slice.error? ⟨before, kind, text⟩ <;> rfl

/-- A call steps over what makes no token, and over the first slice that makes
one, or comes to the end. -/
theorem nextOver_cases (l : Lexer) (xs : List Slice) :
    (xs.filterMap Slice.token? = [] ∧ l.nextOver xs = ((l.passAll xs).atEnd, l.passAll xs)) ∨
    ∃ ps qs t, xs = ps ++ qs ∧ ps.filterMap Slice.token? = [t] ∧
      l.nextOver xs = (t, l.passAll ps) := by
  induction xs generalizing l with
  | nil => exact Or.inl ⟨rfl, rfl⟩
  | cons x xs ih =>
    cases hx : x.token? with
    | some t => exact Or.inr ⟨[x], xs, t, rfl, by simp [hx], by simp [nextOver, hx, passAll]⟩
    | none =>
      simp only [nextOver, hx, List.filterMap_cons]
      rcases ih (l.pass x) with hend | ⟨ps, qs, t, rfl, hps, hnext⟩
      · exact Or.inl hend
      · exact Or.inr ⟨x :: ps, qs, t, rfl, by simp [hx, hps], hnext⟩

/-- The lexer after `k` calls. -/
def after (l : Lexer) (k : Nat) : Lexer := (fun l => l.next.2)^[k] l

theorem after_succ (l : Lexer) (k : Nat) : l.after (k + 1) = (l.after k).next.2 :=
  Function.iterate_succ_apply' _ k l

/-- One call, wherever the lexer stands among the slices. -/
theorem Behind.call {ps qs : List Slice} (h : l.Behind before)
    (hs : slices before l.rest = ps ++ qs) :
    (qs.filterMap Slice.token? = [] ∧
      (l.passAll ps).next = ((l.passAll (ps ++ qs)).atEnd, l.passAll (ps ++ qs))) ∨
    ∃ qs₁ qs₂ t, qs = qs₁ ++ qs₂ ∧ qs₁.filterMap Slice.token? = [t] ∧
      (l.passAll ps).next = (t, l.passAll (ps ++ qs₁)) := by
  obtain ⟨hbehind, hslices, -⟩ := h.passAll hs
  rw [hbehind.next, hslices, passAll_append]
  rcases nextOver_cases (l.passAll ps) qs with hend | ⟨qs₁, qs₂, t, hqs, ht, hnext⟩
  · exact Or.inl hend
  · exact Or.inr ⟨qs₁, qs₂, t, hqs, ht, by rw [hnext, passAll_append]⟩

/-- The calls step over the slices, each up to the next token, and the one that
finds no more of them over all that are left. -/
theorem Behind.after (h : l.Behind before) (k : Nat) :
    ∃ ps qs, slices before l.rest = ps ++ qs ∧ l.after k = l.passAll ps ∧
      ps.filterMap Slice.token? = (tokensOf before l.rest).take k ∧
      ((tokensOf before l.rest).length < k → qs = []) := by
  unfold tokensOf
  induction k with
  | zero => exact ⟨[], _, rfl, rfl, rfl, fun hlt => absurd hlt (Nat.not_lt_zero _)⟩
  | succ k ih =>
    obtain ⟨ps, qs, hs, hafter, htokens, -⟩ := ih
    have hlen := congrArg List.length htokens
    rw [hs, List.length_take, List.filterMap_append, List.length_append] at hlen
    rw [after_succ, hafter, hs, List.filterMap_append]
    rcases h.call hs with ⟨hnone, hnext⟩ | ⟨qs₁, qs₂, t, rfl, ht, hnext⟩
    · refine ⟨ps ++ qs, [], (List.append_nil _).symm, by rw [hnext], ?_, fun _ => rfl⟩
      rw [List.filterMap_append, hnone, List.append_nil, List.take_of_length_le (by omega)]
    · rw [List.filterMap_append, ht, List.length_append, List.length_singleton] at hlen
      have hk : (ps.filterMap Slice.token?).length = k := by omega
      rw [List.filterMap_append, ht]
      refine ⟨ps ++ qs₁, qs₂, (List.append_assoc _ _ _).symm, by rw [hnext], ?_, fun hlt => ?_⟩
      · rw [List.filterMap_append, ht, ← List.append_assoc, List.take_left' (by simp [hk])]
      · simp only [List.length_append, List.length_singleton, hk] at hlt
        omega

/-- What the calls return: the tokens, and then the one that ends the input for
ever. -/
theorem Behind.returns (h : l.Behind before) (k : Nat) :
    (l.after k).next.1 =
      (tokensOf before l.rest).getD k (l.passAll (slices before l.rest)).atEnd := by
  obtain ⟨ps, qs, hs, hafter, htokens, -⟩ := h.after k
  unfold tokensOf at htokens ⊢
  have hlen := congrArg List.length htokens
  rw [hs, List.length_take, List.filterMap_append, List.length_append] at hlen
  rw [hafter, hs, List.filterMap_append, List.getD_eq_getElem?_getD]
  rcases h.call hs with ⟨hnone, hnext⟩ | ⟨qs₁, qs₂, t, rfl, ht, hnext⟩
  · rw [hnext, hnone, List.append_nil, List.getElem?_eq_none (by omega)]
    rfl
  · rw [List.filterMap_append, ht, List.length_append, List.length_singleton] at hlen
    have hk : (ps.filterMap Slice.token?).length = k := by omega
    rw [hnext, List.filterMap_append, ht, List.getElem?_append_right (by omega), hk, Nat.sub_self]
    rfl

/-- Behind all slices the lexer stands at the end of the text. -/
theorem Behind.atEnd (h : l.Behind before) :
    (l.passAll (slices before l.rest)).atEnd =
      Token.atEnd (Place.behind (before ++ l.rest)).offset (Place.behind (before ++ l.rest)).line
        (Place.behind (before ++ l.rest)).column := by
  obtain ⟨hbehind, -, -⟩ := h.passAll (List.append_nil _).symm
  rw [slices_text] at hbehind
  rw [Lexer.atEnd, hbehind.place]

end Lexer

/-- A slice that is followed by another one, some text later. -/
def Slice.Precedes (x y : Slice) : Prop :=
  x.text ≠ [] ∧ ∃ more, y.before = x.before ++ x.text ++ more

theorem slices_pairwise (before cs : List Char) : (slices before cs).Pairwise Slice.Precedes := by
  fun_induction slices before cs with
  | case1 => exact .nil
  | case2 before cs kind text rest h ih =>
    refine .cons (fun y hy => ⟨(cut_spec h).2, ?_⟩) ih
    obtain ⟨ps, qs, hs⟩ := List.append_of_mem hy
    exact ⟨_, (slices_split hs).1⟩

namespace Slice

variable {x y : Slice}

theorem token?_eq_some {t : Token} (h : x.token? = some t) :
    t.text = String.ofList x.text ∧ t.line = x.place.line ∧ t.column = x.place.column ∧
      t.start = x.place.offset ∧ t.stop = (Place.behind (x.before ++ x.text)).offset := by
  unfold token? at h
  split at h
  · cases h
    exact ⟨rfl, rfl, rfl, rfl, rfl⟩
  · cases h

theorem error?_position {e : SyntaxError} (h : x.error? = some e) :
    e.position = x.place.position := by
  unfold error? at h
  split at h
  · cases h
    rfl
  · cases h

theorem Precedes.offset_le (h : Precedes x y) :
    (Place.behind (x.before ++ x.text)).offset ≤ y.place.offset := by
  obtain ⟨-, more, hy⟩ := h
  rw [place, hy, Place.behind_append _ more]
  exact Place.offset_le_advance _ _

theorem Precedes.earlier (h : Precedes x y) : Earlier x.place.position y.place.position := by
  obtain ⟨hne, more, hy⟩ := h
  obtain ⟨c, cs, hx⟩ := List.exists_cons_of_ne_nil hne
  rw [place, place, hy, List.append_assoc, Place.behind_append x.before, hx, List.cons_append]
  exact Place.advance_earlier c _ _

end Slice

/-- A token that is cut out of a text, with its exact place in it. -/
def Exact (source : String) (t : Token) : Prop :=
  ∃ before after : String, source = before ++ t.text ++ after ∧
    t.start = before.utf8ByteSize ∧ t.stop = t.start + t.text.utf8ByteSize ∧ t.start < t.stop ∧
    t.line = 1 + before.toList.count '\n' ∧
    t.column = (before.toList.rtakeWhile (· ≠ '\n')).length

theorem exact_of_slices {source : String} {t : Token}
    (h : t ∈ tokensOf [] source.toList) : Exact source t := by
  obtain ⟨x, hx, ht⟩ := List.mem_filterMap.mp h
  obtain ⟨ps, qs, hs⟩ := List.append_of_mem hx
  obtain ⟨hbefore, hcut⟩ := slices_split hs
  obtain ⟨htext, hline, hcolumn, hstart, hstop⟩ := Slice.token?_eq_some ht
  have hall := slices_text [] source.toList
  rw [hs, List.flatMap_append, List.flatMap_cons] at hall
  rw [List.nil_append] at hbefore
  have hsize : t.stop = t.start + t.text.utf8ByteSize := by
    rw [hstop, hstart, htext, Place.behind, String.ofList_append, String.utf8ByteSize_append]
    rfl
  refine ⟨String.ofList x.before, String.ofList (qs.flatMap Slice.text), ?_, hstart, hsize, ?_, ?_,
    ?_⟩
  · rw [htext, ← String.ofList_append, ← String.ofList_append, hbefore, List.append_assoc, hall,
      String.ofList_toList]
  · obtain ⟨c, cs, hc⟩ := List.exists_cons_of_ne_nil (cut_spec hcut).2
    rw [hstop, hstart, Slice.place, Place.behind_append, hc]
    exact Place.offset_lt_advance c cs _
  · rw [hline, String.toList_ofList]
    rfl
  · rw [hcolumn, String.toList_ofList]
    rfl

theorem complaints_position (before cs : List Char) :
    (complaints before cs).map SyntaxError.position =
      ((slices before cs).filter Slice.isStray).map fun x => x.place.position := by
  unfold complaints
  induction slices before cs with
  | nil => rfl
  | cons x xs ih =>
    cases hx : x.kind <;> simp [Slice.error?, Slice.isStray, hx, ih, SyntaxError.report,
      SyntaxError.position, Place.position]

/-- The lexer tiles every text. The slices that it steps over are those the matcher
finds, none is empty, and together they are the text; behind each of them the lexer
has its exact place, and has reported the characters so far that fit nowhere. Call
after call it steps over the slices up to the next token and returns it, and from
the end of the input on it returns the token that ends it. The tokens stand where
they say, one behind the other, and every character that fits nowhere is reported
once, in its place. -/
theorem lexer_tiles (source : String) :
    (slices [] source.toList).flatMap Slice.text = source.toList ∧
    (∀ ps x qs, slices [] source.toList = ps ++ x :: qs →
      x.text ≠ [] ∧ x.before = ps.flatMap Slice.text ∧
      cut (x.text ++ qs.flatMap Slice.text) = some (x.kind, x.text, qs.flatMap Slice.text) ∧
      ∀ c, x.kind = .stray c → x.text = [c]) ∧
    (∀ ps qs, slices [] source.toList = ps ++ qs →
      ((Lexer.ofString source never).passAll ps).place = .behind (ps.flatMap Slice.text) ∧
      ((Lexer.ofString source never).passAll ps).errors = ps.filterMap Slice.error?) ∧
    (∀ k, ∃ ps qs, slices [] source.toList = ps ++ qs ∧
      (Lexer.ofString source never).after k = (Lexer.ofString source never).passAll ps ∧
      ps.filterMap Slice.token? = (tokensOf [] source.toList).take k ∧
      ((tokensOf [] source.toList).length < k → qs = [])) ∧
    (∀ k, ((Lexer.ofString source never).after k).next.1 =
      (tokensOf [] source.toList).getD k (Token.atEnd source.utf8ByteSize
        (1 + source.toList.count '\n') (source.toList.rtakeWhile (· ≠ '\n')).length)) ∧
    (∀ t ∈ tokensOf [] source.toList, Exact source t) ∧
    ((tokensOf [] source.toList).Pairwise fun t u => t.stop ≤ u.start) ∧
    (complaints [] source.toList).map SyntaxError.position =
      ((slices [] source.toList).filter Slice.isStray).map (fun x => x.place.position) ∧
    ((complaints [] source.toList).Pairwise fun e f => Earlier e.position f.position) := by
  have hl := Lexer.ofString_behind source
  have hpair := slices_pairwise [] source.toList
  refine ⟨slices_text _ _, fun ps x qs hs => ?_, fun ps qs hs => ?_, hl.after, fun k => ?_,
    fun t => exact_of_slices, ?_, complaints_position _ _, ?_⟩
  · obtain ⟨hbefore, hcut⟩ := slices_split hs
    refine ⟨(cut_spec hcut).2, hbefore, hcut, fun c hc => ?_⟩
    rw [hc] at hcut
    exact cut_stray hcut
  · obtain ⟨hbehind, -, herrors⟩ := hl.passAll hs
    exact ⟨hbehind.place, herrors⟩
  · have hend := hl.atEnd
    have hsize : (String.ofList source.toList).utf8ByteSize = source.utf8ByteSize := by
      rw [String.ofList_toList]
    rw [hl.returns k, hend, ← hsize]
    rfl
  · rw [tokensOf, List.pairwise_filterMap]
    refine hpair.imp fun hxy t ht u hu => ?_
    rw [(Slice.token?_eq_some ht).2.2.2.2, (Slice.token?_eq_some hu).2.2.2.1]
    exact hxy.offset_le
  · rw [complaints, List.pairwise_filterMap]
    refine hpair.imp fun hxy e he f hf => ?_
    rw [Slice.error?_position he, Slice.error?_position hf]
    exact hxy.earlier

end Descent.Calc
