import Descent.Proofs.Stream
import Mathlib.Data.List.Forall2

/-! Two texts with a line break between them. A lexeme other than a run of blanks
never reaches over a line break that comes behind it, and blanks are dropped wherever
they are cut. So if the first text has no character that fits nowhere, the tokens and
errors of the whole are those of the two texts, the second so many lines further
down. -/

namespace Descent.Calc

theorem span_le (p : Char → Bool) (cs : List Char) : span p cs ≤ cs.length := by
  induction cs with
  | nil => exact Nat.le_refl 0
  | cons c cs ih =>
    unfold span
    split
    · exact Nat.succ_le_succ ih
    · exact Nat.zero_le _

theorem take_span (p : Char → Bool) (cs : List Char) : cs.take (span p cs) = cs.takeWhile p := by
  induction cs with
  | nil => rfl
  | cons c cs ih =>
    by_cases hc : p c = true
    · simp [span, hc, ih]
    · simp [span, hc]

theorem drop_span (p : Char → Bool) (cs : List Char) : cs.drop (span p cs) = cs.dropWhile p := by
  induction cs with
  | nil => rfl
  | cons c cs ih =>
    by_cases hc : p c = true
    · simp [span, hc, ih]
    · simp [span, hc]

/-- A run ends before a character that does not belong to it. -/
theorem span_append {p : Char → Bool} {d : Char} (h : p d = false) (cs ds : List Char) :
    span p (cs ++ d :: ds) = span p cs := by
  induction cs with
  | nil => simp [span, h]
  | cons c cs ih => simp [span, ih]

section Length

/-! No lexeme reaches beyond the text. -/

theorem mantissa?_le {cs : List Char} {k : Nat} (h : mantissa? cs = some k) : k ≤ cs.length := by
  have hwhole := span_le Char.isDigit cs
  unfold mantissa? at h
  dsimp only at h
  split at h
  · next rest hdrop =>
    have hlen := congrArg List.length hdrop
    have hrest := span_le Char.isDigit rest
    rw [List.length_drop, List.length_cons] at hlen
    split at h
    · cases h
    · simp only [Option.some.injEq] at h
      omega
  · unfold nonzero at h
    split at h
    · cases h
    · simp only [Option.some.injEq] at h
      omega

theorem signLength_le (cs : List Char) : signLength cs ≤ cs.length := by
  unfold signLength
  split <;> simp

theorem exponentLength_le (cs : List Char) : exponentLength cs ≤ cs.length := by
  cases cs with
  | nil => exact Nat.le_refl 0
  | cons c cs =>
    have hsign := signLength_le cs
    have hdigits := span_le Char.isDigit (cs.drop (signLength cs))
    rw [List.length_drop] at hdigits
    simp only [exponentLength, List.length_cons]
    split
    · split <;> omega
    · omega

theorem number?_le {cs : List Char} {k : Nat} (h : number? cs = some k) : k ≤ cs.length := by
  obtain ⟨m, hm, rfl⟩ := Option.map_eq_some_iff.1 h
  have hmantissa := mantissa?_le hm
  have hexponent := exponentLength_le (cs.drop m)
  rw [List.length_drop] at hexponent
  omega

theorem stringTail?_le {cs : List Char} {k : Nat} (h : stringTail? cs = some k) :
    k ≤ cs.length := by
  fun_induction stringTail? cs generalizing k with
  | case1 => cases h
  | case2 cs =>
    cases h
    simp
  | case3 c cs ih =>
    obtain ⟨m, hm, rfl⟩ := Option.map_eq_some_iff.1 h
    have := ih hm
    simp only [List.length_cons]
    omega
  | case4 => cases h
  | case5 c cs _ _ _ ih =>
    obtain ⟨m, hm, rfl⟩ := Option.map_eq_some_iff.1 h
    have := ih hm
    simp only [List.length_cons]
    omega

theorem lexeme_le {l : Letters} {x : Lexeme} (hx : x ∈ lexemes l) {cs : List Char} {k : Nat}
    (h : x.length? cs = some k) : k ≤ cs.length := by
  simp only [lexemes, List.mem_append, List.mem_cons, List.not_mem_nil, or_false,
    List.mem_map] at hx
  rcases hx with (rfl | rfl | rfl | rfl | rfl) | ⟨m, _, rfl⟩
  · have hspan := span_le isSpace cs
    simp only [blanks?, nonzero] at h
    split at h <;> cases h
    exact hspan
  · simp only [comment?] at h
    split at h <;> cases h
    simpa using span_le _ _
  · exact number?_le h
  · simp only [string?] at h
    split at h
    · obtain ⟨m, hm, rfl⟩ := Option.map_eq_some_iff.1 h
      exact Nat.succ_le_succ (stringTail?_le hm)
    · cases h
  · simp only [ident?] at h
    split at h
    · split at h <;> cases h
      simpa using span_le _ _
    · cases h
  · simp only [mark?] at h
    split at h
    · split at h <;> cases h
      simp
    · cases h

theorem scan_le {l : Letters} {cs : List Char} {t : Option TokenType} {k : Nat}
    (h : scan l cs = some (t, k)) : k ≤ cs.length := by
  obtain ⟨x, hx, hk⟩ := List.exists_of_findSome?_eq_some h
  obtain ⟨m, hm, e⟩ := Option.map_eq_some_iff.1 hk
  cases e
  exact lexeme_le hx hm

end Length

section Blank

/-! What a blank behind a text means for the lexeme in front of it. -/

variable {d : Char} (hd : isSpace d = true)

include hd

theorem isDigit_of_isSpace : d.isDigit = false := by
  rcases isSpace_cases hd with rfl | rfl | rfl | rfl <;> decide

theorem mantissa?_append (cs ds : List Char) : mantissa? (cs ++ d :: ds) = mantissa? cs := by
  have hspan (xs : List Char) : span Char.isDigit (xs ++ d :: ds) = span Char.isDigit xs :=
    span_append (isDigit_of_isSpace hd) xs ds
  have hdot : d ≠ '.' := by
    rcases isSpace_cases hd with rfl | rfl | rfl | rfl <;> decide
  simp only [mantissa?, hspan, List.drop_append_of_le_length (span_le Char.isDigit cs)]
  cases cs.drop (span Char.isDigit cs) with
  | nil =>
    rw [List.nil_append]
    split
    · next he => exact absurd (List.cons.inj he).1 hdot
    · rfl
  | cons c rest =>
    rw [List.cons_append]
    by_cases hc : c = '.'
    · subst hc
      simp only [hspan]
    · split
      · next he => exact absurd (List.cons.inj he).1 hc
      · split
        · next he => exact absurd (List.cons.inj he).1 hc
        · rfl

theorem signLength_append (cs ds : List Char) : signLength (cs ++ d :: ds) = signLength cs := by
  cases cs with
  | nil => rcases isSpace_cases hd with rfl | rfl | rfl | rfl <;> rfl
  | cons c cs =>
    rw [List.cons_append]
    by_cases hp : c = '+'
    · subst hp
      rfl
    · by_cases hm : c = '-'
      · subst hm
        rfl
      · simp [signLength, hp, hm]

theorem exponentLength_append (cs ds : List Char) :
    exponentLength (cs ++ d :: ds) = exponentLength cs := by
  cases cs with
  | nil => rcases isSpace_cases hd with rfl | rfl | rfl | rfl <;> rfl
  | cons c cs =>
    simp only [List.cons_append, exponentLength, signLength_append hd,
      List.drop_append_of_le_length (signLength_le cs), span_append (isDigit_of_isSpace hd)]

theorem number?_append (cs ds : List Char) : number? (cs ++ d :: ds) = number? cs := by
  rw [number?, number?, mantissa?_append hd]
  cases hm : mantissa? cs with
  | none => rfl
  | some m =>
    rw [Option.map_some, Option.map_some, List.drop_append_of_le_length (mantissa?_le hm),
      exponentLength_append hd]

theorem ident?_append (l : Letters) (cs ds : List Char) :
    ident? l (cs ++ d :: ds) = ident? l cs := by
  cases cs with
  | nil => simp [ident?, l.begins_of_isSpace d hd]
  | cons c cs =>
    rw [List.cons_append, ident?, ident?, span_append (l.continues_of_isSpace d hd)]

theorem mark?_append {m : Char} {t : TokenType} (hm : (m, t) ∈ marks) (cs ds : List Char) :
    mark? m (cs ++ d :: ds) = mark? m cs := by
  have hall : ∀ x ∈ marks, isSpace x.1 = false := by decide
  have hne : d ≠ m := by
    rintro rfl
    exact Bool.noConfusion ((hall _ hm).symm.trans hd)
  cases cs with
  | nil => simp [mark?, hne]
  | cons c cs => rfl

end Blank

/-- A string that is closed is closed wherever the text goes on. -/
theorem stringTail?_append {cs : List Char} {k : Nat} (h : stringTail? cs = some k)
    (ds : List Char) : stringTail? (cs ++ ds) = some k := by
  fun_induction stringTail? cs generalizing k with
  | case1 => cases h
  | case2 cs =>
    cases h
    rfl
  | case3 c cs ih =>
    obtain ⟨m, hm, rfl⟩ := Option.map_eq_some_iff.1 h
    simp [stringTail?, ih hm]
  | case4 => cases h
  | case5 c cs hq hb hne ih =>
    obtain ⟨m, hm, rfl⟩ := Option.map_eq_some_iff.1 h
    rw [List.cons_append, stringTail?.eq_4 _ _ hq (fun _ _ e _ => hne e)]
    simp [hne, ih hm]

/-- A quote begins a string or fits nowhere. -/
theorem scan_quote (l : Letters) (cs : List Char) :
    scan l ('"' :: cs) = (stringTail? cs).map fun k => (some string, k + 1) := by
  have hmantissa : mantissa? ('"' :: cs) = none := rfl
  have hnumber : number? ('"' :: cs) = none := by
    rw [number?, hmantissa]
    rfl
  have hmarks (f : Char × TokenType → Lexeme) (hf : ∀ x, (f x).length? = mark? x.1) :
      (marks.map f).findSome? (fun x => (x.length? ('"' :: cs)).map (x.type?, ·)) = none := by
    have hall : ∀ x ∈ marks, '"' ≠ x.1 := by decide
    rw [List.findSome?_eq_none_iff]
    intro y hy
    obtain ⟨x, hx, rfl⟩ := List.mem_map.mp hy
    simp [hf, mark?, hall x hx]
  have hident : ident? l ('"' :: cs) = none := by
    have hbegins : l.begins '"' = false := l.begins_of_mem_openers '"' (by decide)
    rw [ident?, hbegins]
    rfl
  have hblanks : blanks? ('"' :: cs) = none := rfl
  have hcomment : comment? ('"' :: cs) = none := rfl
  rw [scan, lexemes, List.findSome?_append, hmarks _ fun _ => rfl]
  simp only [List.findSome?_cons, List.findSome?_nil, hblanks, hcomment, hnumber, hident, string?]
  cases stringTail? cs <;> rfl

theorem findSome?_congr {α β : Type} {f g : α → Option β} {xs : List α}
    (h : ∀ x ∈ xs, f x = g x) : xs.findSome? f = xs.findSome? g := by
  induction xs with
  | nil => rfl
  | cons x xs ih =>
    rw [List.findSome?_cons, List.findSome?_cons, h x List.mem_cons_self,
      ih fun y hy => h y (List.mem_cons_of_mem _ hy)]

/-- What is in front of a text, if it is no blank and fits somewhere, is there also
with a blank behind the text; a comment only if it is a line break. -/
theorem scan_append {l : Letters} {c d : Char} {cs : List Char} {t : Option TokenType} {k : Nat}
    (hd : isSpace d = true) (hcomment : c = '#' → isLineEnd d = true) (hc : isSpace c = false)
    (h : scan l (c :: cs) = some (t, k)) (ds : List Char) :
    scan l (c :: cs ++ d :: ds) = some (t, k) := by
  by_cases hq : c = '"'
  · subst hq
    rw [scan_quote] at h
    obtain ⟨m, hm, he⟩ := Option.map_eq_some_iff.1 h
    rw [List.cons_append, scan_quote, stringTail?_append hm, Option.map_some, he]
  · rw [← h]
    apply findSome?_congr
    intro x hx
    suffices x.length? (c :: cs ++ d :: ds) = x.length? (c :: cs) by rw [this]
    simp only [lexemes, List.mem_append, List.mem_cons, List.not_mem_nil, or_false,
      List.mem_map] at hx
    rcases hx with (rfl | rfl | rfl | rfl | rfl) | ⟨⟨m, t⟩, hm, rfl⟩
    · simp [blanks?, span, hc]
    · by_cases hh : c = '#'
      · have hend : isLineEnd d = true := hcomment hh
        subst hh
        have hspan := span_append (p := fun c => !isLineEnd c) (d := d) (by simp [hend]) cs ds
        simp only [List.cons_append, comment?, hspan]
      · simp [comment?, hh]
    · exact number?_append hd (c :: cs) ds
    · simp [string?, hq]
    · exact ident?_append hd l (c :: cs) ds
    · exact mark?_append hd hm (c :: cs) ds

theorem cut_append {c d : Char} {cs text rest : List Char} {kind : Kind}
    (hd : isSpace d = true) (hcomment : c = '#' → isLineEnd d = true) (hc : isSpace c = false)
    (h : cut (c :: cs) = some (kind, text, rest)) (hkind : ∀ x, kind ≠ .stray x)
    (ds : List Char) :
    cut (c :: cs ++ d :: ds) = some (kind, text, rest ++ d :: ds) := by
  have hparts {k : Nat} {t : Option TokenType} (hscan : scan letters (c :: cs) = some (t, k)) :
      (c :: cs ++ d :: ds).take k = (c :: cs).take k ∧
        (c :: cs ++ d :: ds).drop k = (c :: cs).drop k ++ d :: ds :=
    ⟨List.take_append_of_le_length (scan_le hscan), List.drop_append_of_le_length (scan_le hscan)⟩
  simp only [cut] at h
  split at h
  · cases h
    exact absurd rfl (hkind c)
  · next k hscan =>
    cases h
    obtain ⟨htake, hdrop⟩ := hparts hscan
    have happend := scan_append hd hcomment hc hscan ds
    rw [List.cons_append] at happend htake hdrop ⊢
    simp only [cut, happend, htake, hdrop]
  · next t k hscan =>
    cases h
    obtain ⟨htake, hdrop⟩ := hparts hscan
    have happend := scan_append hd hcomment hc hscan ds
    rw [List.cons_append] at happend htake hdrop ⊢
    simp only [cut, happend, htake, hdrop]

theorem scan_blank (l : Letters) {c : Char} (hc : isSpace c = true) (cs : List Char) :
    scan l (c :: cs) = some (none, span isSpace cs + 1) := by
  simp [scan, lexemes, blanks?, span, hc, nonzero]

theorem cut_blank {c : Char} (hc : isSpace c = true) (cs : List Char) :
    cut (c :: cs) = some (.trivia, c :: cs.takeWhile isSpace, cs.dropWhile isSpace) := by
  simp only [cut, scan_blank letters hc, List.take_succ_cons, List.drop_succ_cons, take_span,
    drop_span]

/-- Neither a blank nor a comment. -/
def Slice.isSolid (x : Slice) : Bool := x.kind ≠ .trivia

/-- The slices of a text that make tokens or errors. -/
def solids (before cs : List Char) : List Slice := (slices before cs).filter Slice.isSolid

theorem solids_nil (before : List Char) : solids before [] = [] := by
  rw [solids, slices_nil]
  rfl

theorem tokensOf_solids (before cs : List Char) :
    tokensOf before cs = (solids before cs).filterMap Slice.token? := by
  rw [tokensOf, solids, List.filterMap_filter]
  congr 1
  funext x
  cases hx : x.kind <;> simp [Slice.isSolid, Slice.token?, hx]

theorem complaints_solids (before cs : List Char) :
    complaints before cs = (solids before cs).filterMap Slice.error? := by
  rw [complaints, solids, List.filterMap_filter]
  congr 1
  funext x
  cases hx : x.kind <;> simp [Slice.isSolid, Slice.error?, hx]

/-- A blank may be left to what is before the text. -/
theorem solids_blank {c : Char} (hc : isSpace c = true) (before cs : List Char) :
    solids before (c :: cs) = solids (before ++ [c]) cs := by
  have htrivia (before text : List Char) (xs : List Slice) :
      (⟨before, .trivia, text⟩ :: xs).filter Slice.isSolid = xs.filter Slice.isSolid := rfl
  rw [solids, slices_eq before (cut_blank hc cs), htrivia]
  cases cs with
  | nil => rfl
  | cons d ds =>
    by_cases hd : isSpace d = true
    · rw [solids, slices_eq _ (cut_blank hd ds), htrivia, List.takeWhile_cons_of_pos hd,
        List.dropWhile_cons_of_pos hd, List.append_assoc]
      rfl
    · rw [List.takeWhile_cons_of_neg hd, List.dropWhile_cons_of_neg hd]
      rfl

/-- Lexing a text with a line break behind it, and then some more. -/
theorem solids_append {d : Char} (hd : isLineEnd d = true) {before cs : List Char}
    (h : complaints before cs = []) (ds : List Char) :
    solids before (cs ++ d :: ds) = solids before cs ++ solids (before ++ cs ++ [d]) ds := by
  have hspace : isSpace d = true := by
    simp only [isLineEnd, Bool.or_eq_true, beq_iff_eq] at hd
    rcases hd with rfl | rfl <;> rfl
  induction hn : cs.length using Nat.strong_induction_on generalizing before cs with
  | _ n ih =>
    cases cs with
    | nil =>
      rw [List.nil_append, solids_blank hspace, solids_nil, List.append_nil]
      rfl
    | cons c cs =>
      by_cases hc : isSpace c = true
      · rw [complaints_solids, solids_blank hc, ← complaints_solids] at h
        rw [List.cons_append, solids_blank hc, solids_blank hc,
          ih cs.length (by simp [← hn]) h rfl]
        simp
      · have hc : isSpace c = false := by simpa using hc
        cases hcut : cut (c :: cs) with
        | none => exact absurd (cut_eq_none hcut) (List.cons_ne_nil c cs)
        | some p =>
          obtain ⟨kind, text, rest⟩ := p
          rw [complaints, slices_eq before hcut, List.filterMap_cons] at h
          have hkind : ∀ x, kind ≠ .stray x := by
            rintro x rfl
            cases h
          have hrest : complaints (before ++ text) rest = [] := by
            cases kind with
            | stray x => exact absurd rfl (hkind x)
            | token t => exact h
            | trivia => exact h
          have hshorter := cut_shorter hcut
          have htext : before ++ text ++ rest = before ++ (c :: cs) := by
            rw [List.append_assoc, (cut_spec hcut).1]
          have hjoined := cut_append hspace (fun _ => hd) hc hcut hkind ds
          rw [solids, slices_eq before hjoined, List.filter_cons]
          rw [solids, slices_eq before hcut, List.filter_cons]
          have hsolids := ih rest.length (by omega) hrest rfl
          rw [htext] at hsolids
          simp only [solids] at hsolids ⊢
          split
          · rw [hsolids, List.cons_append]
          · rw [hsolids]

/-- What is before a text says nothing about how it is cut. -/
theorem slices_move (pre before cs : List Char) :
    slices (pre ++ before) cs =
      (slices before cs).map fun x => { x with before := pre ++ x.before } := by
  fun_induction slices before cs with
  | case1 before cs h => rw [cut_eq_none h, slices_nil, List.map_nil]
  | case2 before cs kind text rest h ih =>
    rw [slices_eq _ h, List.map_cons, List.append_assoc, ih]

/-- A place so many lines further down. -/
structure Place.Lower (n : Nat) (p q : Place) : Prop where
  line : q.line = p.line + n
  column : q.column = p.column

theorem Place.Lower.advance {n : Nat} {p q : Place} (h : Lower n p q) (cs : List Char) :
    Lower n (p.advance cs) (q.advance cs) := by
  induction cs generalizing p q with
  | nil => exact h
  | cons c cs ih =>
    refine ih ?_
    unfold step
    split
    · exact ⟨by rw [h.line, Nat.add_right_comm], rfl⟩
    · exact ⟨h.line, by rw [h.column]⟩

theorem Place.behind_lower (pre cs : List Char) :
    Lower (1 + pre.count '\n') (behind cs) (behind (pre ++ '\n' :: cs)) := by
  have hstart : Lower (1 + pre.count '\n') (behind []) (behind (pre ++ ['\n'])) := by
    constructor
    · simp [behind]
      omega
    · simp [behind]
  have hlower := hstart.advance cs
  rwa [← behind_append, ← behind_append, List.nil_append, List.append_assoc] at hlower

/-- A token so many lines further down. -/
structure Lower (n : Nat) (t u : Token) : Prop where
  type : u.type = t.type
  text : u.text = t.text
  line : u.line = t.line + n
  column : u.column = t.column

/-- An error so many lines further down. -/
def lower (n : Nat) (e : SyntaxError) : SyntaxError := { e with line := e.line + n }

theorem tokensOf_lower (pre cs : List Char) : List.Forall₂ (Lower (1 + pre.count '\n'))
    (tokensOf [] cs) (tokensOf (pre ++ ['\n']) cs) := by
  have hmove := slices_move (pre ++ ['\n']) [] cs
  rw [List.append_nil] at hmove
  rw [tokensOf, tokensOf, hmove, List.filterMap_map]
  induction slices [] cs with
  | nil => exact .nil
  | cons x xs ih =>
    have hplace := Place.behind_lower pre x.before
    cases hx : x.kind with
    | token t =>
      simp only [List.filterMap_cons, Slice.token?, hx, Function.comp_apply]
      refine .cons ⟨rfl, rfl, ?_, ?_⟩ ih
      · simpa [Slice.place] using hplace.line
      · simpa [Slice.place] using hplace.column
    | trivia => simpa [List.filterMap_cons, Slice.token?, hx] using ih
    | stray c => simpa [List.filterMap_cons, Slice.token?, hx] using ih

theorem complaints_lower (pre cs : List Char) :
    complaints (pre ++ ['\n']) cs = (complaints [] cs).map (lower (1 + pre.count '\n')) := by
  have hmove := slices_move (pre ++ ['\n']) [] cs
  rw [List.append_nil] at hmove
  rw [complaints, complaints, hmove, List.filterMap_map, List.map_filterMap]
  congr 1
  funext x
  have hplace := Place.behind_lower pre x.before
  cases hx : x.kind with
  | stray c =>
    simp only [Function.comp_apply, Slice.error?, hx, Option.map_some, lower, SyntaxError.report,
      Slice.place, List.append_assoc, List.singleton_append, hplace.line, hplace.column]
  | token t => simp [Slice.error?, hx]
  | trivia => simp [Slice.error?, hx]

theorem stream_lower (pre cs : List Char) : List.Forall₂ (Lower (1 + pre.count '\n'))
    (stream [] cs) (stream (pre ++ ['\n']) cs) := by
  have hplace := Place.behind_lower pre cs
  refine List.rel_append (tokensOf_lower pre cs) (.cons ⟨rfl, rfl, ?_, ?_⟩ .nil)
  · simpa [endToken, Token.atEnd] using hplace.line
  · simpa [endToken, Token.atEnd] using hplace.column

/-- The tokens of two texts with a line break between them. -/
theorem stream_join {cs : List Char} (h : complaints [] cs = []) (ds : List Char) :
    stream [] (cs ++ '\n' :: ds) = tokensOf [] cs ++ stream (cs ++ ['\n']) ds := by
  rw [stream, tokensOf_solids, solids_append rfl h, List.filterMap_append, ← tokensOf_solids,
    ← tokensOf_solids, stream]
  simp

/-- And the errors. -/
theorem complaints_join {cs : List Char} (h : complaints [] cs = []) (ds : List Char) :
    complaints [] (cs ++ '\n' :: ds) = (complaints [] ds).map (lower (1 + cs.count '\n')) := by
  rw [complaints_solids, solids_append rfl h, List.filterMap_append, ← complaints_solids,
    ← complaints_solids, h, ← complaints_lower]
  rfl

end Descent.Calc
