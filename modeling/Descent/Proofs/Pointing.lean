import Descent.Proofs.Layout
import Descent.Proofs.Snippet
import Mathlib.Data.List.Nodup
import Mathlib.Data.String.Basic

/-! Diagnostics point at what is wrong. The lexer counts newlines, and columns from the
last of them; the lines of a text leave out the newlines, and the carriage returns in
front of them. The two agree on every character that is no line end itself, and no
token and no character that fits nowhere begins with one. At the end of the text they
agree too, if it has a last line without a newline; otherwise there is no line to show. -/

namespace Descent

namespace Text

/-- The newlines of a text end as many lines, and what is behind the last of them
belongs to the next one. -/
theorem linesFrom_append (before rest : List Char) :
    ∃ ls, ls.length = before.count '\n' ∧ linesFrom [] (before ++ rest) =
      ls ++ linesFrom (before.rtakeWhile (· ≠ '\n')).reverse rest := by
  -- from the end, as the place of the lexer is given by what it has read last
  induction before using List.reverseRecOn generalizing rest with
  | nil => exact ⟨[], rfl, rfl⟩
  | append_singleton before c ih =>
    obtain ⟨ls, hlength, hlines⟩ := ih (c :: rest)
    rw [List.append_assoc, List.singleton_append, hlines, List.count_append, ← hlength]
    by_cases hc : c = '\n'
    · subst hc
      refine ⟨ls ++ [dropReturn (before.rtakeWhile (· ≠ '\n'))], by simp, ?_⟩
      simp [linesFrom]
    · refine ⟨ls, by simp [hc], ?_⟩
      rw [linesFrom, if_neg hc, List.rtakeWhile_concat_pos _ _ _ (by simpa using hc),
        List.reverse_append]
      rfl

/-- A carriage return at the end goes, and nothing else. -/
theorem getElem?_dropReturn {c : Char} (hc : c ≠ '\r') (xs ys : List Char) :
    (dropReturn (xs ++ c :: ys))[xs.length]? = some c := by
  unfold dropReturn
  split
  · next hlast =>
    have hys : ys ≠ [] := by
      rintro rfl
      rw [List.getLast?_append, List.getLast?_singleton] at hlast
      exact hc (Option.some.inj hlast)
    rw [List.dropLast_append_cons, List.dropLast_cons_of_ne_nil hys,
      List.getElem?_append_right (Nat.le_refl _), Nat.sub_self]
    rfl
  · rw [List.getElem?_append_right (Nat.le_refl _), Nat.sub_self]
    rfl

/-- A line keeps its characters where they were read. -/
theorem linesFrom_head {c : Char} (hc : c ≠ '\r') (xs zs rest : List Char) :
    ∃ l ls, linesFrom (xs ++ c :: zs).reverse rest = l :: ls ∧ l[xs.length]? = some c := by
  -- `zs` is what was read of the line behind the character
  induction rest generalizing zs with
  | nil =>
    refine ⟨xs ++ c :: zs, [], by simp [linesFrom], ?_⟩
    rw [List.getElem?_append_right (Nat.le_refl _), Nat.sub_self]
    rfl
  | cons d rest ih =>
    rw [linesFrom]
    split
    · rw [List.reverse_reverse]
      exact ⟨_, _, rfl, getElem?_dropReturn hc xs zs⟩
    · have hnext : d :: (xs ++ c :: zs).reverse = (xs ++ c :: (zs ++ [d])).reverse := by simp
      rw [hnext]
      exact ih (zs ++ [d])

/-- A character stands in the line and the column that are counted before it. -/
theorem line_at (before after : List Char) {c : Char} (hn : c ≠ '\n') (hr : c ≠ '\r') :
    ∃ l, (linesFrom [] (before ++ c :: after))[before.count '\n']? = some l ∧
      l[(before.rtakeWhile (· ≠ '\n')).length]? = some c := by
  obtain ⟨ls, hlength, hlines⟩ := linesFrom_append before (c :: after)
  have hread : c :: (before.rtakeWhile (· ≠ '\n')).reverse =
      (before.rtakeWhile (· ≠ '\n') ++ [c]).reverse := by simp
  rw [linesFrom, if_neg hn, hread] at hlines
  obtain ⟨l, more, hhead, hcolumn⟩ := linesFrom_head hr (before.rtakeWhile (· ≠ '\n')) [] after
  refine ⟨l, ?_, hcolumn⟩
  rw [hlines, hhead, List.getElem?_append_right (Nat.le_of_eq hlength), hlength, Nat.sub_self]
  rfl

/-- Something is behind the last newline. -/
theorem open_iff (text : String) : text.toList.rtakeWhile (· ≠ '\n') ≠ [] ↔
    text ≠ "" ∧ text.toList.getLast? ≠ some '\n' := by
  simp only [ne_eq, List.rtakeWhile_eq_nil_iff, ← String.toList_eq_nil_iff]
  cases text.toList using List.reverseRecOn with
  | nil => simp
  | append_singleton cs c => simp

/-- What is behind the last newline is the last line, -/
theorem lines_of_open {text : String} (h : text.toList.rtakeWhile (· ≠ '\n') ≠ []) :
    ∃ ls, ls.length = text.toList.count '\n' ∧
      lines text = ls ++ [String.ofList (text.toList.rtakeWhile (· ≠ '\n'))] := by
  obtain ⟨ls, hlength, hlines⟩ := linesFrom_append text.toList []
  rw [List.append_nil, linesFrom, List.reverse_reverse] at hlines
  refine ⟨ls.map String.ofList, by rw [List.length_map, hlength], ?_⟩
  rw [lines, hlines, if_neg (by simpa using h), List.map_append, List.map_singleton]

/-- and where nothing is, there are as many lines as newlines. -/
theorem lines_of_closed {text : String} (h : text.toList.rtakeWhile (· ≠ '\n') = []) :
    (lines text).length = text.toList.count '\n' := by
  obtain ⟨ls, hlength, hlines⟩ := linesFrom_append text.toList []
  rw [List.append_nil, h, List.reverse_nil] at hlines
  rw [lines, hlines, List.length_map, ← hlength]
  simp [linesFrom]

end Text

namespace Diagnostic

/-- The snippet of an error shows this line, below the line before it if there is one,
and under it a caret. In front of the caret are as many characters as the column says,
tabs where the line has tabs and blanks elsewhere. -/
def Shows (source : String) (e : SyntaxError) (line : String) : Prop :=
  ∃ (context : String) (pad : List Char),
    snippet? source e = some (context ++ row (numberWidth e) (toString e.line) line ++
      row (numberWidth e) "" (String.ofList pad ++ "^")) ∧
    pad.length = e.column ∧
    (∀ i < e.column, pad[i]? = some (if line.toList[i]? = some '\t' then '\t' else ' ')) ∧
    (e.line = 1 → context = "") ∧
    ∀ n, e.line = n + 2 → ∃ previous, (Text.lines source)[n]? = some previous ∧
      context = row (numberWidth e) (toString (n + 1)) previous

/-- An error points at a byte offset of a source. Before the end, the source has the
line, the character at the offset has the column in it, and the snippet shows it. At
the end there is a snippet exactly if the source has a last line without a newline, and
the caret is right behind that line. -/
structure PointsAt (source : String) (e : SyntaxError) (offset : Nat) : Prop where
  within : offset ≤ source.utf8ByteSize
  inside : offset < source.utf8ByteSize →
    ∃ c n line, String.Pos.Raw.get? source ⟨offset⟩ = some c ∧ e.line = n + 1 ∧
      (Text.lines source)[n]? = some line ∧ line.toList[e.column]? = some c ∧
      Shows source e line
  atEnd : offset = source.utf8ByteSize →
    ((snippet? source e).isSome = true ↔
      source ≠ "" ∧ source.toList.getLast? ≠ some '\n') ∧
    ((snippet? source e).isSome = true →
      ∃ line, (Text.lines source).length = e.line ∧ (Text.lines source).getLast? = some line ∧
        e.column = line.length ∧ Shows source e line)

variable {source line : String} {e : SyntaxError} {n : Nat}

theorem shows_of_line (hn : e.line = n + 1) (hline : (Text.lines source)[n]? = some line) :
    Shows source e line := by
  refine ⟨above source e, padding line.toList e.column, ?_, length_padding _ _,
    fun i hi => getElem?_padding hi, fun hone => ?_, fun m hm => ?_⟩
  · rw [snippet?_eq hn hline, pointer_eq]
  · rw [above, hone]
  · have hlt : n < (Text.lines source).length := (List.getElem?_eq_some_iff.mp hline).1
    have hm' : m < (Text.lines source).length := by omega
    refine ⟨(Text.lines source).get ⟨m, hm'⟩, List.getElem?_eq_getElem hm', ?_⟩
    simp [above, hm, List.getD_eq_getElem?_getD, List.getElem?_eq_getElem hm']

open Calc

theorem offset_lt_size {before after : List Char} {c : Char}
    (hsource : source.toList = before ++ c :: after) :
    (Place.behind before).offset < source.utf8ByteSize := by
  have hoffset : (Place.behind before).offset = String.utf8Len before :=
    String.utf8ByteSize_ofList before
  have hpos := c.utf8Size_pos
  rw [hoffset, ← String.utf8Len_toList, hsource, String.utf8Len_append, String.utf8Len_cons]
  omega

theorem pointsAt_char {before after : List Char} {c : Char}
    (hsource : source.toList = before ++ c :: after) (hn : c ≠ '\n') (hr : c ≠ '\r')
    (he : e.position = (Place.behind before).position) :
    PointsAt source e (Place.behind before).offset := by
  have hofList : source = String.ofList (before ++ c :: after) := by
    rw [← hsource, String.ofList_toList]
  have hlt := offset_lt_size hsource
  obtain ⟨hline, hcolumn⟩ := Prod.mk.inj he
  obtain ⟨line, hget, hchar⟩ := Text.line_at before after hn hr
  have hlines : (Text.lines source)[before.count '\n']? = some (String.ofList line) := by
    rw [Text.lines, List.getElem?_map, hsource, hget]
    rfl
  have hnumber : e.line = before.count '\n' + 1 := hline.trans (Nat.add_comm _ _)
  refine ⟨Nat.le_of_lt hlt, fun _ => ?_, fun hend => absurd hend (Nat.ne_of_lt hlt)⟩
  refine ⟨c, _, _, ?_, hnumber, hlines, ?_, shows_of_line hnumber hlines⟩
  · rw [hofList, Place.behind, String.utf8ByteSize_ofList, String.get?_of_valid]
    rfl
  · rw [String.toList_ofList, hcolumn]
    exact hchar

theorem pointsAt_end (he : e.position = (Place.behind source.toList).position) :
    PointsAt source e source.utf8ByteSize := by
  obtain ⟨hline, hcolumn⟩ := Prod.mk.inj he
  have hnumber : e.line = source.toList.count '\n' + 1 := hline.trans (Nat.add_comm _ _)
  refine ⟨Nat.le_refl _, fun hlt => absurd hlt (Nat.lt_irrefl _), fun _ => ?_⟩
  rw [← Text.open_iff]
  by_cases hopen : source.toList.rtakeWhile (· ≠ '\n') = []
  · have hnone : snippet? source e = none := by
      rw [snippet?_eq_none_iff hnumber, ← Text.lines_of_closed hopen]
      exact List.getElem?_eq_none (Nat.le_refl _)
    rw [hnone]
    exact ⟨iff_of_false Bool.false_ne_true (not_not_intro hopen),
      fun h => absurd h Bool.false_ne_true⟩
  · obtain ⟨ls, hlength, hlines⟩ := Text.lines_of_open hopen
    have hget : (Text.lines source)[source.toList.count '\n']? =
        some (String.ofList (source.toList.rtakeWhile (· ≠ '\n'))) := by
      rw [hlines, ← hlength, List.getElem?_concat_length]
    have hsome : (snippet? source e).isSome = true := by
      rw [snippet?_eq hnumber hget]
      rfl
    refine ⟨iff_of_true hsome hopen, fun _ => ⟨_, ?_, ?_, ?_, shows_of_line hnumber hget⟩⟩
    · rw [hlines, List.length_append, hlength, hnumber]
      rfl
    · rw [hlines, List.getLast?_concat]
    · rw [hcolumn, String.length_ofList]
      rfl

end Diagnostic

namespace Calc

open Diagnostic

/-- A slice that makes a token or an error begins with a character of the text that is
no blank. -/
theorem slice_first {source : String} {x : Slice} (hx : x ∈ slices [] source.toList)
    (hkind : x.kind ≠ .trivia) :
    ∃ c after, source.toList = x.before ++ c :: after ∧ isSpace c = false := by
  obtain ⟨ps, qs, hs⟩ := List.append_of_mem hx
  obtain ⟨hbefore, hcut⟩ := slices_split hs
  obtain ⟨c, cs, htext⟩ := List.exists_cons_of_ne_nil (cut_spec hcut).2
  refine ⟨c, cs ++ qs.flatMap Slice.text, ?_, ?_⟩
  · have hall := slices_text [] source.toList
    rw [hs, List.flatMap_append, List.flatMap_cons, htext] at hall
    rw [hbefore, List.nil_append, ← hall]
    rfl
  · by_contra hc
    rw [Bool.not_eq_false] at hc
    rw [htext, List.cons_append, cut_blank hc, Option.some.injEq, Prod.mk.injEq] at hcut
    exact hkind hcut.1.symm

/-- An error in the place of such a slice points at its first character. -/
theorem pointsAt_slice {source : String} {x : Slice} (hx : x ∈ slices [] source.toList)
    (hkind : x.kind ≠ .trivia) {e : SyntaxError} (he : e.position = x.place.position) :
    x.place.offset < source.utf8ByteSize ∧ PointsAt source e x.place.offset := by
  obtain ⟨c, after, hsource, hspace⟩ := slice_first hx hkind
  have hn : c ≠ '\n' := by
    rintro rfl
    cases hspace
  have hr : c ≠ '\r' := by
    rintro rfl
    cases hspace
  exact ⟨offset_lt_size hsource, pointsAt_char hsource hn hr he⟩

/-- What the lexer reports points at a character that fits nowhere. -/
theorem pointsAt_complaint {source : String} {e : SyntaxError}
    (he : e ∈ complaints [] source.toList) :
    ∃ x ∈ slices [] source.toList, x.error? = some e ∧
      x.place.offset < source.utf8ByteSize ∧ PointsAt source e x.place.offset := by
  obtain ⟨x, hx, herror⟩ := List.mem_filterMap.mp he
  have hkind : x.kind ≠ .trivia := fun h => by
    rw [Slice.error?, h] at herror
    cases herror
  exact ⟨x, hx, herror, pointsAt_slice hx hkind (Slice.error?_position herror)⟩

/-- An error in the place of a token points at its first character, or at the end. -/
theorem pointsAt_token {source : String} {t : Token} (ht : t ∈ stream [] source.toList)
    {e : SyntaxError} (he : e.position = t.position) : PointsAt source e t.start := by
  rcases List.mem_append.mp ht with ht | ht
  · obtain ⟨x, hx, htoken⟩ := List.mem_filterMap.mp ht
    have hkind : x.kind ≠ .trivia := fun h => by
      rw [Slice.token?, h] at htoken
      cases htoken
    obtain ⟨-, hline, hcolumn, hstart, -⟩ := Slice.token?_eq_some htoken
    have hposition : e.position = x.place.position := by
      rw [he, Token.position, hline, hcolumn]
      rfl
    rw [hstart]
    exact (pointsAt_slice hx hkind hposition).2
  · rw [List.mem_singleton, List.nil_append] at ht
    subst ht
    have hstart : (endToken source.toList).start = source.utf8ByteSize := by
      show (String.ofList source.toList).utf8ByteSize = source.utf8ByteSize
      rw [String.ofList_toList]
    rw [hstart]
    exact pointsAt_end he

/-- No two tokens of a text stand in the same place. -/
theorem tokensIn_position_inj {source : String} {t u : Token} (ht : t ∈ tokensIn source)
    (hu : u ∈ tokensIn source) (h : u.position = t.position) : u = t := by
  have horder := (Buffer.fill_inOrder (Lexer.ofString source never)).tokens
  have hnodup : ((tokensIn source).map Token.position).Nodup := by
    rw [List.Nodup, List.pairwise_map]
    exact horder.imp Earlier.ne
  exact List.inj_on_of_nodup_map hnodup hu ht h

/-- Diagnostics point at what is wrong, whatever the text, the settings and the cache.
Every error of the lexer, in a parse or in lexing alone, is that of a character that
fits nowhere, and points at it; every error of the parser stands in the place of just
one token, and points at its first character, or at the end of the text for the token
that ends it. -/
theorem errors_point (settings : Settings) (source : String) (cache : SharedCache) :
    (∀ out, (parse settings source cache).1 = .ok out →
      (∀ e ∈ out.lexerErrors, ∃ x ∈ slices [] source.toList, x.error? = some e ∧
        x.place.offset < source.utf8ByteSize ∧ PointsAt source e x.place.offset) ∧
      ∀ e ∈ out.parserErrors, ∃ t ∈ tokensIn source,
        (∀ u ∈ tokensIn source, u.position = e.position ↔ u = t) ∧
        PointsAt source e t.start) ∧
    ∀ out, (tokenize settings source cache).1 = .ok out →
      ∀ e ∈ out.lexerErrors, ∃ x ∈ slices [] source.toList, x.error? = some e ∧
        x.place.offset < source.utf8ByteSize ∧ PointsAt source e x.place.offset := by
  constructor
  · intro out hout
    obtain ⟨c, r, tree, s, -, hs, hfinish⟩ := parse_ok hout
    obtain ⟨-, hlexer, hparser⟩ := finish_ok hfinish
    refine ⟨fun e he => pointsAt_complaint (parseRule_complains hs (hlexer ▸ he)),
      fun e he => ?_⟩
    obtain ⟨t, ht, hposition⟩ := parseRule_reports hs (hparser ▸ he)
    obtain ⟨u, hu, i, rfl⟩ := Buffer.mem_numbered ht
    rw [← Buffer.ofString_tokens] at ht
    refine ⟨_, ht, fun v hv => ⟨fun h => ?_, fun h => by rw [h, hposition]⟩,
      pointsAt_token hu hposition.symm⟩
    exact tokensIn_position_inj ht hv (h.trans hposition.symm)
  · intro out hout e he
    cases cache with
    | unavailable => cases hout
    | available c =>
      rw [tokenize_tokens, Except.ok.injEq] at hout
      rw [← hout] at he
      exact pointsAt_complaint he

/-- On a second line that begins with a tab, behind a carriage return, a character fits
nowhere and a parenthesis closes nothing; both are pointed at. -/
theorem errors_point_tab : ∃ out, (parse {} "a =\r\n\t@)" .fresh).1 = .ok out ∧
    out.lexerErrors.map SyntaxError.position = [(2, 1)] ∧
    out.parserErrors.map SyntaxError.position = [(2, 2)] ∧
    (∀ e ∈ out.lexerErrors, ∃ x ∈ slices [] "a =\r\n\t@)".toList, x.error? = some e ∧
      PointsAt "a =\r\n\t@)" e x.place.offset) ∧
    ∀ e ∈ out.parserErrors, ∃ t ∈ tokensIn "a =\r\n\t@)", t.position = e.position ∧
      PointsAt "a =\r\n\t@)" e t.start := by
  have hpositions : ((parse {} "a =\r\n\t@)" .fresh).1.map fun out =>
      (out.lexerErrors.map SyntaxError.position,
        out.parserErrors.map SyntaxError.position)).toOption = some ([(2, 1)], [(2, 2)]) := by
    decide +kernel
  cases hparse : (parse {} "a =\r\n\t@)" .fresh).1 with
  | error f =>
    rw [hparse] at hpositions
    cases hpositions
  | ok out =>
    rw [hparse] at hpositions
    obtain ⟨hlexer, hparser⟩ := Prod.mk.inj (Option.some.inj hpositions)
    obtain ⟨hstray, htoken⟩ := (errors_point {} "a =\r\n\t@)" .fresh).1 out hparse
    refine ⟨out, rfl, hlexer, hparser, fun e he => ?_, fun e he => ?_⟩
    · obtain ⟨x, hx, herror, -, hpoints⟩ := hstray e he
      exact ⟨x, hx, herror, hpoints⟩
    · obtain ⟨t, ht, hplace, hpoints⟩ := htoken e he
      exact ⟨t, ht, (hplace t ht).mpr rfl, hpoints⟩

end Calc

end Descent
