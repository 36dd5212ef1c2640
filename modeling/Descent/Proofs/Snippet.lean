import Descent.Diagnostic
import Mathlib.Data.List.Basic

/-! The snippet of a diagnostic, and the two ways to write it. A snippet ends with the
line that the error is on and a caret line under it, and no caret line has a newline in
it. So taking the last line off a snippet and writing it again loses nothing, and the
coloured spans of a diagnostic spell what is written in one go. -/

namespace Descent.Diagnostic

/-- The column that a snippet gives to line numbers. -/
def numberWidth (e : SyntaxError) : Nat := (toString e.line).length

/-- The rows above the line of an error: the line before, if there is one. -/
def above (source : String) (e : SyntaxError) : String :=
  match e.line with
  | n + 2 => row (numberWidth e) (toString (n + 1)) ((Text.lines source).getD n "")
  | _ => ""

theorem snippet?_eq {source line : String} {e : SyntaxError} {n : Nat} (hn : e.line = n + 1)
    (hline : (Text.lines source)[n]? = some line) :
    snippet? source e = some (above source e ++ row (numberWidth e) (toString e.line) line ++
      row (numberWidth e) "" (pointer line e.column)) := by
  cases n with
  | zero => simp [snippet?, above, numberWidth, hn, hline]
  | succ n => simp [snippet?, above, numberWidth, hn, hline]

example : snippet? "a = 1\r\n\tb" ⟨none, 2, 1⟩ = some "1 | a = 1\n2 | \tb\n  | \t^\n" := by decide

theorem snippet?_eq_none_iff {source : String} {e : SyntaxError} {n : Nat} (hn : e.line = n + 1) :
    snippet? source e = none ↔ (Text.lines source)[n]? = none := by
  cases hline : (Text.lines source)[n]? with
  | none => simp [snippet?, hn, hline]
  | some line => simp [snippet?_eq hn hline]

theorem exists_of_snippet? {source text : String} {e : SyntaxError}
    (h : snippet? source e = some text) :
    ∃ n line, e.line = n + 1 ∧ (Text.lines source)[n]? = some line := by
  cases hn : e.line with
  | zero => simp [snippet?, hn] at h
  | succ n =>
    cases hline : (Text.lines source)[n]? with
    | none => simp [(snippet?_eq_none_iff hn).mpr hline] at h
    | some line => exact ⟨n, line, rfl, hline⟩

/-- What stands under a character, in front of a caret. -/
def blank (c : Char) : Char := if c = '\t' then '\t' else ' '

/-- Blanks as wide as the first characters of a line, with tabs where it has them. -/
def padding (cs : List Char) (column : Nat) : List Char :=
  (cs.take column).map blank ++ List.replicate (column - cs.length) ' '

theorem pointer_eq (line : String) (column : Nat) :
    pointer line column = String.ofList (padding line.toList column) ++ "^" := by
  have hchars : pointerChars line.toList column = padding line.toList column ++ ['^'] := rfl
  rw [pointer, hchars, String.ofList_append]

theorem length_padding (cs : List Char) (column : Nat) : (padding cs column).length = column := by
  rw [padding, List.length_append, List.length_map, List.length_take, List.length_replicate]
  omega

/-- The padding has a tab where the line has one, and a blank everywhere else. -/
theorem getElem?_padding {cs : List Char} {column i : Nat} (hi : i < column) :
    (padding cs column)[i]? = some (if cs[i]? = some '\t' then '\t' else ' ') := by
  have hlength : ((cs.take column).map blank).length = min column cs.length := by
    rw [List.length_map, List.length_take]
  rw [padding]
  by_cases hcs : i < cs.length
  · rw [List.getElem?_append_left (by omega), List.getElem?_map, List.getElem?_take_of_lt hi,
      List.getElem?_eq_getElem hcs]
    simp [blank]
  · rw [List.getElem?_append_right (by omega), hlength, List.getElem?_replicate,
      if_pos (by omega), List.getElem?_eq_none (Nat.le_of_not_lt hcs)]
    simp

theorem mem_padding {cs : List Char} {column : Nat} {c : Char} (h : c ∈ padding cs column) :
    c = '\t' ∨ c = ' ' := by
  obtain ⟨i, hi⟩ := List.mem_iff_getElem?.mp h
  have hlt : i < column := length_padding cs column ▸ (List.getElem?_eq_some_iff.mp hi).1
  rw [getElem?_padding hlt, Option.some.injEq] at hi
  rw [← hi]
  split
  · exact Or.inl rfl
  · exact Or.inr rfl

section Spans

variable {body caret : List Char}

theorem trimNewlines_concat (hcaret : '\n' ∉ caret) (hne : caret ≠ []) :
    trimNewlines (body ++ '\n' :: caret ++ ['\n']) = body ++ '\n' :: caret := by
  obtain ⟨cs, c, rfl⟩ := (List.eq_nil_or_concat' caret).resolve_left hne
  have hc : c ≠ '\n' := fun e => hcaret (by simp [e])
  simp [trimNewlines, hc]

theorem splitLastLine_append (hcaret : '\n' ∉ caret) :
    splitLastLine (body ++ '\n' :: caret) = (body, caret) := by
  have hreverse : (body ++ '\n' :: caret).reverse = caret.reverse ++ '\n' :: body.reverse := by
    simp
  have hall : ∀ c ∈ caret.reverse, (c != '\n') = true := by
    intro c hc
    have hne : c ≠ '\n' := fun e => hcaret (e ▸ List.mem_reverse.mp hc)
    simpa using hne
  rw [splitLastLine, hreverse, List.dropWhile_append_of_pos hall,
    List.takeWhile_append_of_pos hall]
  simp

/-- The last line of a snippet is taken off and written again. -/
theorem snippetSpans_spell (hbody : body ≠ []) (hcaret : '\n' ∉ caret) (hne : caret ≠ []) :
    String.join ((snippetSpans (String.ofList (body ++ '\n' :: caret ++ ['\n']))).map (·.2)) =
      String.ofList (body ++ '\n' :: caret ++ ['\n']) := by
  have hspans : snippetSpans (String.ofList (body ++ '\n' :: caret ++ ['\n'])) =
      [(.plain, String.ofList body ++ "\n"), (.red, String.ofList caret ++ "\n")] := by
    simp only [snippetSpans, String.toList_ofList, trimNewlines_concat hcaret hne,
      splitLastLine_append hcaret, List.isEmpty_iff, hbody, ↓reduceIte, List.singleton_append]
  rw [hspans, String.ext_iff]
  simp

end Spans

/-- A row without the newline at its end. -/
def rowChars (width : Nat) (number text : String) : List Char :=
  (Text.padLeft width number).toList ++ [' ', '|', ' '] ++ text.toList

theorem row_eq (width : Nat) (number text : String) :
    row width number text = String.ofList (rowChars width number text ++ ['\n']) := by
  rw [String.ext_iff]
  simp [row, rowChars]

theorem rowChars_ne_nil (width : Nat) (number text : String) : rowChars width number text ≠ [] := by
  simp [rowChars]

theorem caret_on_one_line (width : Nat) (line : String) (column : Nat) :
    '\n' ∉ rowChars width "" (pointer line column) := by
  have hpadding : '\n' ∉ padding line.toList column := fun h => by
    rcases mem_padding h with h | h <;> cases h
  simp [rowChars, pointer_eq, Text.padLeft, hpadding]

/-- The spans of a snippet spell it. -/
theorem snippetSpans_snippet? {source text : String} {e : SyntaxError}
    (h : snippet? source e = some text) :
    String.join ((snippetSpans text).map (·.2)) = text := by
  obtain ⟨n, line, hn, hline⟩ := exists_of_snippet? h
  rw [snippet?_eq hn hline, Option.some.injEq] at h
  have hshape : text = String.ofList
      (((above source e).toList ++ rowChars (numberWidth e) (toString e.line) line) ++
        '\n' :: rowChars (numberWidth e) "" (pointer line e.column) ++ ['\n']) := by
    rw [← h, row_eq, row_eq, String.ext_iff]
    simp
  rw [hshape]
  refine snippetSpans_spell ?_ (caret_on_one_line _ _ _) (rowChars_ne_nil _ _ _)
  exact fun hnil => rowChars_ne_nil _ _ _ (List.append_eq_nil_iff.mp hnil).2

/-- What is written in spans is what is written in one go, for every diagnostic: also
where lines are empty, where there is no such line, and where the caret stands behind
the end of its line. -/
theorem printed_eq_render (d : Diagnostic) : d.printed = d.render := by
  rw [printed, render, spans, List.map_append, String.join_append]
  congr 1
  · rw [String.ext_iff]
    simp [String.join_cons, toString]
  · cases hsnippet : snippet? d.source d.error with
    | none => rfl
    | some text => exact snippetSpans_snippet? hsnippet

end Descent.Diagnostic
