import Descent.Text

/-! Line breaks are written one by one. Going over a text three times comes to the
same as writing each of its characters on its own: a pass finds nothing to write in
what an earlier one wrote. So what comes out has no line break left and is not
written again, and a text may be cut before it is written, also within a pair. -/

namespace Descent.Text

/-- How a single character is written on one line. -/
def onOneLine (c : Char) : List Char :=
  if c = '\n' then ['\\', 'n'] else if c = '\r' then ['\\', 'r'] else [c]

theorem onOneLine_of_ne {c : Char} (hn : c ≠ '\n') (hr : c ≠ '\r') : onOneLine c = [c] := by
  rw [onOneLine, if_neg hn, if_neg hr]

theorem not_mem_onOneLine (c : Char) : '\n' ∉ onOneLine c ∧ '\r' ∉ onOneLine c := by
  unfold onOneLine
  split
  · decide
  · next hn =>
    split
    · decide
    · next hr => simp [Ne.symm hn, Ne.symm hr]

theorem replaceChar_replaceChar (cs : List Char) :
    replaceChar '\r' ['\\', 'r'] (replaceChar '\n' ['\\', 'n'] cs) = cs.flatMap onOneLine := by
  unfold replaceChar
  rw [List.flatMap_assoc]
  congr 1
  funext c
  by_cases hn : c = '\n'
  · subst hn
    rfl
  · by_cases hr : c = '\r'
    · subst hr
      rfl
    · simp [hn, hr, onOneLine]

/-- A pair that was written already is left alone, and comes out as its two
characters would. -/
theorem escapePairs_flatMap (cs : List Char) :
    (escapePairs cs).flatMap onOneLine = cs.flatMap onOneLine := by
  fun_induction escapePairs cs with
  | case1 cs ih =>
    simp only [List.flatMap_cons, ih]
    rfl
  | case2 c cs _ ih => rw [List.flatMap_cons, List.flatMap_cons, ih]
  | case3 => rfl

theorem flatMap_of_no_break {cs : List Char} (h : hasLineBreak cs = false) :
    cs.flatMap onOneLine = cs := by
  induction cs with
  | nil => rfl
  | cons c cs ih =>
    simp only [hasLineBreak, List.any_cons, Bool.or_eq_false_iff, beq_eq_false_iff_ne] at h
    obtain ⟨⟨hn, hr⟩, hcs⟩ := h
    rw [List.flatMap_cons, onOneLine_of_ne hn hr, ih hcs]
    rfl

theorem escapeChars_eq (cs : List Char) : escapeChars cs = cs.flatMap onOneLine := by
  unfold escapeChars
  split
  · rw [replaceChar_replaceChar, escapePairs_flatMap]
  · next h => rw [flatMap_of_no_break (by simpa using h)]

theorem escape_eq (text : String) :
    escape text = String.ofList (text.toList.flatMap onOneLine) := by
  rw [escape, escapeChars_eq]

/-- Neither line break is left in a text that was written on one line. -/
theorem escape_on_one_line (text : String) :
    '\n' ∉ (escape text).toList ∧ '\r' ∉ (escape text).toList := by
  rw [escape_eq, String.toList_ofList]
  constructor <;> intro h <;> obtain ⟨c, -, hc⟩ := List.mem_flatMap.mp h
  · exact (not_mem_onOneLine c).1 hc
  · exact (not_mem_onOneLine c).2 hc

theorem escape_append (a b : String) : escape (a ++ b) = escape a ++ escape b := by
  rw [escape_eq, escape_eq, escape_eq, String.toList_append, List.flatMap_append,
    String.ofList_append]

theorem hasLineBreak_eq_false {cs : List Char} (hn : '\n' ∉ cs) (hr : '\r' ∉ cs) :
    hasLineBreak cs = false := by
  rw [hasLineBreak, List.any_eq_false]
  intro c hc
  have hcn : c ≠ '\n' := fun e => hn (e ▸ hc)
  have hcr : c ≠ '\r' := fun e => hr (e ▸ hc)
  simp [hcn, hcr]

theorem escape_of_no_break {text : String} (h : hasLineBreak text.toList = false) :
    escape text = text := by
  rw [escape_eq, flatMap_of_no_break h, String.ofList_toList]

theorem escape_escape (text : String) : escape (escape text) = escape text := by
  obtain ⟨hn, hr⟩ := escape_on_one_line text
  exact escape_of_no_break (hasLineBreak_eq_false hn hr)

/-- Going over a text three times comes to writing its characters one after the other. So
no line break is left, what was written is not written again, and a text may be written in
parts, wherever it is cut. -/
theorem escape_one_pass (a b : String) :
    escape a = String.ofList (a.toList.flatMap onOneLine) ∧
      '\n' ∉ (escape a).toList ∧ '\r' ∉ (escape a).toList ∧
      escape (escape a) = escape a ∧ escape (a ++ b) = escape a ++ escape b := by
  obtain ⟨hn, hr⟩ := escape_on_one_line a
  exact ⟨escape_eq a, hn, hr, escape_escape a, escape_append a b⟩

example : escape "\r\r\n\n" = "\\r\\r\\n\\n" ∧
    escape "a\r" ++ escape "\nb" = "a\\r\\nb" := by decide

end Descent.Text
