import Descent.Proofs.Layout
import Descent.Proofs.Munch

/-! Tokens that are printed and lexed again. What the lexer cuts out of a text is the
longest beginning that is a lexeme, so it is a lexeme wherever it stands alone. Behind
it a space ends it just as well as what came behind it in the text, and the lexer
steps over the space. So the texts of the tokens, printed with spaces between them,
are lexed to the same tokens. -/

namespace Descent.Calc

open Computability

/-- A text that makes a token, all of it. -/
def Makes (t : TokenType) (text : List Char) : Prop :=
  scan letters text = some (some t, text.length)

/-- What is in front of a text is in front also where the text ends behind it. -/
theorem scan_take {l : Letters} {cs : List Char} {t : Option TokenType} {k : Nat}
    (h : scan l cs = some (t, k)) : scan l (cs.take k) = some (t, k) := by
  obtain ⟨x, hx, ht, hk, htake, hlongest⟩ := scan_longest h
  refine scan_eq_some_iff.mpr ⟨x, hx, ht, ?_, ?_, ?_⟩
  · rw [List.length_take_of_le hk]
  · rwa [List.take_take, Nat.min_self]
  · intro y hy w hw hbegins
    exact hlongest y hy w hw (hbegins.trans (List.take_prefix k cs))

theorem cut_makes {cs text rest : List Char} {t : TokenType}
    (h : cut cs = some (.token t, text, rest)) : Makes t text := by
  cases cs with
  | nil => cases h
  | cons c cs =>
    simp only [cut] at h
    split at h
    · cases h
    · cases h
    · next hscan =>
      cases h
      rw [Makes, List.length_take_of_le (scan_le hscan)]
      exact scan_take hscan

/-- A token begins with neither a blank nor the sign of a comment. -/
theorem scan_token_first {l : Letters} {c : Char} {cs : List Char} {t : TokenType} {k : Nat}
    (h : scan l (c :: cs) = some (some t, k)) : isSpace c = false ∧ c ≠ '#' := by
  obtain ⟨x, hx, ht, -, htake, -⟩ := scan_longest h
  have hother {y : LexicalClass} (hy : y ∈ lexicalClasses) (hc : [c] ∈ y.texts l) :
      y.type? = some t := by
    rw [class_unique hy hx hc htake ⟨cs, rfl⟩ (List.take_prefix k _), ht]
  constructor
  · by_contra hc
    have hblank : [c] ∈ LexicalClass.blanks.texts l :=
      cons_mem_single_mul.mpr ⟨by simpa using hc, Language.nil_mem_kstar _⟩
    cases hother (by decide) hblank
  · rintro rfl
    have hcomment : ['#'] ∈ LexicalClass.comment.texts l :=
      cons_mem_single_mul.mpr ⟨rfl, Language.nil_mem_kstar _⟩
    cases hother (by decide) hcomment

namespace Makes

variable {t : TokenType} {text : List Char}

theorem cut (h : Makes t text) : cut text = some (.token t, text, []) := by
  cases text with
  | nil => cases h
  | cons c cs => simp only [Calc.cut, show scan letters (c :: cs) = _ from h, List.take_length,
      List.drop_length]

/-- A space behind the text ends the token. -/
theorem cut_append (h : Makes t text) (ds : List Char) :
    Calc.cut (text ++ ' ' :: ds) = some (.token t, text, ' ' :: ds) := by
  cases text with
  | nil => cases h
  | cons c cs =>
    obtain ⟨hspace, hcomment⟩ := scan_token_first h
    exact Calc.cut_append rfl (fun hc => absurd hc hcomment) hspace h.cut nofun ds

end Makes

theorem solids_token {before cs text rest : List Char} {t : TokenType}
    (h : cut cs = some (.token t, text, rest)) :
    solids before cs = ⟨before, .token t, text⟩ :: solids (before ++ text) rest := by
  rw [solids, slices_eq before h]
  rfl

/-- Texts that make tokens, with spaces between them, are cut into these tokens. -/
theorem solids_spaced {ws : List (TokenType × List Char)} (h : ∀ w ∈ ws, Makes w.1 w.2)
    (before : List Char) :
    (solids before ([' '].intercalate (ws.map Prod.snd))).map (fun x => (x.kind, x.text)) =
      ws.map fun w => (.token w.1, w.2) := by
  induction ws generalizing before with
  | nil => rw [List.map_nil, List.intercalate_nil, solids_nil, List.map_nil, List.map_nil]
  | cons w ws ih =>
    have hw := h w List.mem_cons_self
    have hws := ih fun v hv => h v (List.mem_cons_of_mem w hv)
    cases ws with
    | nil =>
      rw [List.map_cons, List.map_nil, List.intercalate_singleton, solids_token hw.cut, solids_nil]
      rfl
    | cons v ws =>
      rw [List.map_cons, List.map_cons, List.intercalate_cons_cons, List.append_assoc,
        List.singleton_append, solids_token (hw.cut_append _), solids_blank rfl, List.map_cons,
        List.map_cons]
      exact congrArg _ (hws _)

/-- The type and the text of the token that a slice makes, if any. -/
def wordOf? : Kind × List Char → Option (TokenType × String)
  | (.token t, text) => some (t, String.ofList text)
  | _ => none

theorem words_solids (before cs : List Char) : (tokensOf before cs).map Token.word =
    ((solids before cs).map fun x => (x.kind, x.text)).filterMap wordOf? := by
  rw [tokensOf_solids, List.map_filterMap, List.filterMap_map]
  congr 1
  funext x
  cases hx : x.kind <;> simp [Slice.token?, wordOf?, hx, Token.word]

/-- The tokens of a text make tokens. -/
theorem tokensOf_makes {before cs : List Char} {t : Token} (h : t ∈ tokensOf before cs) :
    Makes t.type t.text.toList := by
  obtain ⟨x, hx, ht⟩ := List.mem_filterMap.mp h
  obtain ⟨ps, qs, hs⟩ := List.append_of_mem hx
  obtain ⟨-, hcut⟩ := slices_split hs
  unfold Slice.token? at ht
  split at ht
  · next type hkind =>
    cases ht
    rw [hkind] at hcut
    rw [String.toList_ofList]
    exact cut_makes hcut
  · cases ht

/-- The tokens before the one that ends the input. -/
def beforeEnd (ts : List Token) : List Token := ts.filter fun t => !t.isEof

/-- The texts of tokens with spaces between them. -/
def printed (ts : List Token) : String := " ".intercalate ((beforeEnd ts).map Token.text)

theorem beforeEnd_tokensIn (source : String) :
    beforeEnd (tokensIn source) = Buffer.numbered 0 (tokensOf [] source.toList) := by
  obtain ⟨e, htokens, he, hne⟩ := (Buffer.WF.ofSource (Lexer.ofString source never)).tokens_fill
  have hinput : ∀ t ∈ (Buffer.ofSource (Lexer.ofString source never)).input,
      (!t.isEof) = true := by
    intro t ht
    simpa [Token.isEof] using hne t ht
  rw [beforeEnd, tokensIn, htokens, List.filter_append, List.filter_eq_self.mpr hinput,
    Buffer.ofString_input]
  simp [Token.isEof, he]

theorem words_numbered (n : Nat) (ts : List Token) :
    (Buffer.numbered n ts).map Token.word = ts.map Token.word := by
  refine List.ext_getElem? fun i => ?_
  rw [List.getElem?_map, List.getElem?_map, Buffer.getElem?_numbered, Option.map_map]
  rfl

theorem words_tokensIn (source : String) : (beforeEnd (tokensIn source)).map Token.word =
    (tokensOf [] source.toList).map Token.word := by
  rw [beforeEnd_tokensIn, words_numbered]

/-- The text that is printed, character by character. -/
theorem toList_printed (source : String) : (printed (tokensIn source)).toList =
    [' '].intercalate ((tokensOf [] source.toList).map fun t => t.text.toList) := by
  have htexts := congrArg (List.map Prod.snd) (words_tokensIn source)
  rw [List.map_map, List.map_map] at htexts
  have htexts : (beforeEnd (tokensIn source)).map Token.text =
      (tokensOf [] source.toList).map Token.text := htexts
  rw [printed, htexts, String.toList_intercalate, List.map_map]
  rfl

/-- The slices of the text that is printed. -/
theorem solids_printed (source : String) :
    (solids [] (printed (tokensIn source)).toList).map (fun x => (x.kind, x.text)) =
      (tokensOf [] source.toList).map fun t => (.token t.type, t.text.toList) := by
  have hmakes : ∀ w ∈ (tokensOf [] source.toList).map fun t => (t.type, t.text.toList),
      Makes w.1 w.2 := by
    intro w hw
    obtain ⟨t, ht, rfl⟩ := List.mem_map.mp hw
    exact tokensOf_makes ht
  have hspaced := solids_spaced hmakes []
  rw [List.map_map, List.map_map] at hspaced
  rw [toList_printed]
  exact hspaced

theorem complaints_printed (source : String) :
    complaints [] (printed (tokensIn source)).toList = [] := by
  rw [complaints_solids, List.filterMap_eq_nil_iff]
  intro x hx
  have hmem : (x.kind, x.text) ∈ (tokensOf [] source.toList).map fun t =>
      (Kind.token t.type, t.text.toList) := solids_printed source ▸ List.mem_map_of_mem hx
  obtain ⟨t, -, ht⟩ := List.mem_map.mp hmem
  obtain ⟨hkind, -⟩ := Prod.mk.inj ht
  rw [Slice.error?, ← hkind]

theorem words_printed (source : String) :
    (tokensOf [] (printed (tokensIn source)).toList).map Token.word =
      (tokensOf [] source.toList).map Token.word := by
  rw [words_solids, solids_printed, List.filterMap_map, ← List.filterMap_eq_map]
  congr 1
  funext t
  simp [wordOf?, Token.word]

/-- Printing tokens and lexing them again changes nothing. Whatever a text is, the
texts of its tokens with single spaces between them are lexed without an error, on
whatever caches and under whatever settings, to tokens of the same types and texts in
the same order. -/
theorem tokenize_printed (settings settings' : Settings) (source : String)
    (c c' : PredictionCache) :
    ∃ lexed again,
      (tokenize settings source (.available c)).1 = .ok lexed ∧
      (tokenize settings' (printed lexed.tokens) (.available c')).1 = .ok again ∧
      again.lexerErrors = [] ∧
      (beforeEnd again.tokens).map Token.word = (beforeEnd lexed.tokens).map Token.word := by
  refine ⟨_, _, tokenize_tokens settings source c, tokenize_tokens settings' _ c',
    complaints_printed source, ?_⟩
  rw [words_tokensIn, words_tokensIn]
  exact words_printed source

end Descent.Calc
