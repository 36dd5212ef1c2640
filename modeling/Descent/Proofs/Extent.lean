import Descent.Proofs.Layout
import Descent.Proofs.Stalls

/-! How far a parse reads its text. It draws tokens only as it needs them, so it may
come to its end before the text does. What it has drawn by then, and what the lexer has
reported on the way, is the beginning of what lexing alone gives, and the whole of it
where the parser has seen the end of the input, as it always has after a program. -/

namespace Descent

namespace Buffer

variable {σ : Type} [TokenSource σ]

/-- What was drawn so far is the beginning of what will have been drawn. -/
theorem tokens_whole (b : Buffer σ) : b.tokens.toList <+: b.whole.tokens.toList :=
  prefix_pull _ b

/-- At the end of the input there is nothing more to draw. -/
theorem whole_of_ended {b : Buffer σ} (h : b.ended = true) :
    b.whole = { b with position := 0 } := by
  rw [whole, fill_of_ended b h]

end Buffer

namespace Calc

open Descent.Parser

variable {source : String} {threshold depth : Nat} {c : PredictionCache} {r : Rule}
  {tree : RawTree} {t : ParserState}

theorem parseRule_whole
    (ht : parseRule r (fresh threshold depth source never c) = (.ok tree, t)) :
    t.buffer.whole = (Buffer.ofSource (Lexer.ofString source never)).whole := by
  have hok := (fresh_idle threshold depth source never c).ok
  exact ((parseRule_run hok ht).kept hok).whole

/-- What a rule has drawn and had reported is the beginning of what there is, and all
of it once the end of the input is drawn. -/
theorem parseRule_extent
    (ht : parseRule r (fresh threshold depth source never c) = (.ok tree, t)) :
    t.buffer.tokens.toList <+: tokensIn source ∧
      t.buffer.source.errors <+: complaints [] source.toList ∧
      (t.buffer.ended = true → t.buffer.tokens.toList = tokensIn source ∧
        t.buffer.source.errors = complaints [] source.toList) := by
  have hwhole := parseRule_whole ht
  have htokens : t.buffer.whole.tokens.toList = tokensIn source :=
    congrArg (fun b => b.tokens.toList) hwhole
  have herrors : t.buffer.whole.source.errors = complaints [] source.toList := by
    rw [hwhole, Buffer.ofString_errors]
  refine ⟨htokens ▸ t.buffer.tokens_whole, herrors ▸ t.buffer.errors_whole, fun hended => ?_⟩
  rw [Buffer.whole_of_ended hended] at htokens herrors
  exact ⟨htokens, herrors⟩

/-- A parse and lexing alone agree about a text, on whatever caches and under whatever
settings. Every parse from a rule that exists returns; what the lexer has reported in it
is the beginning of what lexing alone reports, and the tokens that its parser has drawn
are the first of those that lexing alone gives. After a program both are all. -/
theorem parse_lexes (settings settings' : Settings) (source : String) {c : PredictionCache}
    (hc : Coherent c) (c' : PredictionCache) {r : Rule}
    (hr : Rule.ofName? (settings.startRule Rule.program.name) = some r) :
    ∃ tree t out lexed,
      parseRule r (fresh settings.cacheThreshold settings.maxRuleDepth source never c) =
        (.ok tree, t) ∧
      finish tree t = .ok out ∧ (parse settings source (.available c)).1 = .ok out ∧
      (tokenize settings' source (.available c')).1 = .ok lexed ∧
      out.lexerErrors <+: lexed.lexerErrors ∧ t.buffer.tokens.toList <+: lexed.tokens ∧
      (r = .program →
        out.lexerErrors = lexed.lexerErrors ∧ t.buffer.tokens.toList = lexed.tokens) := by
  obtain ⟨tree, t, out, ht, hout, -, hparse⟩ := parse_eq settings source hc.faithful hr
  obtain ⟨htokens, herrors, hall⟩ := parseRule_extent ht
  obtain ⟨-, hlexer, -⟩ := finish_ok hout
  refine ⟨tree, t, out, _, ht, hout, hparse, tokenize_tokens settings' source c',
    hlexer ▸ herrors, htokens, ?_⟩
  rintro rfl
  obtain ⟨htokens', herrors'⟩ := hall (parseRule_program_ended hc.faithful ht)
  exact ⟨hlexer.trans herrors', htokens'⟩

/-- A factor comes to its end before the second of two characters that fit nowhere; a
program meets both, also where it may not open a single statement. -/
theorem parse_lexes_stray :
    (∃ tree t out lexed,
      parseRule .factor (fresh 10 400 "1 @ ; 2 ? ;" never .empty) = (.ok tree, t) ∧
      (parse ⟨10, 400, some "factor"⟩ "1 @ ; 2 ? ;" .fresh).1 = .ok out ∧
      (tokenize {} "1 @ ; 2 ? ;" .fresh).1 = .ok lexed ∧
      out.lexerErrors <+: lexed.lexerErrors ∧ t.buffer.tokens.toList <+: lexed.tokens ∧
      out.lexerErrors.length = 1) ∧
    ∃ out lexed,
      (parse ⟨10, 1, none⟩ "1 @ ; 2 ? ;" .fresh).1 = .ok out ∧
      (tokenize {} "1 @ ; 2 ? ;" .fresh).1 = .ok lexed ∧
      out.lexerErrors = lexed.lexerErrors ∧ lexed.lexerErrors.length = 2 := by
  obtain ⟨tree, t, out, lexed, ht, -, hout, hlexed, herrors, htokens, -⟩ :=
    parse_lexes ⟨10, 400, some "factor"⟩ {} "1 @ ; 2 ? ;" (c := .empty) Uses.none .empty
      (r := .factor) rfl
  obtain ⟨tree', t', out', lexed', -, -, hout', hlexed', -, -, hall⟩ :=
    parse_lexes ⟨10, 1, none⟩ {} "1 @ ; 2 ? ;" (c := .empty) Uses.none .empty
      (r := .program) rfl
  have hone : ((parse ⟨10, 400, some "factor"⟩ "1 @ ; 2 ? ;" (.available .empty)).1.map
      fun out => out.lexerErrors.length).toOption = some 1 := by decide +kernel
  have htwo : ((tokenize {} "1 @ ; 2 ? ;" (.available .empty)).1.map
      fun lexed => lexed.lexerErrors.length).toOption = some 2 := by decide +kernel
  rw [hout] at hone
  rw [hlexed'] at htwo
  exact ⟨⟨tree, t, out, lexed, ht, hout, hlexed, herrors, htokens, Option.some.inj hone⟩,
    out', lexed', hout', hlexed', (hall rfl).1, Option.some.inj htwo⟩

end Calc

end Descent
