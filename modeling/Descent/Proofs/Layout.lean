import Descent.Proofs.Junction

/-! Texts that differ in their layout only: spaces, comments, and characters that fit
nowhere. Their tokens have the same types and texts, one by one, so parsers over them
run side by side from their first step to their last, whatever errors there are. They
come to the same tree, and report the same of tokens that correspond to each other. -/

namespace Descent

/-- What a token is, apart from where it stands. -/
def Token.word (t : Token) : TokenType × String := (t.type, t.text)

namespace Calc

open Descent.Parser RawTree

/-- The tokens of a text, the one that ends it included. -/
def tokensIn (source : String) : List Token :=
  (Buffer.ofSource (Lexer.ofString source never)).fill.tokens.toList

/-- These are what lexing alone gives. -/
theorem tokenize_tokens (settings : Settings) (source : String) (c : PredictionCache) :
    (tokenize settings source (.available c)).1 =
      .ok ⟨tokensIn source, complaints [] source.toList⟩ := by
  have hfailure : (Buffer.ofSource (Lexer.ofString source never)).fill.source.failure? = none :=
    (Buffer.whole_steady source).failure
  rw [← Buffer.ofString_errors]
  simp only [tokenize, tokenizeFrom, hfailure]
  rfl

/-- A new parser has the tokens of its text in front of it, and behind the last one
that one again. -/
theorem ahead_tokensIn (source : String) (k : Nat) :
    (tokensIn source)[min k ((tokensIn source).length - 1)]? =
      some ((Buffer.ofSource (Lexer.ofString source never)).ahead (k + 1)) := by
  have htokens : tokensIn source = Buffer.numbered 0 (stream [] source.toList) :=
    Buffer.ofString_tokens source
  have hpos : 0 < (tokensIn source).length := by
    rw [htokens, Buffer.length_numbered]
    exact List.length_pos_iff.mpr (stream_ne_nil [] source.toList)
  have hlt : min k ((tokensIn source).length - 1) < (tokensIn source).length := by omega
  rw [Buffer.ahead_eq_whole, Array.getD_eq_getD_getElem?, ← Array.getElem?_toList]
  show _ = some ((tokensIn source)[min (0 + k) ((tokensIn source).length - 1)]?.getD _)
  rw [Nat.zero_add, List.getElem?_eq_getElem hlt, Option.getD_some]

/-- Tokens of two texts that have the same number in them. -/
def Corresponds (first second : String) (x y : Token) : Prop :=
  ∃ k : Nat, (tokensIn first)[k]? = some x ∧ (tokensIn second)[k]? = some y

section Called

variable {l : Link} {s t u v : ParserState} {tree tree' : RawTree}

theorem Twin.levels_eq {base : List (Option RawTree)} (h : Twin l base s t) :
    t.maxDepth - t.depth = s.maxDepth - s.depth := by
  rw [State.depth, State.depth, h.maxDepth, h.follow]

/-- What is attached to both last is the same but for places. -/
theorem outline_of_attach (h : Twin l [] (u.attach tree) (v.attach tree')) :
    tree'.outline = tree.outline := by
  obtain ⟨more, hmore, houtlines⟩ := h.slots
  rw [List.nil_append] at hmore
  rw [← hmore, State.attach, State.attach, outlines_append, outlines_append] at houtlines
  exact Option.some.inj (List.cons.inj (List.append_inj' houtlines rfl).2).1

variable (hopen : l.closed = false)

include hopen

/-- A rule below a program that returns on two parsers side by side. -/
theorem invokeWithin_abreast {levels : Nat} {r : Rule} (hr : r ≠ .program)
    (h : Abreast l levels [] s t) (hu : invokeWithin levels r .empty s = (.ok tree, u))
    (hv : invokeWithin levels r .empty t = (.ok tree', v)) :
    Abreast l levels [] (u.attach tree) (v.attach tree') := by
  have hf := Twin.facing_open hopen s
  have hmirrored : ∃ kept, Mirrored l levels [] kept (invoker levels r .empty s)
      (invoker levels r .empty t) := by
    by_cases hr' : r = .statement
    · subst hr'
      exact ⟨false, statement_mirrored .empty h hf⟩
    · exact ⟨true, invoker_mirrors levels r hr hr' .empty h hf⟩
  obtain ⟨kept, hmirrored⟩ := hmirrored
  simp only [invoker, attach, hu, hv] at hmirrored
  cases hmirrored with
  | ok huv _ => exact huv
  | loud hclosed _ _ => exact absurd (hopen.symm.trans hclosed) Bool.false_ne_true

/-- Two programs side by side make the same number of rounds. -/
theorem programState_abreast (hs : Idle s) (ht : Idle t)
    (h : Abreast l (s.maxDepth - s.depth) [] s t) :
    ∃ k start start',
      parseRule .program s = (.ok (.node Rule.program.index start false (programState s k).slots),
        ((programState s k).reach 1).closeRule s) ∧
      parseRule .program t = (.ok (.node Rule.program.index start' false (programState t k).slots),
        ((programState t k).reach 1).closeRule t) ∧
      Twin l [] (programState s k) (programState t k) := by
  have hopened : s.maxDepth - s.depth = s.maxDepth - s.depth - 1 + 1 := by
    have hlt := hs.depth_lt
    omega
  have hstart : Abreast l (s.maxDepth - s.depth - 1) [] (s.openRule .empty)
      (t.openRule .empty) := Abreast.openRule (hopened ▸ h) .empty
  have hrounds (k : Nat) : programState t k =
      (round (s.maxDepth - s.depth - 1))^[k] (t.openRule .empty) := by
    rw [programState, h.levels_eq]
  have hquiet {p : Prop} (hclosed : l.closed = true) : p :=
    absurd (hopen.symm.trans hclosed) Bool.false_ne_true
  obtain ⟨k, hk, hne, heof⟩ := programState_end hs h.left.trusts
  obtain ⟨k', hk', hne', heof'⟩ := programState_end ht h.right.trusts
  have habreast := rounds_mirrored hstart k hne hquiet
  have hsame := rounds_mirrored_ne hstart hne hquiet
  have htype := habreast.type_eq (Twin.facing_open hopen _)
  simp only [← hrounds] at habreast hsame htype
  obtain rfl : k' = k := rounds_unique hne' hsame heof' (htype.trans heof)
  exact ⟨k', _, _, parseRule_program_eq hs h.left.trusts hk hne heof,
    parseRule_program_eq ht h.right.trusts hk' hne' heof', habreast.toTwin⟩

/-- A rule that is called on two parsers side by side, whose inputs end together,
builds the same tree but for the places in it, and reports the same. -/
theorem parseRule_mirrored (hs : Idle s) (ht : Idle t) (h : Abreast l (s.maxDepth - s.depth) [] s t)
    {r : Rule} (hu : parseRule r s = (.ok tree, u)) (hv : parseRule r t = (.ok tree', v)) :
    tree'.outline = tree.outline ∧ List.Forall₂ (Echo l) u.errors v.errors := by
  by_cases hr : r = .program
  · subst hr
    obtain ⟨k, start, start', hs', ht', htwin⟩ := programState_abreast hopen hs ht h
    cases hs'.symm.trans hu
    cases ht'.symm.trans hv
    exact ⟨htwin.outline_eq _ _ _ _, htwin.errors⟩
  · unfold parseRule at hu hv
    rw [h.levels_eq] at hv
    have habreast := invokeWithin_abreast hopen hr h hu hv
    exact ⟨outline_of_attach habreast.toTwin, habreast.errors⟩

end Called

section Texts

variable {first second : String}

/-- The tokens of texts that differ in their layout only correspond to each other. -/
def layoutLink (hsame : (tokensIn second).map Token.word = (tokensIn first).map Token.word)
    (left right : PredictionCache) : Link where
  tokens := Corresponds first second
  alike := by
    rintro x y ⟨k, hx, hy⟩
    have hword := congrArg (·[k]?) hsame
    simp only [List.getElem?_map, hx, hy, Option.map_some, Option.some.injEq] at hword
    exact Prod.mk.inj hword
  shift := 0
  closed := false
  left := left
  right := right

/-- New parsers over such texts are side by side. -/
theorem fresh_abreast
    (hsame : (tokensIn second).map Token.word = (tokensIn first).map Token.word)
    {c c' : PredictionCache} (hc : c.Faithful simulate) (hc' : c'.Faithful simulate)
    (threshold threshold' depth : Nat) :
    Abreast (layoutLink hsame c c') (max depth 1) [] (fresh threshold depth first never c)
      (fresh threshold' depth second never c') where
  buffer := Buffer.WF.ofSource _
  buffer' := Buffer.WF.ofSource _
  ahead := by
    intro k _
    have hlength : (tokensIn second).length = (tokensIn first).length := by
      simpa using congrArg List.length hsame
    refine ⟨_, ahead_tokensIn first k, ?_⟩
    rw [← hlength]
    exact ahead_tokensIn second k
  index := rfl
  vocabulary := rfl
  follow := rfl
  maxDepth := rfl
  recovering := rfl
  lastError := rfl
  errors := .nil
  slots := ⟨[], rfl, rfl⟩
  calm hclosed := absurd hclosed Bool.false_ne_true
  left := ⟨⟨(fresh_idle ..).ok, rfl⟩, fresh_trusts hc ..⟩
  right := ⟨⟨(fresh_idle ..).ok, rfl⟩, fresh_trusts hc' ..⟩

end Texts

/-- Layout does not matter to a parse. If the tokens of two texts agree in type and
text, one by one, then from every rule and under every nesting limit, and on any two
caches that nobody has recorded into, both are parsed to the same tree, with as many
errors that say the same, each at the token of its text that has the same number. -/
theorem parse_ignores_layout (settings : Settings) (t₁ t₂ : Nat) (first second : String)
    {c₁ c₂ : PredictionCache} (hc₁ : Coherent c₁) (hc₂ : Coherent c₂) {r : Rule}
    (hr : Rule.ofName? (settings.startRule Rule.program.name) = some r)
    (hsame : (tokensIn second).map Token.word = (tokensIn first).map Token.word) :
    ∃ out₁ out₂,
      (parse { settings with cacheThreshold := t₁ } first (.available c₁)).1 = .ok out₁ ∧
      (parse { settings with cacheThreshold := t₂ } second (.available c₂)).1 = .ok out₂ ∧
      out₂.tree = out₁.tree ∧
      List.Forall₂ (fun e f => ∃ x y message, Corresponds first second x y ∧
          e = .report x.line x.column message ∧ f = .report y.line y.column message)
        out₁.parserErrors out₂.parserErrors := by
  obtain ⟨tree, s, out, hs, hout, herrors, hparse⟩ :=
    parse_eq { settings with cacheThreshold := t₁ } first hc₁.faithful hr
  obtain ⟨tree', t, out', ht, hout', herrors', hparse'⟩ :=
    parse_eq { settings with cacheThreshold := t₂ } second hc₂.faithful hr
  have habreast := fresh_abreast hsame hc₁.faithful hc₂.faithful t₁ t₂ settings.maxRuleDepth
  obtain ⟨houtline, hechoes⟩ :=
    parseRule_mirrored rfl (fresh_idle ..) (fresh_idle ..) habreast hs ht
  refine ⟨out, out', hparse, hparse', ?_, ?_⟩
  · have htree := (finish_ok hout).1
    have htree' := (finish_ok hout').1
    rw [← materialize_outline] at htree htree'
    rw [houtline, htree] at htree'
    exact (Except.ok.inj htree').symm
  · rw [herrors, herrors']
    exact hechoes

/-- A factor and an opening parenthesis are missing, once on one line and once on three,
with a comment and a character that fits nowhere. -/
theorem parse_ignores_layout_lines : ∃ out₁ out₂,
    (parse {} "x = 2 *; y )" (.available .empty)).1 = .ok out₁ ∧
    (parse { cacheThreshold := 0 } "x=2# two\n*@;\n\ty)" (.available .empty)).1 = .ok out₂ ∧
    out₂.tree = out₁.tree ∧
    out₁.lexerErrors.length = 0 ∧ out₂.lexerErrors.length = 1 ∧
    out₁.parserErrors.map (fun e => (e.line, e.column)) = [(1, 7), (1, 11)] ∧
    out₂.parserErrors.map (fun e => (e.line, e.column)) = [(2, 2), (3, 2)] ∧
    List.Forall₂ (fun e f => f.message = e.message) out₁.parserErrors out₂.parserErrors := by
  have hplaces : (parse {} "x = 2 *; y )" (.available .empty)).1.toOption.map (fun out =>
      (out.lexerErrors.length, out.parserErrors.map fun e => (e.line, e.column))) =
        some (0, [(1, 7), (1, 11)]) := by
    decide +kernel
  have hplaces' : (parse { cacheThreshold := 0 } "x=2# two\n*@;\n\ty)"
      (.available .empty)).1.toOption.map (fun out =>
        (out.lexerErrors.length, out.parserErrors.map fun e => (e.line, e.column))) =
          some (1, [(2, 2), (3, 2)]) := by
    decide +kernel
  obtain ⟨out₁, out₂, hfirst, hsecond, htree, hechoes⟩ :=
    parse_ignores_layout {} defaultThreshold 0 "x = 2 *; y )" "x=2# two\n*@;\n\ty)" Uses.none
      Uses.none (r := .program) (by decide) (by decide +kernel)
  have hfirst : (parse {} "x = 2 *; y )" (.available .empty)).1 = .ok out₁ := hfirst
  rw [hfirst] at hplaces
  rw [hsecond] at hplaces'
  obtain ⟨hlexer, hparser⟩ := Prod.mk.inj (Option.some.inj hplaces)
  obtain ⟨hlexer', hparser'⟩ := Prod.mk.inj (Option.some.inj hplaces')
  refine ⟨out₁, out₂, hfirst, hsecond, htree, hlexer, hlexer', hparser, hparser', ?_⟩
  refine hechoes.imp ?_
  rintro e f ⟨x, y, message, -, rfl, rfl⟩
  rfl

end Calc

end Descent
