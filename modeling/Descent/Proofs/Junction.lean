import Descent.Proofs.Mirror
import Descent.Proofs.Output
import Descent.Proofs.Seam

/-! Two texts with a line break between them. Where the first ends with a statement
that a semicolon closes, and has no errors, a parser over both runs beside one over
the first until that comes to its end, and then beside a new one over the second,
with the trees of the first before its own. So the trees of both come one after the
other, and the errors are those of the second, so many lines further down. -/

namespace Descent

namespace RawTree

variable {rules : List String} {v : Vocabulary}

mutual

/-- Places do not matter to a parse tree. -/
theorem materialize_outline : ∀ t : RawTree,
    t.outline.materialize rules v = t.materialize rules v
  | .leaf t error => by rw [outline, materialize, materialize]
  | .node rule start recovered slots => by
    rw [outline, materialize, materialize, materializeSlots_outlines slots]

theorem materializeSlots_outlines : ∀ slots : List (Option RawTree),
    materializeSlots rules v (outlines slots) = materializeSlots rules v slots
  | [] => by rw [outlines]
  | none :: slots => by
    rw [outlines, materializeSlots, materializeSlots, materializeSlots_outlines slots]
  | some t :: slots => by
    rw [outlines, materializeSlots, materializeSlots, materialize_outline t,
      materializeSlots_outlines slots]

end

theorem materializeSlots_append {slots more : List (Option RawTree)} {ps qs : List ParseTree}
    (h : materializeSlots rules v slots = .ok ps) (h' : materializeSlots rules v more = .ok qs) :
    materializeSlots rules v (slots ++ more) = .ok (ps ++ qs) := by
  induction slots generalizing ps with
  | nil =>
    rw [materializeSlots] at h
    cases h
    exact h'
  | cons slot slots ih =>
    cases slot with
    | none =>
      rw [materializeSlots] at h
      rw [List.cons_append, materializeSlots, ih h]
    | some t =>
      rw [materializeSlots] at h
      rw [List.cons_append, materializeSlots]
      split at h
      · cases h
      · split at h
        · cases h
        · next hs =>
          cases h
          rw [ih hs]
          rfl

end RawTree

namespace Buffer

/-- What stands `k` places ahead of a cursor behind the tokens `xs` of a text. -/
theorem ahead_stream {b : Buffer Calc.Lexer} {source : String} {xs ys : List Token}
    (h : b.whole = (ofSource (Calc.Lexer.ofString source Calc.never)).whole)
    (hsplit : Calc.stream [] source.toList = xs ++ ys) (hp : b.position = xs.length) (hys : ys ≠ [])
    (k : Nat) : ∃ y i, ys[min k (ys.length - 1)]? = some y ∧
      b.ahead (k + 1) = { y with index := i } := by
  have htokens : b.whole.tokens.toList = numbered 0 (xs ++ ys) := by
    rw [h, ← hsplit, ← ofString_tokens]
    rfl
  have hpos := List.length_pos_iff.mpr hys
  have hsize : b.whole.tokens.size = xs.length + ys.length := by
    rw [← Array.length_toList, htokens, length_numbered, List.length_append]
  have hmin : min (b.position + k) (b.whole.tokens.size - 1) =
      xs.length + min k (ys.length - 1) := by omega
  have hlt : min k (ys.length - 1) < ys.length := by omega
  refine ⟨ys[min k (ys.length - 1)], xs.length + min k (ys.length - 1),
    List.getElem?_eq_getElem hlt, ?_⟩
  rw [ahead_eq_whole, hmin, Array.getD_eq_getD_getElem?, ← Array.getElem?_toList, htokens,
    getElem?_numbered, List.getElem?_append_right (Nat.le_add_right _ _), Nat.add_sub_cancel_left,
    List.getElem?_eq_getElem hlt]
  simp

/-- The tokens of a text, without the one that ends it. -/
theorem ofString_input (source : String) :
    (ofSource (Calc.Lexer.ofString source Calc.never)).input =
      numbered 0 (Calc.tokensOf [] source.toList) := by
  have htokens := ofString_tokens source
  rw [input, whole, htokens, Calc.stream, numbered_append]
  exact List.dropLast_concat

end Buffer

namespace Calc

open Descent.Parser RawTree

/-- Parsers over texts of which the second has its lines further down. -/
def lowerLink (n shift : Nat) (closed : Bool) (left right : PredictionCache) : Link where
  tokens := Lower n
  alike h := ⟨h.type, h.text⟩
  shift := shift
  closed := closed
  left := left
  right := right

theorem Lower.renumber {n : Nat} {x y : Token} (h : Lower n x y) (i j : Nat) :
    Lower n { x with index := i } { y with index := j } := ⟨h.type, h.text, h.line, h.column⟩

variable {n shift : Nat} {closed : Bool} {c c' : PredictionCache} {t : ParserState}

theorem echo_lower {e f : SyntaxError} (h : Echo (lowerLink n shift closed c c') e f) :
    f = lower n e := by
  obtain ⟨x, y, message, hxy, rfl, rfl⟩ := h
  have hxy : Lower n x y := hxy
  rw [hxy.line, hxy.column]
  rfl

theorem errors_lower {es fs : List SyntaxError}
    (h : List.Forall₂ (Echo (lowerLink n shift closed c c')) es fs) : fs = es.map (lower n) := by
  induction h with
  | nil => rfl
  | cons hef _ ih => rw [List.map_cons, echo_lower hef, ih]

/-- The rounds that a program makes are the only ones that bring it to the end of
the input. -/
theorem rounds_unique {s : ParserState} {j k : Nat}
    (hj : ∀ i < j, (programState s i).current.type ≠ eof)
    (hk : ∀ i < k, (programState s i).current.type ≠ eof)
    (hj' : (programState s j).current.type = eof) (hk' : (programState s k).current.type = eof) :
    j = k := by
  rcases Nat.lt_trichotomy j k with hlt | heq | hlt
  · exact absurd hj' (hk j hlt)
  · exact heq
  · exact absurd hk' (hj k hlt)

section Program

variable {threshold threshold' depth : Nat} {source : String}

/-- What the lexer has reported at the end of the input is all it has to report. -/
theorem reported_of_eof {s : ParserState} (h : s.buffer.WF) (heof : s.current.type = eof)
    (hwhole : s.buffer.whole = (Buffer.ofSource (Lexer.ofString source never)).whole) :
    (s.reach 1).buffer.source.errors = complaints [] source.toList := by
  have hfill := Buffer.fill_of_ended _ (h.ended_of_eof heof)
  calc (s.buffer.reach 1).source.errors
      = (s.buffer.reach 1).fill.source.errors := by rw [hfill]
    _ = (s.buffer.reach 1).whole.source.errors := rfl
    _ = complaints [] source.toList := by
      rw [Buffer.whole_reach, hwhole, Buffer.ofString_errors]

variable (hc : c.Faithful simulate)

include hc

theorem fresh_sound : Sound c (max depth 1 - 1)
    ((fresh threshold depth source never c).openRule .empty) :=
  (fresh_idle ..).sound (fresh_trusts hc ..)

/-- What the rounds of a program leave alone. -/
theorem programState_kept {k : Nat} (hne : ∀ i < k,
      (programState (fresh threshold depth source never c) i).current.type ≠ eof) :
    Kept ((fresh threshold depth source never c).openRule .empty)
      (programState (fresh threshold depth source never c) k) := by
  obtain ⟨w, hr⟩ := rounds_run (fresh_sound hc) k hne
  exact hr.kept (fresh_sound hc).ok

/-- What a parse gives that starts with a program, by its last round: the trees that
were attached, all that the lexer has to report, and what was reported. -/
theorem parse_rounds {settings : Settings}
    (hstart : settings.startRule Rule.program.name = Rule.program.name) {k : Nat}
    (hne : ∀ i < k, (programState (fresh threshold settings.maxRuleDepth source never c)
      i).current.type ≠ eof)
    (heof : (programState (fresh threshold settings.maxRuleDepth source never c)
      k).current.type = eof) :
    ∃ children, materializeSlots ruleNames vocabulary
        (programState (fresh threshold settings.maxRuleDepth source never c) k).slots =
          .ok children ∧
      (parse { settings with cacheThreshold := threshold } source (.available c)).1 =
        .ok ⟨.rule Rule.program.name children, complaints [] source.toList,
          (programState (fresh threshold settings.maxRuleDepth source never c) k).errors⟩ := by
  have hidle := fresh_idle threshold settings.maxRuleDepth source never c
  have htrusts := fresh_trusts hc threshold settings.maxRuleDepth source never
  obtain ⟨j, hj, hne', heof'⟩ := programState_end hidle htrusts
  obtain rfl := rounds_unique hne' hne heof' heof
  have hname : Rule.ofName? (({ settings with cacheThreshold := threshold } :
      Settings).startRule Rule.program.name) = some .program := by
    show Rule.ofName? (settings.startRule Rule.program.name) = some .program
    rw [hstart]
    decide
  obtain ⟨tree, t, out, ht, hout, -, hok⟩ := parse_eq _ source hc hname
  have ht := (parseRule_program_eq hidle htrusts hj hne heof).symm.trans ht
  obtain ⟨htree, rfl⟩ := Prod.mk.inj ht
  obtain rfl := Except.ok.inj htree
  obtain ⟨hm, hlexer, hparser⟩ := finish_ok hout
  have hkept := programState_kept hc hne
  rw [materialize, ruleNames_index] at hm
  dsimp only at hm
  split at hm
  · cases hm
  · next children hchildren =>
    refine ⟨children, hchildren, hok.trans (congrArg _ ?_)⟩
    obtain ⟨tree, lexerErrors, parserErrors⟩ := out
    cases hm
    cases hparser
    rw [← reported_of_eof hkept.ok.buffer heof hkept.whole]
    cases hlexer
    rfl

end Program

section Join

variable {t₁ t₂ t₃ depth : Nat} {c₁ c₂ c₃ : PredictionCache} {first second : String}

theorem toList_join (first second : String) :
    (first ++ "\n" ++ second).toList = first.toList ++ '\n' :: second.toList := by
  simp

theorem stream_ne_nil (before cs : List Char) : stream before cs ≠ [] :=
  List.append_ne_nil_of_right_ne_nil _ (List.cons_ne_nil _ _)

variable (hquiet : complaints [] first.toList = [])

include hquiet

/-- Up to the end of the first text a parser over both texts has the same in front
of it as one over the first. -/
theorem first_ahead {k : Nat}
    (hk : k < (Buffer.ofSource (Lexer.ofString first never)).input.length) :
    Lower 0 ((Buffer.ofSource (Lexer.ofString first never)).ahead (k + 1))
      ((Buffer.ofSource (Lexer.ofString (first ++ "\n" ++ second) never)).ahead (k + 1)) := by
  rw [Buffer.ofString_input, Buffer.length_numbered] at hk
  have hjoin : stream [] (first ++ "\n" ++ second).toList =
      [] ++ (tokensOf [] first.toList ++ stream (first.toList ++ ['\n']) second.toList) := by
    rw [toList_join, stream_join hquiet]
    rfl
  have hne := List.append_ne_nil_of_right_ne_nil (tokensOf [] first.toList)
    (stream_ne_nil (first.toList ++ ['\n']) second.toList)
  obtain ⟨x, i, hx, hs⟩ := Buffer.ahead_stream (b := Buffer.ofSource (Lexer.ofString first never))
    rfl (List.nil_append _).symm rfl (stream_ne_nil [] first.toList) k
  obtain ⟨y, j, hy, ht⟩ := Buffer.ahead_stream
    (b := Buffer.ofSource (Lexer.ofString (first ++ "\n" ++ second) never)) rfl hjoin rfl hne k
  have hleft (ys : List Token) (hys : ys ≠ []) (z : Token)
      (hz : (tokensOf [] first.toList ++ ys)[min k ((tokensOf [] first.toList ++ ys).length - 1)]? =
        some z) : (tokensOf [] first.toList)[k]? = some z := by
    have hpos := List.length_pos_iff.mpr hys
    rw [List.length_append, Nat.min_eq_left (by omega), List.getElem?_append_left hk] at hz
    exact hz
  have hx := hleft _ (List.cons_ne_nil _ _) x hx
  have hy := hleft _ (stream_ne_nil _ _) y hy
  obtain rfl : x = y := Option.some.inj (hx.symm.trans hy)
  rw [hs, ht]
  exact ⟨rfl, rfl, rfl, rfl⟩

/-- Behind the first text it has the same in front of it as one over the second,
further down. -/
theorem second_ahead {b : Buffer Lexer}
    (hwhole : b.whole =
      (Buffer.ofSource (Lexer.ofString (first ++ "\n" ++ second) never)).whole)
    (hp : b.position = (tokensOf [] first.toList).length) (k : Nat) :
    Lower (1 + first.toList.count '\n')
      ((Buffer.ofSource (Lexer.ofString second never)).ahead (k + 1)) (b.ahead (k + 1)) := by
  have hjoin := stream_join hquiet second.toList
  rw [← toList_join] at hjoin
  obtain ⟨x, i, hx, hs⟩ := Buffer.ahead_stream (b := Buffer.ofSource (Lexer.ofString second never))
    rfl (List.nil_append _).symm rfl (stream_ne_nil [] second.toList) k
  obtain ⟨y, j, hy, ht⟩ := Buffer.ahead_stream hwhole hjoin hp (stream_ne_nil _ _) k
  have hlower := stream_lower first.toList second.toList
  rw [← hlower.length_eq] at hy
  obtain ⟨hlt, rfl⟩ := List.getElem?_eq_some_iff.mp hx
  obtain ⟨hlt', rfl⟩ := List.getElem?_eq_some_iff.mp hy
  rw [hs, ht]
  exact (hlower.get hlt hlt').renumber i j

variable (hc₁ : c₁.Faithful simulate) (hc₂ : c₂.Faithful simulate) (hc₃ : c₃.Faithful simulate)
  {s₁ s₂ s₃ : ParserState} (hs₁ : s₁ = fresh t₁ depth first never c₁)
  (hs₂ : s₂ = fresh t₂ depth second never c₂)
  (hs₃ : s₃ = fresh t₃ depth (first ++ "\n" ++ second) never c₃)

include hc₁ hs₁ hs₃

/-- A parser over both texts starts beside one over the first. -/
theorem first_abreast (hc₃ : c₃.Faithful simulate) (hclosing : ∀ x ∈
      (Buffer.ofSource (Lexer.ofString first never)).input.getLast?, x.type = semi) :
    Abreast (lowerLink 0 0 true c₁ c₃) (max depth 1 - 1) [] (s₁.openRule .empty)
      (s₃.openRule .empty) := by
  subst hs₁ hs₃
  exact {
    buffer := Buffer.WF.ofSource _
    buffer' := Buffer.WF.ofSource _
    ahead := fun _ hk => first_ahead hquiet (hk rfl)
    index := rfl
    vocabulary := rfl
    follow := rfl
    maxDepth := rfl
    recovering := rfl
    lastError := rfl
    errors := .nil
    slots := ⟨[], rfl, rfl⟩
    calm := fun _ => ⟨rfl, rfl, rfl, hclosing⟩
    left := fresh_sound hc₁
    right := fresh_sound hc₃ }

include hc₂ hs₂

/-- Where the first text has come to its end, a parser over both goes on beside a new
one over the second. -/
theorem second_abreast {j : Nat} (hj : ∀ i < j, (programState s₁ i).current.type ≠ eof)
    (hj' : (programState s₁ j).current.type = eof)
    (h : Abreast (lowerLink 0 0 true c₁ c₃) (max depth 1 - 1) [] (programState s₁ j) t)
    (hkept : Kept (s₃.openRule .empty) t) :
    Abreast (lowerLink (1 + first.toList.count '\n') (tokensOf [] first.toList).length false c₂ c₃)
      (max depth 1 - 1) t.slots (s₂.openRule .empty) t := by
  subst hs₁ hs₂ hs₃
  have hkept₁ := programState_kept hc₁ hj
  have hcalm := h.calm rfl
  have hposition : t.buffer.position = (tokensOf [] first.toList).length := by
    have hend := hkept₁.ok.buffer.ahead_eq_eof_iff.mp hj'
    have hinput : (programState (fresh t₁ depth first never c₁) j).buffer.input =
        Buffer.numbered 0 (tokensOf [] first.toList) :=
      hkept₁.input.trans (Buffer.ofString_input first)
    rw [hinput, Buffer.length_numbered] at hend
    exact h.index.trans hend
  have herrors : t.errors = [] := by
    have hecho := h.errors
    rw [hcalm.errors] at hecho
    exact List.forall₂_nil_left_iff.mp hecho
  exact {
    buffer := Buffer.WF.ofSource _
    buffer' := hkept.ok.buffer
    ahead := fun k _ => second_ahead hquiet hkept.whole hposition k
    index := hposition.trans (Nat.zero_add _).symm
    vocabulary := hkept.vocabulary
    follow := hkept.follow
    maxDepth := hkept.maxDepth
    recovering := h.recovering.trans hcalm.recovering
    lastError := by
      rw [h.lastError, hcalm.lastError]
      rfl
    errors := by
      rw [herrors]
      exact .nil
    slots := ⟨[], (List.append_nil _).symm, rfl⟩
    calm := fun hclosed => absurd hclosed Bool.false_ne_true
    left := fresh_sound hc₂
    right := h.right }

include hc₃

/-- A parser over both texts makes the rounds of the first and then those of the
second. -/
theorem join_rounds (hclosing : ∀ x ∈
      (Buffer.ofSource (Lexer.ofString first never)).input.getLast?, x.type = semi) {j k : Nat}
    (hj : ∀ i < j, (programState s₁ i).current.type ≠ eof)
    (hj' : (programState s₁ j).current.type = eof) (herrors : (programState s₁ j).errors = [])
    (hk : ∀ i < k, (programState s₂ i).current.type ≠ eof)
    (hk' : (programState s₂ k).current.type = eof) :
    (∀ i < k + j, (programState s₃ i).current.type ≠ eof) ∧
    (programState s₃ (k + j)).current.type = eof ∧
    (programState s₃ (k + j)).errors =
      (programState s₂ k).errors.map (lower (1 + first.toList.count '\n')) ∧
    ∃ slots more, (programState s₃ (k + j)).slots = slots ++ more ∧
      outlines slots = outlines (programState s₁ j).slots ∧
      outlines more = outlines (programState s₂ k).slots := by
  have hstart := first_abreast hquiet hc₁ hs₁ hs₃ hc₃ hclosing
  have hgo := second_abreast (t := programState s₃ j) hquiet hc₁ hc₂ hs₁ hs₂ hs₃ hj hj'
  subst hs₁ hs₂ hs₃
  have hfirst := rounds_mirrored hstart j hj fun _ => herrors
  have hne := rounds_mirrored_ne hstart hj fun _ => herrors
  -- The parser over both is now as a new one would be, but for its cache, what it has
  -- attached and the number of tokens it has taken.
  have hgo := hgo hfirst (programState_kept hc₃ hne)
  have hsecond := rounds_mirrored hgo k hk fun hclosed => absurd hclosed Bool.false_ne_true
  have hne' := rounds_mirrored_ne hgo hk fun hclosed => absurd hclosed Bool.false_ne_true
  have hsplit (i : Nat) :
      programState (fresh t₃ depth (first ++ "\n" ++ second) never c₃) (i + j) =
        (round (max depth 1 - 1))^[i]
          (programState (fresh t₃ depth (first ++ "\n" ++ second) never c₃) j) :=
    Function.iterate_add_apply _ i j _
  refine ⟨fun i hi => ?_, ?_, ?_, ?_⟩
  · by_cases hlt : i < j
    · exact hne i hlt
    · obtain ⟨m, rfl⟩ := Nat.exists_eq_add_of_le' (Nat.le_of_not_lt hlt)
      rw [hsplit]
      exact hne' m (by omega)
  · rw [hsplit, hsecond.type_eq (Twin.facing_open rfl _)]
    exact hk'
  · rw [hsplit]
    exact errors_lower hsecond.errors
  · obtain ⟨slots, hslots, houtlines⟩ := hfirst.slots
    obtain ⟨more, hmore, houtlines'⟩ := hsecond.slots
    refine ⟨slots, more, ?_, houtlines, houtlines'⟩
    rw [hsplit, hmore]
    exact congrArg (· ++ more) hslots

end Join

/-- A text that has no errors and ends with a semicolon, or has no tokens, can be
parsed apart from what comes on the lines behind it: the trees of both come one
after the other, and the errors are those of what comes behind, as many lines
further down as there are before it. -/
theorem parse_join (settings : Settings) (t₁ t₂ t₃ : Nat) (first second : String)
    {c₁ c₂ c₃ : PredictionCache} (hc₁ : Coherent c₁) (hc₂ : Coherent c₂) (hc₃ : Coherent c₃)
    (hstart : settings.startRule Rule.program.name = Rule.program.name) {out : ParseOutput}
    (hout : (parse { settings with cacheThreshold := t₁ } first (.available c₁)).1 = .ok out)
    (hlexer : out.lexerErrors = []) (hparser : out.parserErrors = [])
    (hclosing : ∀ t ∈ (Buffer.ofSource (Lexer.ofString first never)).input.getLast?,
      t.type = semi) :
    ∃ children more lexerErrors parserErrors,
      out.tree = .rule Rule.program.name children ∧
      (parse { settings with cacheThreshold := t₂ } second (.available c₂)).1 =
        .ok ⟨.rule Rule.program.name more, lexerErrors, parserErrors⟩ ∧
      (parse { settings with cacheThreshold := t₃ } (first ++ "\n" ++ second) (.available c₃)).1 =
        .ok ⟨.rule Rule.program.name (children ++ more),
          lexerErrors.map (lower (1 + first.toList.count '\n')),
          parserErrors.map (lower (1 + first.toList.count '\n'))⟩ := by
  have hend (t : Nat) (source : String) {c : PredictionCache} (hc : Coherent c) :=
    programState_end (fresh_idle t settings.maxRuleDepth source never c)
      (fresh_trusts hc.faithful t settings.maxRuleDepth source never)
  obtain ⟨j, -, hj, hj'⟩ := hend t₁ first hc₁
  obtain ⟨k, -, hk, hk'⟩ := hend t₂ second hc₂
  obtain ⟨children, hchildren, hfirst⟩ := parse_rounds hc₁.faithful hstart hj hj'
  obtain ⟨more, hmore, hsecond⟩ := parse_rounds hc₂.faithful hstart hk hk'
  obtain rfl := Except.ok.inj (hout.symm.trans hfirst)
  obtain ⟨hne, heof, herrors, slots, slots', hslots, houtlines, houtlines'⟩ :=
    join_rounds hlexer hc₁.faithful hc₂.faithful hc₃.faithful rfl rfl
      (rfl : fresh t₃ settings.maxRuleDepth (first ++ "\n" ++ second) never c₃ = _) hclosing hj hj'
      hparser hk hk'
  obtain ⟨all, hall, hboth⟩ := parse_rounds hc₃.faithful hstart hne heof
  have hjoined : materializeSlots ruleNames vocabulary (slots ++ slots') =
      .ok (children ++ more) := by
    refine materializeSlots_append ?_ ?_
    · rw [← materializeSlots_outlines, houtlines, materializeSlots_outlines, hchildren]
    · rw [← materializeSlots_outlines, houtlines', materializeSlots_outlines, hmore]
  rw [hslots, hjoined] at hall
  obtain rfl := Except.ok.inj hall
  rw [herrors, toList_join, complaints_join hlexer] at hboth
  exact ⟨children, more, _, _, rfl, hsecond, hboth⟩

/-- The line break ends the comment in which the first text ends, and what is wrong
with the second text stands two lines further down. -/
theorem parse_join_comment : ∃ out children more lexerErrors parserErrors,
    (parse { cacheThreshold := 0 } "x = 1;\ny; # y" (.available .empty)).1 = .ok out ∧
    out.lexerErrors = [] ∧ out.parserErrors = [] ∧ out.tree = .rule "program" children ∧
    (parse {} "2 @ )" (.available .empty)).1 =
      .ok ⟨.rule "program" more, lexerErrors, parserErrors⟩ ∧
    lexerErrors.length = 1 ∧ parserErrors.length = 1 ∧
    (parse {} ("x = 1;\ny; # y" ++ "\n" ++ "2 @ )") (.available .empty)).1 =
      .ok ⟨.rule "program" (children ++ more), lexerErrors.map (lower 2),
        parserErrors.map (lower 2)⟩ := by
  have hquiet : (parse { cacheThreshold := 0 } "x = 1;\ny; # y"
      (.available .empty)).1.toOption.map (fun out => (out.lexerErrors, out.parserErrors)) =
        some ([], []) := by
    decide +kernel
  have hwrong : (parse {} "2 @ )" (.available .empty)).1.toOption.map
      (fun out => (out.lexerErrors.length, out.parserErrors.length)) = some (1, 1) := by
    decide +kernel
  cases hout : (parse { cacheThreshold := 0 } "x = 1;\ny; # y" (.available .empty)).1 with
  | error f =>
    rw [hout] at hquiet
    cases hquiet
  | ok out =>
    rw [hout] at hquiet
    obtain ⟨hlexer, hparser⟩ := Prod.mk.inj (Option.some.inj hquiet)
    obtain ⟨children, more, lexerErrors, parserErrors, htree, hsecond, hboth⟩ :=
      parse_join {} 0 defaultThreshold defaultThreshold _ "2 @ )" Uses.none Uses.none Uses.none rfl
        hout hlexer hparser (by decide)
    have hsecond : (parse {} "2 @ )" (.available .empty)).1 = _ := hsecond
    rw [hsecond] at hwrong
    obtain ⟨hlength, hlength'⟩ := Prod.mk.inj (Option.some.inj hwrong)
    exact ⟨out, children, more, lexerErrors, parserErrors, rfl, hlexer, hparser, htree, hsecond,
      hlength, hlength', hboth⟩

end Calc

end Descent
