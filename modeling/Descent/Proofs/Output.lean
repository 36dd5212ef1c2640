import Descent.Proofs.Escape
import Descent.Proofs.Materialization
import Descent.Proofs.Reports
import Descent.Proofs.Stream
import Descent.Proofs.Transparency

/-! What a parse gives back. It fails only when there is no rule of the name it is
to start with. Otherwise there is a tree, whatever the text: its nodes have the
names of rules, its leaves the names of tokens and texts on one line, and the errors
beside it stand on lines of the text. -/

namespace Descent

namespace ParseTree

mutual

/-- A tree and everything below it. -/
def nodes : ParseTree → List ParseTree
  | terminal symbol text => [terminal symbol text]
  | rule name children => rule name children :: nodesAll children

def nodesAll : List ParseTree → List ParseTree
  | [] => []
  | t :: ts => t.nodes ++ nodesAll ts

end

theorem nodes_eq (t : ParseTree) : t.nodes = t :: nodesAll t.children := by
  cases t with
  | terminal symbol text => rfl
  | rule name children => rfl

theorem mem_nodes_self (t : ParseTree) : t ∈ t.nodes := by
  rw [nodes_eq]
  exact List.mem_cons_self

theorem mem_nodes_of_children {t q : ParseTree} (h : q ∈ nodesAll t.children) : q ∈ t.nodes := by
  rw [nodes_eq]
  exact List.mem_cons_of_mem _ h

end ParseTree

namespace RawTree

open ParseTree

/-- The node of a parse tree that a node becomes. -/
inductive Becomes (rules : List String) (v : Vocabulary) : RawTree → ParseTree → Prop where
  | leaf {t : Token} {error : Bool} {symbol : String} :
      v.symbol? t.type = some symbol →
      Becomes rules v (.leaf t error) (.terminal symbol (Text.escape t.text))
  | node {index start : Nat} {recovered : Bool} {slots : List (Option RawTree)} {name : String}
      {children : List ParseTree} :
      rules[index]? = some name →
      Becomes rules v (.node index start recovered slots) (.rule name children)

variable {rules : List String} {v : Vocabulary}

mutual

theorem Renamed.nodes {t : RawTree} {p : ParseTree} (h : Renamed rules v t p) :
    ∀ q ∈ p.nodes, ∃ u ∈ t.subtrees, Becomes rules v u q := by
  intro q hq
  cases h with
  | leaf hs =>
    rw [ParseTree.nodes, List.mem_singleton] at hq
    exact ⟨_, mem_subtrees_self _, hq ▸ .leaf hs⟩
  | node hr hc =>
    rw [ParseTree.nodes, List.mem_cons] at hq
    rcases hq with rfl | hq
    · exact ⟨_, mem_subtrees_self _, .node hr⟩
    · obtain ⟨u, hu, hb⟩ := hc.nodes q hq
      exact ⟨u, List.mem_cons_of_mem _ hu, hb⟩

theorem RenamedAll.nodes {slots : List (Option RawTree)} {ps : List ParseTree}
    (h : RenamedAll rules v slots ps) :
    ∀ q ∈ nodesAll ps, ∃ u ∈ slotSubtrees slots, Becomes rules v u q := by
  intro q hq
  cases h with
  | nil => cases hq
  | empty hs => exact hs.nodes q hq
  | filled ht hs =>
    rcases List.mem_append.mp hq with hq | hq
    · obtain ⟨u, hu, hb⟩ := ht.nodes q hq
      exact ⟨u, List.mem_append_left _ hu, hb⟩
    · obtain ⟨u, hu, hb⟩ := hs.nodes q hq
      exact ⟨u, List.mem_append_right _ hu, hb⟩

end

/-- Every node of a parse tree comes from one of the tree it was made of. -/
theorem materialize_nodes (t : RawTree) {p : ParseTree} (h : t.materialize rules v = .ok p) :
    ∀ q ∈ p.nodes, ∃ u ∈ t.subtrees, Becomes rules v u q :=
  (materialize_eq_ok_iff.mp h).nodes

end RawTree

namespace Calc

open Descent.Parser RawTree

/-- The names of the fourteen types of tokens. -/
def symbolNames : List String := vocabulary.symbols.reduceOption

/-- A node with the name of a rule, or a leaf with the name of a token, but not of
the one that ends the input, and a text without a line break. -/
def Presentable : ParseTree → Prop
  | .rule name _ => name ∈ ruleNames
  | .terminal symbol text =>
    symbol ∈ symbolNames ∧ symbol ≠ "EOF" ∧ '\n' ∉ text.toList ∧ '\r' ∉ text.toList

theorem presentable_of_known {t : RawTree} {p : ParseTree} (h : Known grammar t)
    (hb : Becomes ruleNames vocabulary t p) : Presentable p := by
  cases hb with
  | @leaf t error symbol hs =>
    obtain ⟨x, hx, hx15⟩ : ∃ x : Nat, t.type = x ∧ x < 15 := by
      obtain ⟨h1, h14⟩ : 1 ≤ t.type ∧ t.type ≤ 14 := h
      obtain ⟨x, hx⟩ := Int.eq_ofNat_of_zero_le (Int.le_trans (by decide) h1)
      rw [hx] at h14
      exact ⟨x, hx, Nat.lt_succ_of_le (Int.ofNat_le.mp h14)⟩
    have hall : ∀ i < 15, ∀ symbol ∈ vocabulary.symbol? (i : Nat),
        symbol ∈ symbolNames ∧ symbol ≠ "EOF" := by decide
    obtain ⟨hsymbol, hne⟩ := hall x hx15 symbol (hx ▸ hs)
    exact ⟨hsymbol, hne, Text.escape_on_one_line t.text⟩
  | node hr => exact List.mem_of_getElem? hr

theorem ofName?_eq_none_iff (name : String) : Rule.ofName? name = none ↔ name ∉ ruleNames := by
  simp [Rule.ofName?, ruleNames, List.find?_eq_none]

theorem ofName?_eq_some {name : String} {r : Rule} (h : Rule.ofName? name = some r) :
    r.name = name := by
  simpa using List.find?_some h

theorem ruleNames_index (r : Rule) : ruleNames[r.index]? = some r.name := by
  cases r <;> rfl

theorem finish_ok {tree : RawTree} {s : ParserState} {out : ParseOutput}
    (h : finish tree s = .ok out) :
    tree.materialize ruleNames vocabulary = .ok out.tree ∧
      out.lexerErrors = s.buffer.source.errors ∧ out.parserErrors = s.errors := by
  unfold finish at h
  split at h
  · cases h
  · split at h
    · cases h
    · next hm =>
      cases h
      exact ⟨hm, rfl, rfl⟩

/-- The root of a tree that a rule returns has the name of the rule. -/
theorem parseRule_root {s t : ParserState} {r : Rule} {tree : RawTree} {p : ParseTree} (h : s.Ok)
    (hr : parseRule r s = (.ok tree, t))
    (hm : tree.materialize ruleNames vocabulary = .ok p) :
    ∃ children, p = .rule r.name children := by
  obtain ⟨start, recovered, slots, rfl⟩ :
      ∃ start recovered slots, tree = .node r.index start recovered slots := by
    cases parseRule_invoked h hr <;> exact ⟨_, _, _, rfl⟩
  rw [materialize, ruleNames_index] at hm
  dsimp only at hm
  split at hm
  · cases hm
  · cases hm
    exact ⟨_, rfl⟩

variable {source : String} {threshold depth : Nat} {c : PredictionCache} {s : ParserState}
  {r : Rule} {tree : RawTree}

/-- What the lexer reports in a parse is reported of the text. -/
theorem parseRule_complains (hr : parseRule r (fresh threshold depth source never c) =
    (.ok tree, s)) {e : SyntaxError} (he : e ∈ s.buffer.source.errors) :
    e ∈ complaints [] source.toList := by
  have hok := (fresh_idle threshold depth source never c).ok
  have hwhole : s.buffer.whole = (Buffer.ofSource (Lexer.ofString source never)).whole :=
    ((parseRule_run hok hr).kept hok).whole
  have hmem := (Buffer.errors_whole s.buffer).subset he
  rwa [hwhole, Buffer.ofString_errors] at hmem

theorem parseRule_lexer_line (hr : parseRule r (fresh threshold depth source never c) =
    (.ok tree, s)) {e : SyntaxError} (he : e ∈ s.buffer.source.errors) : 1 ≤ e.line :=
  complaints_line (parseRule_complains hr he)

/-- What the parser reports is reported at a token of the text. -/
theorem parseRule_reports (hr : parseRule r (fresh threshold depth source never c) =
    (.ok tree, s)) {e : SyntaxError} (he : e ∈ s.errors) :
    ∃ t ∈ Buffer.numbered 0 (stream [] source.toList), t.position = e.position := by
  have hok := (fresh_idle threshold depth source never c).ok
  have hrun := parseRule_run hok hr
  obtain ⟨ts, hts, hpos⟩ := hrun.placed hok ⟨[], List.nil_sublist _, rfl⟩
  rw [State.tokens_of_whole (hrun.kept hok).whole] at hts
  have hmem : e.position ∈ ts.map Token.position := hpos ▸ List.mem_map_of_mem he
  obtain ⟨t, ht, heq⟩ := List.mem_map.mp hmem
  refine ⟨t, ?_, heq⟩
  rw [← Buffer.ofString_tokens]
  exact (hts.trans (List.take_sublist _ _)).subset ht

theorem parseRule_parser_line (hr : parseRule r (fresh threshold depth source never c) =
    (.ok tree, s)) {e : SyntaxError} (he : e ∈ s.errors) : 1 ≤ e.line := by
  obtain ⟨t, ht, heq⟩ := parseRule_reports hr he
  have hline : t.line = e.line := congrArg Prod.fst heq
  rw [← hline]
  obtain ⟨u, hu, i, rfl⟩ := Buffer.mem_numbered ht
  have hu : 1 ≤ u.line := stream_line hu
  exact hu

/-- A parse that returns is that of a rule over the text. -/
theorem parse_ok {settings : Settings} {cache : SharedCache} {out : ParseOutput}
    (h : (parse settings source cache).1 = .ok out) :
    ∃ c r tree s, Rule.ofName? (settings.startRule Rule.program.name) = some r ∧
      parseRule r (fresh settings.cacheThreshold settings.maxRuleDepth source never c) =
        (.ok tree, s) ∧ finish tree s = .ok out := by
  cases cache with
  | unavailable => cases h
  | available c =>
    rw [parse, parseFrom] at h
    split at h
    · cases h
    · next r hr =>
      split at h
      · cases h
      · next tree s hs => exact ⟨c, r, tree, s, hr, hs, h⟩

/-- Errors in a text never make a parse fail, and whatever the text is, the output
is in order. -/
theorem parse_well_formed (settings : Settings) (source : String) {c : PredictionCache}
    (hc : Coherent c) :
    ((∃ f, (parse settings source (.available c)).1 = .error f) ↔
      settings.startRule Rule.program.name ∉ ruleNames) ∧
    (∀ f, (parse settings source (.available c)).1 = .error f →
      f = .unknownEntryPoint (settings.startRule Rule.program.name)) ∧
    (∀ out, (parse settings source (.available c)).1 = .ok out →
      (∃ children, out.tree = .rule (settings.startRule Rule.program.name) children) ∧
      (∀ p ∈ out.tree.nodes, Presentable p) ∧
      ∀ e ∈ out.lexerErrors ++ out.parserErrors, 1 ≤ e.line) := by
  cases hr : Rule.ofName? (settings.startRule Rule.program.name) with
  | none =>
    have hparse : (parse settings source (.available c)).1 =
        .error (.unknownEntryPoint (settings.startRule Rule.program.name)) := by
      simp only [parse, parseFrom, hr]
    rw [hparse]
    refine ⟨⟨fun _ => (ofName?_eq_none_iff _).mp hr, fun _ => ⟨_, rfl⟩⟩, ?_, ?_⟩
    · intro f hf
      cases hf
      rfl
    · intro out hout
      cases hout
  | some r =>
    obtain ⟨tree, s, out, hs, hout, -, hparse⟩ := parse_eq settings source hc.faithful hr
    have hidle := fresh_idle settings.cacheThreshold settings.maxRuleDepth source never c
    have hknown := parseRule_known hidle hs
    obtain ⟨hm, hlexer, hparser⟩ := finish_ok hout
    have hname : settings.startRule Rule.program.name ∈ ruleNames := by
      rw [← ofName?_eq_some hr]
      exact List.mem_of_getElem? (ruleNames_index r)
    rw [hparse]
    refine ⟨⟨?_, fun hnot => absurd hname hnot⟩, ?_, ?_⟩
    · rintro ⟨f, hf⟩
      cases hf
    · intro f hf
      cases hf
    · intro out' hout'
      cases hout'
      refine ⟨?_, fun p hp => ?_, fun e he => ?_⟩
      · rw [← ofName?_eq_some hr]
        exact parseRule_root hidle.ok hs hm
      · obtain ⟨u, hu, hb⟩ := materialize_nodes tree hm p hp
        exact presentable_of_known (hknown u hu) hb
      · rcases List.mem_append.mp he with he | he
        · exact parseRule_lexer_line hs (hlexer ▸ he)
        · exact parseRule_parser_line hs (hparser ▸ he)

/-- A text with a string over two lines, a character that fits nowhere and a stray
parenthesis has a tree, and a rule that does not exist has none. -/
theorem parse_well_formed_stray :
    (∃ out, (parse {} "x = \"a\nb\" @ )" (.available .empty)).1 = .ok out ∧
      (∃ children, out.tree = .rule "program" children) ∧
      (∀ p ∈ out.tree.nodes, Presentable p) ∧
      ∀ e ∈ out.lexerErrors ++ out.parserErrors, 1 ≤ e.line) ∧
    (parse { startRule? := some "loop" } "1" (.available .empty)).1 =
      .error (.unknownEntryPoint "loop") := by
  obtain ⟨hfails, -, hout⟩ := parse_well_formed {} "x = \"a\nb\" @ )" (c := .empty) Uses.none
  obtain ⟨hfails', hentry, -⟩ := parse_well_formed { startRule? := some "loop" } "1"
    (c := .empty) Uses.none
  constructor
  · cases hparse : (parse {} "x = \"a\nb\" @ )" (.available .empty)).1 with
    | error f => exact absurd (hfails.mp ⟨f, hparse⟩) (by decide)
    | ok out => exact ⟨out, rfl, hout out hparse⟩
  · obtain ⟨f, hf⟩ := hfails'.mpr (by decide)
    rw [hf, hentry f hf]
    rfl

end Calc

end Descent
