import Descent.Tree.Json

/-! Trees and outputs as JSON values, and back. Which values stand for a tree is said by
a relation with a rule for every way to write a node: an object that has each field
once and may have others, or, for a lenient reader, a list of the fields. A reader finds
the tree exactly if the value stands for it, and what a tree is written as is one of the
values that stand for it; so reading gives back what was written, and a value that can
be read at all is read as what it is written as then. -/

namespace Descent

namespace ParseTree

mutual

/-- The values that stand for a tree. -/
inductive Spells (lenient : Bool) : Json → ParseTree → Prop where
  | rule {members : List (String × Json)} {name : String} {items : List Json}
      {children : List ParseTree} :
      Json.member? "name" members = some (.string name) →
      Json.member? "children" members = some (.array items) →
      SpellsAll lenient items children →
      Spells lenient (.object [("Rule", .object members)]) (.rule name children)
  | ruleFields {name : String} {items : List Json} {children : List ParseTree} :
      lenient = true → SpellsAll lenient items children →
      Spells lenient (.object [("Rule", .array [.string name, .array items])])
        (.rule name children)
  | terminal {members : List (String × Json)} {symbol text : String} :
      Json.member? "symbol" members = some (.string symbol) →
      Json.member? "text" members = some (.string text) →
      Spells lenient (.object [("Terminal", .object members)]) (.terminal symbol text)
  | terminalFields {symbol text : String} :
      lenient = true →
      Spells lenient (.object [("Terminal", .array [.string symbol, .string text])])
        (.terminal symbol text)

/-- The same, one by one. -/
inductive SpellsAll (lenient : Bool) : List Json → List ParseTree → Prop where
  | nil : SpellsAll lenient [] []
  | cons {v : Json} {vs : List Json} {t : ParseTree} {ts : List ParseTree} :
      Spells lenient v t → SpellsAll lenient vs ts → SpellsAll lenient (v :: vs) (t :: ts)

end

variable {lenient : Bool}

theorem childrenOf?_eq_some {v : Json} {ts : List ParseTree} : childrenOf? lenient v = some ts ↔
    ∃ items, v = .array items ∧ ofJsonAll? lenient items = some ts := by
  cases v <;> simp [childrenOf?]

theorem childrenIn_eq (members : List (String × Json)) : childrenIn lenient members =
    (Json.valuesOf "children" members).map (childrenOf? lenient) := by
  induction members with
  | nil => rw [childrenIn]; rfl
  | cons m members ih =>
    obtain ⟨key, v⟩ := m
    unfold Json.valuesOf at ih ⊢
    rw [childrenIn, ih]
    by_cases hkey : key = "children" <;> simp [hkey]

/-- The children are read from the one member of that name. -/
theorem childrenIn_eq_singleton {members : List (String × Json)} {children : List ParseTree} :
    childrenIn lenient members = [some children] ↔
      ∃ items, Json.member? "children" members = some (.array items) ∧
        ofJsonAll? lenient items = some children := by
  rw [childrenIn_eq, Json.member?]
  constructor
  · intro h
    obtain ⟨v, hvalues, hv⟩ := List.map_eq_singleton_iff.mp h
    obtain ⟨items, rfl, hitems⟩ := childrenOf?_eq_some.mp hv
    exact ⟨items, by rw [hvalues], hitems⟩
  · rintro ⟨items, hmember, hitems⟩
    split at hmember
    · next v hvalues =>
      obtain rfl := Option.some.inj hmember
      rw [hvalues, List.map_singleton, childrenOf?_eq_some.mpr ⟨items, rfl, hitems⟩]
    · cases hmember

mutual

theorem spells_toJson (t : ParseTree) : Spells lenient t.toJson t := by
  cases t with
  | rule name children =>
    rw [toJson]
    exact .rule rfl rfl (spellsAll_toJson children)
  | terminal symbol text =>
    rw [toJson]
    exact .terminal rfl rfl

theorem spellsAll_toJson (ts : List ParseTree) : SpellsAll lenient (toJsonAll ts) ts := by
  cases ts with
  | nil => rw [toJsonAll]; exact .nil
  | cons t ts => rw [toJsonAll]; exact .cons (spells_toJson t) (spellsAll_toJson ts)

end

mutual

theorem Spells.ofJson? {v : Json} {t : ParseTree} (h : Spells lenient v t) :
    ofJson? lenient v = some t := by
  cases h with
  | rule hname hchildren hall =>
    have hin := childrenIn_eq_singleton.mpr ⟨_, hchildren, hall.ofJsonAll?⟩
    simp [ParseTree.ofJson?, ruleOf?, hname, hin]
  | ruleFields hlenient hall =>
    have hitems := hall.ofJsonAll?
    simp only [ParseTree.ofJson?, ruleOf?, ↓reduceIte, childrenOf?, hitems, if_pos hlenient,
      Option.map_some]
  | terminal hsymbol htext => simp [ParseTree.ofJson?, terminalOf?, hsymbol, htext]
  | terminalFields hlenient => simp [ParseTree.ofJson?, terminalOf?, hlenient]

theorem SpellsAll.ofJsonAll? {vs : List Json} {ts : List ParseTree}
    (h : SpellsAll lenient vs ts) : ofJsonAll? lenient vs = some ts := by
  cases h with
  | nil => rw [ParseTree.ofJsonAll?]
  | cons ht hts => simp [ParseTree.ofJsonAll?, ht.ofJson?, hts.ofJsonAll?]

end

theorem ofJson?_cases {v : Json} {t : ParseTree} (h : ofJson? lenient v = some t) :
    (∃ content, v = .object [("Rule", content)] ∧ ruleOf? lenient content = some t) ∨
    ∃ content, v = .object [("Terminal", content)] ∧ terminalOf? lenient content = some t := by
  unfold ofJson? at h
  split at h
  · next tag content =>
    split at h
    · next htag => exact Or.inl ⟨content, by rw [htag], h⟩
    · split at h
      · next htag => exact Or.inr ⟨content, by rw [htag], h⟩
      · cases h
  · cases h

theorem ruleOf?_cases {content : Json} {t : ParseTree} (h : ruleOf? lenient content = some t) :
    ∃ name items children, t = .rule name children ∧ ofJsonAll? lenient items = some children ∧
      ((∃ members, content = .object members ∧
        Json.member? "name" members = some (.string name) ∧
        Json.member? "children" members = some (.array items)) ∨
      lenient = true ∧ content = .array [.string name, .array items]) := by
  unfold ruleOf? at h
  split at h
  · next members =>
    split at h
    · next name children hname hin =>
      obtain ⟨items, hmember, hitems⟩ := childrenIn_eq_singleton.mp hin
      cases h
      exact ⟨name, items, children, rfl, hitems, Or.inl ⟨members, rfl, hname, hmember⟩⟩
    · cases h
  · next name content =>
    split at h
    · next hlenient =>
      obtain ⟨children, hchildren, rfl⟩ := Option.map_eq_some_iff.mp h
      obtain ⟨items, rfl, hitems⟩ := childrenOf?_eq_some.mp hchildren
      exact ⟨name, items, children, rfl, hitems, Or.inr ⟨hlenient, rfl⟩⟩
    · cases h
  · cases h

theorem terminalOf?_cases {content : Json} {t : ParseTree}
    (h : terminalOf? lenient content = some t) :
    ∃ symbol text, t = .terminal symbol text ∧
      ((∃ members, content = .object members ∧
        Json.member? "symbol" members = some (.string symbol) ∧
        Json.member? "text" members = some (.string text)) ∨
      lenient = true ∧ content = .array [.string symbol, .string text]) := by
  unfold terminalOf? at h
  split at h
  · next members =>
    split at h
    · next symbol text hsymbol htext =>
      cases h
      exact ⟨symbol, text, rfl, Or.inl ⟨members, rfl, hsymbol, htext⟩⟩
    · cases h
  · next symbol text =>
    split at h
    · next hlenient =>
      cases h
      exact ⟨symbol, text, rfl, Or.inr ⟨hlenient, rfl⟩⟩
    · cases h
  · cases h

-- The recursion is on the tree that was read: its children were read from parts of the
-- value, whichever way the value spells the node.
mutual

theorem spells_of_ofJson? (t : ParseTree) {v : Json} (h : ofJson? lenient v = some t) :
    Spells lenient v t := by
  rcases ofJson?_cases h with ⟨content, rfl, hrule⟩ | ⟨content, rfl, hterminal⟩
  · obtain ⟨name, items, children, rfl, hitems, hform⟩ := ruleOf?_cases hrule
    have hall := spellsAll_of_ofJsonAll? children hitems
    rcases hform with ⟨members, rfl, hname, hchildren⟩ | ⟨hlenient, rfl⟩
    · exact .rule hname hchildren hall
    · exact .ruleFields hlenient hall
  · obtain ⟨symbol, text, rfl, hform⟩ := terminalOf?_cases hterminal
    rcases hform with ⟨members, rfl, hsymbol, htext⟩ | ⟨hlenient, rfl⟩
    · exact .terminal hsymbol htext
    · exact .terminalFields hlenient

theorem spellsAll_of_ofJsonAll? (ts : List ParseTree) {vs : List Json}
    (h : ofJsonAll? lenient vs = some ts) : SpellsAll lenient vs ts := by
  cases vs with
  | nil =>
    rw [ofJsonAll?, Option.some.injEq] at h
    exact h ▸ .nil
  | cons v vs =>
    rw [ofJsonAll?] at h
    split at h
    · next t ts ht hts =>
      cases h
      exact .cons (spells_of_ofJson? t ht) (spellsAll_of_ofJsonAll? ts hts)
    · cases h

end

/-- A reader finds a tree exactly in the values that stand for it. -/
theorem ofJson?_eq_some_iff {v : Json} {t : ParseTree} :
    ofJson? lenient v = some t ↔ Spells lenient v t :=
  ⟨spells_of_ofJson? t, Spells.ofJson?⟩

theorem ofJson?_toJson (t : ParseTree) : ofJson? lenient t.toJson = some t :=
  (spells_toJson t).ofJson?

end ParseTree

theorem Json.word?_ofNat {n : Nat} (h : n < 18446744073709551616) :
    (Json.ofNat n).word? = some n := by
  have hrange : 0 ≤ (n : Int) ∧ (n : Int) < 18446744073709551616 := by omega
  rw [Json.ofNat, Json.word?, if_pos hrange, Int.toNat_natCast]

theorem Json.word?_lt {v : Json} {n : Nat} (h : v.word? = some n) : n < 18446744073709551616 := by
  unfold Json.word? at h
  split at h
  · split at h
    · next hrange =>
      obtain rfl := Option.some.inj h
      omega
    · cases h
  · cases h

namespace SyntaxError

/-- Line and column are 64-bit words; no other position is read. -/
def Fits (e : SyntaxError) : Prop :=
  e.line < 18446744073709551616 ∧ e.column < 18446744073709551616

theorem ofFields?_words {message line column : Json} {e : SyntaxError}
    (h : ofFields? message line column = some e) :
    line.word? = some e.line ∧ column.word? = some e.column := by
  unfold ofFields? at h
  cases hline : line.word? with
  | none =>
    rw [hline] at h
    split at h <;> cases h
  | some n =>
    cases hcolumn : column.word? with
    | none =>
      rw [hline, hcolumn] at h
      split at h <;> cases h
    | some m =>
      rw [hline, hcolumn] at h
      split at h <;> cases h <;> exact ⟨rfl, rfl⟩

/-- However an error is written, it is read from its three fields. -/
theorem fields_of_ofJson? {v : Json} {e : SyntaxError} (h : ofJson? v = some e) :
    ∃ message line column, ofFields? message line column = some e := by
  unfold ofJson? at h
  split at h
  · split at h
    all_goals
      obtain ⟨message, -, h⟩ := Option.bind_eq_some_iff.mp h
      obtain ⟨line, -, h⟩ := Option.bind_eq_some_iff.mp h
      obtain ⟨column, -, h⟩ := Option.bind_eq_some_iff.mp h
      exact ⟨message, line, column, h⟩
  · exact ⟨_, _, _, h⟩
  · cases h

theorem fits_of_ofJson? {v : Json} {e : SyntaxError} (h : ofJson? v = some e) : e.Fits := by
  obtain ⟨message, line, column, hfields⟩ := fields_of_ofJson? h
  obtain ⟨hline, hcolumn⟩ := ofFields?_words hfields
  exact ⟨Json.word?_lt hline, Json.word?_lt hcolumn⟩

theorem ofJson?_toJson {e : SyntaxError} (h : e.Fits) : ofJson? e.toJson = some e := by
  obtain ⟨message?, line, column⟩ := e
  have hline := Json.word?_ofNat h.1
  have hcolumn := Json.word?_ofNat h.2
  have hfields : ofJson? (toJson ⟨message?, line, column⟩) =
      ofFields? ((message?.map Json.string).getD .null) (.ofNat line) (.ofNat column) := rfl
  rw [hfields]
  cases message? with
  | none => simp [ofFields?, hline, hcolumn]
  | some message => simp [ofFields?, hline, hcolumn]

theorem listOfJson?_toJson {es : List SyntaxError} (h : ∀ e ∈ es, e.Fits) :
    listOfJson? (.array (es.map (·.toJson))) = some es := by
  rw [listOfJson?]
  induction es with
  | nil => rfl
  | cons e es ih =>
    have he := ofJson?_toJson (h e List.mem_cons_self)
    have hes := ih fun e he => h e (List.mem_cons_of_mem _ he)
    simp [List.mapM_cons, he, hes]

theorem fits_of_listOfJson? {v : Json} {es : List SyntaxError} (h : listOfJson? v = some es) :
    ∀ e ∈ es, e.Fits := by
  unfold listOfJson? at h
  split at h
  · next items =>
    induction items generalizing es with
    | nil =>
      cases h
      nofun
    | cons item items ih =>
      rw [List.mapM_cons] at h
      obtain ⟨e, he, h⟩ := Option.bind_eq_some_iff.mp h
      obtain ⟨rest, hrest, h⟩ := Option.bind_eq_some_iff.mp h
      cases h
      intro e' he'
      rcases List.mem_cons.mp he' with rfl | he'
      · exact fits_of_ofJson? he
      · exact ih hrest e' he'
  · cases h

end SyntaxError

namespace ParseOutput

variable {lenient : Bool}

theorem ofFields?_eq_some_iff {tree lexerErrors parserErrors : Json} {o : ParseOutput} :
    ofFields? lenient tree lexerErrors parserErrors = some o ↔
      ParseTree.ofJson? lenient tree = some o.tree ∧
      SyntaxError.listOfJson? lexerErrors = some o.lexerErrors ∧
      SyntaxError.listOfJson? parserErrors = some o.parserErrors := by
  constructor
  · intro h
    obtain ⟨t, ht, h⟩ := Option.bind_eq_some_iff.mp h
    obtain ⟨les, hlexer, h⟩ := Option.bind_eq_some_iff.mp h
    obtain ⟨pes, hparser, h⟩ := Option.bind_eq_some_iff.mp h
    cases h
    exact ⟨ht, hlexer, hparser⟩
  · rintro ⟨ht, hlexer, hparser⟩
    simp [ofFields?, ht, hlexer, hparser]

/-- Lines and columns of all errors are 64-bit words. -/
def Fits (o : ParseOutput) : Prop := ∀ e ∈ o.lexerErrors ++ o.parserErrors, e.Fits

theorem ofJson?_toJson {o : ParseOutput} (h : o.Fits) : ofJson? lenient o.toJson = some o := by
  refine ofFields?_eq_some_iff.mpr ⟨ParseTree.ofJson?_toJson o.tree, ?_, ?_⟩
  · exact SyntaxError.listOfJson?_toJson fun e he => h e (List.mem_append_left _ he)
  · exact SyntaxError.listOfJson?_toJson fun e he => h e (List.mem_append_right _ he)

theorem fits_of_ofJson? {v : Json} {o : ParseOutput} (h : ofJson? lenient v = some o) :
    o.Fits := by
  obtain ⟨tree, lexerErrors, parserErrors, hfields⟩ : ∃ tree lexerErrors parserErrors,
      ofFields? lenient tree lexerErrors parserErrors = some o := by
    unfold ofJson? at h
    split at h
    · obtain ⟨tree, -, h⟩ := Option.bind_eq_some_iff.mp h
      obtain ⟨lexerErrors, -, h⟩ := Option.bind_eq_some_iff.mp h
      obtain ⟨parserErrors, -, h⟩ := Option.bind_eq_some_iff.mp h
      exact ⟨tree, lexerErrors, parserErrors, h⟩
    · exact ⟨_, _, _, h⟩
    · cases h
  obtain ⟨-, hlexer, hparser⟩ := ofFields?_eq_some_iff.mp hfields
  intro e he
  rcases List.mem_append.mp he with he | he
  · exact SyntaxError.fits_of_listOfJson? hlexer e he
  · exact SyntaxError.fits_of_listOfJson? hparser e he

/-- Trees and outputs come back from JSON as they were written, with whatever names and
texts. The values that can be read are those that stand for a tree, in whatever form;
what is read from one of them, by whichever reader, is read again from what it is
written as. -/
theorem json_round_trip (lenient : Bool) :
    (∀ t : ParseTree, ParseTree.ofJson? lenient t.toJson = some t) ∧
    (∀ o : ParseOutput, o.Fits → ofJson? lenient o.toJson = some o) ∧
    (∀ v t, ParseTree.ofJson? lenient v = some t ↔ ParseTree.Spells lenient v t) ∧
    (∀ v t, ParseTree.ofJson? lenient v = some t →
      ∀ other, ParseTree.ofJson? other t.toJson = some t) ∧
    (∀ v o, ofJson? lenient v = some o → ∀ other, ofJson? other o.toJson = some o) := by
  refine ⟨ParseTree.ofJson?_toJson, fun o => ofJson?_toJson,
    fun v t => ParseTree.ofJson?_eq_some_iff, fun v t _ other => ParseTree.ofJson?_toJson t,
    fun v o h other => ?_⟩
  exact ofJson?_toJson (fits_of_ofJson? h)

/-- A text with a line break and a backslash in it is not escaped on the way, the largest
column is read again, and a list of fields is read like an object with a field that
nobody asked for. -/
theorem json_round_trip_raw :
    (ofJson? false (toJson ⟨.rule "" [.terminal "STRING" "a\n\\n", .rule "r" []],
      [⟨none, 0, 18446744073709551615⟩], [⟨some "", 1, 0⟩]⟩) =
      some ⟨.rule "" [.terminal "STRING" "a\n\\n", .rule "r" []],
        [⟨none, 0, 18446744073709551615⟩], [⟨some "", 1, 0⟩]⟩) ∧
    ParseTree.ofJson? true (.object [("Rule", .array [.string "r", .array [.object [("Terminal",
      .object [("text", .string "a\r"), ("line", .null), ("symbol", .string "ID")])]]])]) =
      some (.rule "r" [.terminal "ID" "a\r"]) := by
  obtain ⟨-, houtput, -, -, -⟩ := json_round_trip false
  obtain ⟨-, -, hspells, -, -⟩ := json_round_trip true
  constructor
  · apply houtput
    simp [Fits, SyntaxError.Fits]
  · rw [hspells]
    exact .ruleFields rfl (.cons (.terminal rfl rfl) .nil)

end ParseOutput

end Descent
