import Descent.Command.Run
import Descent.Proofs.Difference
import Descent.Proofs.Output

/-! The listing of a tree determines the tree. It has a line for every node, and the
lines of a text are known from the text if none has a line break in it. What stands
on a line says which node it is, and how far it is indented says below which node: the
nodes below a node are those on the lines behind it up to the first that is indented
no further. So two files whose listings have no difference have the same tree. -/

namespace Descent.ParseTree

/-- A text up to the first place of a character is known from the whole. -/
theorem append_cons_inj {c : Char} {u v u' v' : List Char} (hu : c ∉ u) (hu' : c ∉ u')
    (h : u ++ c :: v = u' ++ c :: v') : u = u' ∧ v = v' := by
  induction u generalizing u' with
  | nil =>
    cases u' with
    | nil => exact ⟨rfl, (List.cons.inj h).2⟩
    | cons d u' =>
      obtain ⟨rfl, -⟩ := List.cons.inj h
      exact absurd List.mem_cons_self hu'
  | cons d u ih =>
    cases u' with
    | nil =>
      obtain ⟨rfl, -⟩ := List.cons.inj h
      exact absurd List.mem_cons_self hu
    | cons e u' =>
      obtain ⟨rfl, htail⟩ := List.cons.inj h
      obtain ⟨rfl, hv⟩ := ih (fun hc => hu (List.mem_cons_of_mem _ hc))
        (fun hc => hu' (List.mem_cons_of_mem _ hc)) htail
      exact ⟨rfl, hv⟩

/-- A line of a listing: its level, and what stands on it. -/
structure Row where
  level : Nat
  heading : List Char
  deriving DecidableEq, Repr

namespace Row

/-- The line as it is written. -/
def text (r : Row) : List Char := List.replicate (2 * r.level) ' ' ++ r.heading ++ ['\n']

/-- Its indentation and its end can be told from what stands on it. -/
structure Clear (r : Row) : Prop where
  start : r.heading.head? ≠ some ' '
  line : '\n' ∉ r.heading

theorem replicate_append_inj {m n : Nat} {h h' : List Char} (hh : h.head? ≠ some ' ')
    (hh' : h'.head? ≠ some ' ')
    (heq : List.replicate m ' ' ++ h = List.replicate n ' ' ++ h') : m = n ∧ h = h' := by
  induction m generalizing n with
  | zero =>
    cases n with
    | zero => exact ⟨rfl, heq⟩
    | succ n =>
      rw [List.replicate_zero, List.nil_append] at heq
      exact absurd (by rw [heq]; rfl) hh
  | succ m ih =>
    cases n with
    | zero =>
      rw [List.replicate_zero, List.nil_append] at heq
      exact absurd (by rw [← heq]; rfl) hh'
    | succ n =>
      rw [List.replicate_succ, List.replicate_succ] at heq
      obtain ⟨rfl, hsame⟩ := ih (List.cons.inj heq).2
      exact ⟨rfl, hsame⟩

theorem text_append_inj {r s : Row} {more more' : List Char} (hr : r.Clear) (hs : s.Clear)
    (h : r.text ++ more = s.text ++ more') : r = s ∧ more = more' := by
  have hline {t : Row} (ht : t.Clear) :
      '\n' ∉ List.replicate (2 * t.level) ' ' ++ t.heading := by
    intro hmem
    rcases List.mem_append.mp hmem with hmem | hmem
    · exact absurd (List.eq_of_mem_replicate hmem) (by decide)
    · exact ht.line hmem
  rw [text, text, List.append_assoc, List.append_assoc _ _ more'] at h
  obtain ⟨hindented, hmore⟩ := append_cons_inj (hline hr) (hline hs) h
  obtain ⟨hlevel, hheading⟩ := replicate_append_inj hr.start hs.start hindented
  refine ⟨?_, hmore⟩
  obtain ⟨level, heading⟩ := r
  obtain ⟨level', heading'⟩ := s
  obtain rfl : level = level' := Nat.eq_of_mul_eq_mul_left (by decide) hlevel
  rw [show heading = heading' from hheading]

/-- The lines of a text are known from the text. -/
theorem flatMap_text_inj {rs ss : List Row} (hrs : ∀ r ∈ rs, r.Clear) (hss : ∀ s ∈ ss, s.Clear)
    (h : rs.flatMap text = ss.flatMap text) : rs = ss := by
  have hne (r : Row) (more : List Char) : r.text ++ more ≠ [] := by simp [text]
  induction rs generalizing ss with
  | nil =>
    cases ss with
    | nil => rfl
    | cons s ss => exact absurd h.symm (hne s _)
  | cons r rs ih =>
    cases ss with
    | nil => exact absurd h (hne r _)
    | cons s ss =>
      obtain ⟨rfl, hmore⟩ := text_append_inj (hrs r List.mem_cons_self) (hss s List.mem_cons_self) h
      rw [ih (fun r hr => hrs r (List.mem_cons_of_mem _ hr))
        (fun s hs => hss s (List.mem_cons_of_mem _ hs)) hmore]

end Row

/-- What stands on the line of a node. -/
def heading : ParseTree → List Char
  | rule name _ => name.toList
  | terminal symbol text => symbol.toList ++ '(' :: ('"' :: text.toList ++ ['"', ')'])

mutual

/-- The lines of a node at a level, and of everything below it. -/
def rowList (level : Nat) : ParseTree → List Row
  | terminal symbol text => [⟨level, heading (.terminal symbol text)⟩]
  | rule name children => ⟨level, heading (.rule name children)⟩ :: rowListAll (level + 1) children

def rowListAll (level : Nat) : List ParseTree → List Row
  | [] => []
  | t :: ts => t.rowList level ++ rowListAll level ts

end

mutual

theorem toList_rows (level : Nat) : ∀ t : ParseTree,
    (t.rows level).toList = (t.rowList level).flatMap Row.text
  | terminal symbol text => by
    simp [rows, rowList, heading, Row.text, indent]
  | rule name children => by
    simp [rows, rowList, heading, Row.text, indent, toList_rowsAll (level + 1) children]

theorem toList_rowsAll (level : Nat) : ∀ ts : List ParseTree,
    (rowsAll level ts).toList = (rowListAll level ts).flatMap Row.text
  | [] => rfl
  | t :: ts => by
    rw [rowsAll, rowListAll, String.toList_append, List.flatMap_append, toList_rows level t,
      toList_rowsAll level ts]

end

theorem rowList_eq (level : Nat) (t : ParseTree) :
    t.rowList level = ⟨level, t.heading⟩ :: rowListAll (level + 1) t.children := by
  cases t with
  | terminal symbol text => rfl
  | rule name children => rfl

/-- A name that cannot be taken for anything else in a listing. -/
def Plain (name : String) : Prop :=
  name.toList.head? ≠ some ' ' ∧ '\n' ∉ name.toList ∧ '(' ∉ name.toList

instance (name : String) : Decidable (Plain name) := inferInstanceAs (Decidable (_ ∧ _ ∧ _))

/-- A node whose line can be read: its name is plain, and its text on one line. -/
def Legible : ParseTree → Prop
  | rule name _ => Plain name
  | terminal symbol text => Plain symbol ∧ '\n' ∉ text.toList

theorem Legible.clear {t : ParseTree} (h : t.Legible) (level : Nat) :
    Row.Clear ⟨level, t.heading⟩ := by
  cases t with
  | rule name children => exact ⟨h.1, h.2.1⟩
  | terminal symbol text =>
    obtain ⟨⟨hstart, hline, -⟩, htext⟩ := h
    constructor
    · simp only [heading]
      cases hsymbol : symbol.toList with
      | nil => simp
      | cons c cs => rwa [hsymbol] at hstart
    · simp [heading, hline, htext]

/-- What stands on its line tells a node from every other with the same children. -/
theorem Legible.eq_of_heading {t t' : ParseTree} (h : t.Legible) (h' : t'.Legible)
    (hheading : t.heading = t'.heading) (hchildren : t.children = t'.children) : t = t' := by
  have hopen (symbol text : String) : '(' ∈ (terminal symbol text).heading :=
    List.mem_append_right _ List.mem_cons_self
  cases t with
  | rule name children =>
    cases t' with
    | rule name' children' =>
      obtain rfl : children = children' := hchildren
      rw [String.toList_inj.mp hheading]
    | terminal symbol' text' =>
      have hmem := hopen symbol' text'
      rw [← hheading] at hmem
      exact absurd hmem h.2.2
  | terminal symbol text =>
    cases t' with
    | rule name' children' =>
      have hmem := hopen symbol text
      rw [hheading] at hmem
      exact absurd hmem h'.2.2
    | terminal symbol' text' =>
      obtain ⟨hsymbol, hrest⟩ := append_cons_inj h.1.2.2 h'.1.2.2 hheading
      have htext := (List.append_inj' (List.cons.inj hrest).2 rfl).1
      rw [String.toList_inj.mp hsymbol, String.toList_inj.mp htext]

mutual

theorem rowList_clear (level : Nat) : ∀ t : ParseTree, (∀ q ∈ t.nodes, q.Legible) →
    ∀ r ∈ t.rowList level, r.Clear
  | terminal symbol text, h, r, hr => by
    rw [List.mem_singleton.mp hr]
    exact (h _ List.mem_cons_self).clear level
  | rule name children, h, r, hr => by
    rcases List.mem_cons.mp hr with rfl | hr
    · exact (h _ List.mem_cons_self).clear level
    · exact rowListAll_clear (level + 1) children
        (fun q hq => h q (List.mem_cons_of_mem _ hq)) r hr

theorem rowListAll_clear (level : Nat) : ∀ ts : List ParseTree, (∀ q ∈ nodesAll ts, q.Legible) →
    ∀ r ∈ rowListAll level ts, r.Clear
  | [], _, r, hr => absurd hr List.not_mem_nil
  | t :: ts, h, r, hr => by
    rcases List.mem_append.mp hr with hr | hr
    · exact rowList_clear level t (fun q hq => h q (List.mem_append_left _ hq)) r hr
    · exact rowListAll_clear level ts (fun q hq => h q (List.mem_append_right _ hq)) r hr

end

/-- Lines that do not begin with one of this level or a further one. -/
def Shallower (level : Nat) (rs : List Row) : Prop := ∀ r ∈ rs.head?, r.level < level

theorem Shallower.append {level : Nat} {rs : List Row} (h : Shallower level rs)
    (ts : List ParseTree) : Shallower (level + 1) (rowListAll level ts ++ rs) := by
  cases ts with
  | nil => exact fun r hr => Nat.lt_succ_of_lt (h r hr)
  | cons t ts =>
    rw [rowListAll, rowList_eq]
    rintro r ⟨⟩
    exact Nat.lt_succ_self level

/-- No tree has its lines where the text goes back to a lower level. -/
theorem Shallower.nil_of_append {level : Nat} {ts : List ParseTree} {rs : List Row}
    (h : Shallower level (rowListAll level ts ++ rs)) : ts = [] := by
  cases ts with
  | nil => rfl
  | cons t ts =>
    rw [rowListAll, rowList_eq] at h
    exact absurd (h _ rfl) (Nat.lt_irrefl level)

/-- Trees whose lines are the same are the same if those below them are. -/
theorem rowList_step {level : Nat} {t t' : ParseTree} {rs rs' : List Row}
    (ht : t.Legible) (ht' : t'.Legible) (h : t.rowList level ++ rs = t'.rowList level ++ rs')
    (hbelow : rowListAll (level + 1) t.children ++ rs = rowListAll (level + 1) t'.children ++ rs' →
      t.children = t'.children ∧ rs = rs') : t = t' ∧ rs = rs' := by
  rw [rowList_eq, rowList_eq level t'] at h
  obtain ⟨hrow, hmore⟩ := List.cons.inj h
  obtain ⟨hchildren, hrest⟩ := hbelow hmore
  exact ⟨ht.eq_of_heading ht' (congrArg Row.heading hrow) hchildren, hrest⟩

mutual

/-- The lines of a tree end where a line is indented no further than its first. -/
theorem rowList_inj {level : Nat} : ∀ (t : ParseTree) {t' : ParseTree} {rs rs' : List Row},
    (∀ q ∈ t.nodes, q.Legible) → (∀ q ∈ t'.nodes, q.Legible) →
    Shallower (level + 1) rs → Shallower (level + 1) rs' →
    t.rowList level ++ rs = t'.rowList level ++ rs' → t = t' ∧ rs = rs'
  | terminal symbol text, t', rs, rs', ht, ht', hrs, hrs', h => by
    refine rowList_step (ht _ (mem_nodes_self _)) (ht' _ (mem_nodes_self _)) h fun hbelow => ?_
    obtain rfl : rs = rowListAll (level + 1) t'.children ++ rs' := hbelow
    rw [hrs.nil_of_append]
    exact ⟨rfl, rfl⟩
  | rule name children, t', rs, rs', ht, ht', hrs, hrs', h =>
    rowList_step (ht _ (mem_nodes_self _)) (ht' _ (mem_nodes_self _)) h fun hbelow =>
      rowListAll_inj children (fun q hq => ht q (mem_nodes_of_children hq))
        (fun q hq => ht' q (mem_nodes_of_children hq)) hrs hrs' hbelow

theorem rowListAll_inj {level : Nat} : ∀ (ts : List ParseTree) {ts' : List ParseTree}
    {rs rs' : List Row}, (∀ q ∈ nodesAll ts, q.Legible) → (∀ q ∈ nodesAll ts', q.Legible) →
    Shallower level rs → Shallower level rs' →
    rowListAll level ts ++ rs = rowListAll level ts' ++ rs' → ts = ts' ∧ rs = rs'
  | [], ts', rs, rs', hts, hts', hrs, hrs', h => by
    obtain rfl : rs = rowListAll level ts' ++ rs' := h
    obtain rfl := hrs.nil_of_append
    exact ⟨rfl, rfl⟩
  | t :: ts, [], rs, rs', hts, hts', hrs, hrs', h => by
    obtain rfl : rowListAll level (t :: ts) ++ rs = rs' := h
    exact nomatch hrs'.nil_of_append
  | t :: ts, t' :: ts', rs, rs', hts, hts', hrs, hrs', h => by
    rw [rowListAll, rowListAll, List.append_assoc, List.append_assoc] at h
    obtain ⟨rfl, hmore⟩ := rowList_inj t (fun q hq => hts q (List.mem_append_left _ hq))
      (fun q hq => hts' q (List.mem_append_left _ hq)) (hrs.append ts) (hrs'.append ts') h
    obtain ⟨rfl, hrest⟩ := rowListAll_inj ts (fun q hq => hts q (List.mem_append_right _ hq))
      (fun q hq => hts' q (List.mem_append_right _ hq)) hrs hrs' hmore
    exact ⟨rfl, hrest⟩

end

/-- The listing of a tree under a label says what is below its root. -/
theorem listing_inj {label : String} {t t' : ParseTree}
    (ht : ∀ q ∈ nodesAll t.children, q.Legible) (ht' : ∀ q ∈ nodesAll t'.children, q.Legible)
    (h : t.listing label = t'.listing label) : t.children = t'.children := by
  have htext : (rowsAll 1 t.children).toList = (rowsAll 1 t'.children).toList := by
    have hlist := congrArg String.toList h
    simp only [listing, String.toList_append] at hlist
    exact List.append_cancel_left hlist
  rw [toList_rowsAll, toList_rowsAll] at htext
  have hrows := Row.flatMap_text_inj (rowListAll_clear 1 _ ht) (rowListAll_clear 1 _ ht') htext
  have hnone : Shallower 1 [] := fun r hr => nomatch hr
  exact (rowListAll_inj _ ht ht' hnone hnone (congrArg (· ++ []) hrows)).1

end Descent.ParseTree

namespace Descent.Calc

open Command RawTree ParseTree

theorem mem_of_symbol? {type : TokenType} {symbol : String}
    (h : vocabulary.symbol? type = some symbol) : symbol ∈ "EOF" :: symbolNames := by
  rw [Vocabulary.symbol?] at h
  split at h
  · cases h
    exact List.mem_cons_self
  · rw [Vocabulary.lookup] at h
    split at h
    · have hmem := List.mem_of_getElem? (Option.join_eq_some_iff.mp h)
      exact List.mem_cons_of_mem _ (List.mem_filterMap.mpr ⟨_, hmem, rfl⟩)
    · cases h

/-- The names of rules and of tokens are plain, and texts are on one line. -/
theorem legible_of_becomes {t : RawTree} {p : ParseTree} (h : Becomes ruleNames vocabulary t p) :
    p.Legible := by
  cases h with
  | @leaf t error symbol hs =>
    have hplain : ∀ name ∈ "EOF" :: symbolNames, Plain name := by decide
    exact ⟨hplain symbol (mem_of_symbol? hs), (Text.escape_on_one_line t.text).1⟩
  | @node index start recovered slots name children hr =>
    have hplain : ∀ name ∈ ruleNames, Plain name := by decide
    exact hplain name (List.mem_of_getElem? hr)

theorem materialize_listing_inj {t t' : RawTree} {p p' : ParseTree} {label : String}
    (h : t.materialize ruleNames vocabulary = .ok p)
    (h' : t'.materialize ruleNames vocabulary = .ok p')
    (hlisting : p.listing label = p'.listing label) : p.children = p'.children := by
  have hlegible {u : RawTree} {q : ParseTree} (hu : u.materialize ruleNames vocabulary = .ok q) :
      ∀ r ∈ nodesAll q.children, r.Legible := by
    intro r hr
    obtain ⟨w, -, hw⟩ := materialize_nodes u hu r (mem_nodes_of_children hr)
    exact legible_of_becomes hw
  exact listing_inj (hlegible h) (hlegible h') hlisting

/-- The tree of a parse has the name of the rule it starts with. -/
theorem parse_tree {settings : Settings} {source : String} {cache : SharedCache}
    {out : ParseOutput} (h : (parse settings source cache).1 = .ok out) :
    (∃ t : RawTree, t.materialize ruleNames vocabulary = .ok out.tree) ∧
      ∃ children, out.tree = .rule (settings.startRule Rule.program.name) children := by
  obtain ⟨c, r, tree, s, hr, hs, hout⟩ := parse_ok h
  have hok := (fresh_idle settings.cacheThreshold settings.maxRuleDepth source never c).ok
  obtain ⟨hm, -, -⟩ := finish_ok hout
  refine ⟨⟨tree, hm⟩, ?_⟩
  rw [← ofName?_eq_some hr]
  exact parseRule_root hok hs hm

/-- Parses with the same settings have equal trees if the listings are equal. -/
theorem parse_listing_eq_iff {settings : Settings} {source source' label : String}
    {cache cache' : SharedCache} {out out' : ParseOutput}
    (h : (parse settings source cache).1 = .ok out)
    (h' : (parse settings source' cache').1 = .ok out') :
    out.tree.listing label = out'.tree.listing label ↔ out.tree = out'.tree := by
  obtain ⟨⟨t, ht⟩, children, htree⟩ := parse_tree h
  obtain ⟨⟨t', ht'⟩, children', htree'⟩ := parse_tree h'
  refine ⟨fun hlisting => ?_, fun heq => by rw [heq]⟩
  have hchildren := materialize_listing_inj ht ht' hlisting
  rw [htree, htree'] at hchildren ⊢
  rw [show children = children' from hchildren]

/-- Where both files have a tree, the trees are compared by their listings. -/
theorem runDiff_returns {files : Files} {s : Settings} {left right source source' : String}
    {out out' : ParseOutput} (hleft : readText files left = .ok source)
    (hright : readText files right = .ok source')
    (hout : (parse s source .fresh).1 = .ok out)
    (hout' : (parse s source' (parse s source .fresh).2).1 = .ok out')
    (label? : Option String) :
    ∃ o, runDiff files s left right label? = .ok o ∧
      (o.status = 0 ↔ out.tree.listing (label?.getD (startRule s)) =
        out'.tree.listing (label?.getD (startRule s))) := by
  rw [← Diff.diff?_eq_none_iff]
  simp only [runDiff, hleft, hright, hout, hout', bind, Except.bind]
  split
  · next hsame => exact ⟨_, rfl, iff_of_true rfl hsame⟩
  · next text hdiff =>
    have hne : Diff.diff? _ _ ≠ none := Option.ne_none_iff_exists'.mpr ⟨text, hdiff⟩
    exact ⟨_, rfl, iff_of_false Nat.one_ne_zero hne⟩

/-- A comparison of two files under the same settings reports no difference exactly if they
have the same tree. -/
theorem runDiff_status_eq_zero_iff {files : Files} {s : Settings}
    {left right source source' : String} {out out' : ParseOutput}
    (hleft : readText files left = .ok source) (hright : readText files right = .ok source')
    (hout : (parse s source .fresh).1 = .ok out)
    (hout' : (parse s source' (parse s source .fresh).2).1 = .ok out')
    (label? : Option String) :
    ∃ o, runDiff files s left right label? = .ok o ∧ (o.status = 0 ↔ out.tree = out'.tree) := by
  obtain ⟨o, ho, hstatus⟩ := runDiff_returns hleft hright hout hout' label?
  exact ⟨o, ho, hstatus.trans (parse_listing_eq_iff hout hout')⟩

/-- The listing determines the tree: rule nodes with the same listing under a label have
the same children, whatever texts stand in the leaves, and are the same if their names
are. So two texts that are parsed under the same settings, on whatever caches, have the
same listing exactly if they have the same tree. -/
theorem listing_determines_tree :
    (∀ (t t' : RawTree) (p p' : ParseTree) (label : String),
      t.materialize ruleNames vocabulary = .ok p → t'.materialize ruleNames vocabulary = .ok p' →
      p.isRule = true → p'.isRule = true → p.listing label = p'.listing label →
      p.children = p'.children ∧ (p.name = p'.name → p = p')) ∧
    ∀ (s : Settings) (source source' label : String) (cache cache' : SharedCache)
      (out out' : ParseOutput),
      (parse s source cache).1 = .ok out → (parse s source' cache').1 = .ok out' →
      (out.tree.listing label = out'.tree.listing label ↔ out.tree = out'.tree) := by
  constructor
  · intro t t' p p' label h h' hp hp' hlisting
    have hchildren := materialize_listing_inj h h' hlisting
    refine ⟨hchildren, fun hname => ?_⟩
    cases p with
    | terminal symbol text => cases hp
    | rule name children =>
      cases p' with
      | terminal symbol' text' => cases hp'
      | rule name' children' =>
        rw [show name = name' from hname, show children = children' from hchildren]
  · intro s source source' label cache cache' out out' hout hout'
    exact parse_listing_eq_iff hout hout'

/-- A string over two lines, the second of which looks like a leaf, and one that has the
break written out, in trees with different slots: one listing, and so one tree. -/
theorem listing_determines_tree_escaped :
    let t : RawTree := .node Rule.primary.index 0 false
      [none, some (.leaf ⟨string, "\"\n    NUMBER(\"", 1, 0, 0, 14, 0⟩ false)]
    let t' : RawTree := .node Rule.primary.index 3 true
      [some (.leaf ⟨string, "\"\\n    NUMBER(\"", 2, 5, 9, 24, 3⟩ true), none]
    ∃ p p' : ParseTree,
      t.materialize ruleNames vocabulary = .ok p ∧ t'.materialize ruleNames vocabulary = .ok p' ∧
      p.listing "tree" = p'.listing "tree" ∧ p = p' := by
  intro t t'
  have h : t.materialize ruleNames vocabulary = .ok _ := rfl
  have h' : t'.materialize ruleNames vocabulary = .ok _ := rfl
  refine ⟨_, _, h, h', by decide, ?_⟩
  exact (listing_determines_tree.1 t t' _ _ "tree" h h' rfl rfl (by decide)).2 rfl

end Descent.Calc
