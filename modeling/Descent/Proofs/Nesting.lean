import Descent.Proofs.Lockstep
import Descent.Proofs.Shapes
import Descent.Proofs.Termination

/-! The nesting limit. It bounds how deep the nodes of a tree lie: only the nodes of
rules that were refused lie below it, by one, and these hold skipped tokens alone. And
where no node comes to lie below it, it is not there: a run under a higher limit goes
through the same states, which is shown by running the two side by side for as long as
the first has built nothing too high. -/

namespace Descent.RawTree

mutual

/-- The nodes of a tree and how deep they lie, the root at depth `k`. -/
def nodesAt (k : Nat) : RawTree → List (Nat × RawTree)
  | leaf .. => []
  | node rule start recovered slots =>
    (k, node rule start recovered slots) :: slotNodesAt (k + 1) slots

def slotNodesAt (k : Nat) : List (Option RawTree) → List (Nat × RawTree)
  | [] => []
  | none :: slots => slotNodesAt k slots
  | some t :: slots => t.nodesAt k ++ slotNodesAt k slots

end

/-- The node of a rule that was abandoned with nothing but skipped tokens in it. -/
def Barren : RawTree → Prop
  | leaf .. => False
  | node _ _ recovered slots => recovered = true ∧ ∀ slot ∈ slots, ∃ t, slot = some (.leaf t true)

/-- Nodes that lie at most one deeper than `limit`, and those that do are barren. -/
def Within (limit : Nat) (nodes : List (Nat × RawTree)) : Prop :=
  ∀ p ∈ nodes, p.1 ≤ limit + 1 ∧ (p.1 = limit + 1 → p.2.Barren)

@[simp]
theorem slotNodesAt_append (k : Nat) (slots more : List (Option RawTree)) :
    slotNodesAt k (slots ++ more) = slotNodesAt k slots ++ slotNodesAt k more := by
  induction slots with
  | nil => rfl
  | cons slot slots ih =>
    cases slot with
    | none => exact ih
    | some t => simp only [List.cons_append, slotNodesAt, ih, List.append_assoc]

@[simp]
theorem slotNodesAt_singleton (k : Nat) (t : RawTree) : slotNodesAt k [some t] = t.nodesAt k := by
  simp [slotNodesAt]

@[simp]
theorem slotNodesAt_leaves (k : Nat) (ts : List Token) (error : Bool) :
    slotNodesAt k (ts.map fun t => some (.leaf t error)) = [] := by
  induction ts with
  | nil => rfl
  | cons t ts ih => simp [slotNodesAt, nodesAt, ih]

mutual

/-- A tree is no higher than its nodes lie deep. -/
theorem height_le {m : Nat} : ∀ (k : Nat) (t : RawTree), k ≤ m →
    (∀ p ∈ t.nodesAt k, p.1 < m) → k + t.height ≤ m
  | k, .leaf .., hk, _ => hk
  | k, .node rule start recovered slots, _, h => by
    rw [nodesAt, List.forall_mem_cons] at h
    have hslots := slotHeight_le (k + 1) slots h.1 h.2
    rw [height]
    omega

theorem slotHeight_le {m : Nat} : ∀ (k : Nat) (slots : List (Option RawTree)), k ≤ m →
    (∀ p ∈ slotNodesAt k slots, p.1 < m) → k + slotHeight slots ≤ m
  | k, [], hk, _ => hk
  | k, none :: slots, hk, h => slotHeight_le k slots hk h
  | k, some t :: slots, hk, h => by
    rw [slotNodesAt, List.forall_mem_append] at h
    have htree := height_le k t hk h.1
    have hslots := slotHeight_le k slots hk h.2
    rw [slotHeight]
    omega

end

theorem Within.nil {limit : Nat} : Within limit [] := List.forall_mem_nil _

theorem Within.leaf {limit k : Nat} (t : Token) (error : Bool) :
    Within limit (slotNodesAt k [some (.leaf t error)]) := .nil

theorem Within.append {limit : Nat} {nodes more : List (Nat × RawTree)} (h : Within limit nodes)
    (h' : Within limit more) : Within limit (nodes ++ more) :=
  List.forall_mem_append.mpr ⟨h, h'⟩

/-- A node above the limit only has to have children that keep it. -/
theorem Within.node {limit k rule start : Nat} {recovered : Bool} {slots : List (Option RawTree)}
    (hk : k ≤ limit) (h : Within limit (slotNodesAt (k + 1) slots)) :
    Within limit (RawTree.nodesAt k (.node rule start recovered slots)) := by
  rw [RawTree.nodesAt]
  refine List.forall_mem_cons.mpr ⟨⟨Nat.le_succ_of_le hk, fun he => ?_⟩, h⟩
  have he : k = limit + 1 := he
  omega

/-- A barren node may lie below it. -/
theorem Within.barren {limit k rule start : Nat} (hk : k ≤ limit + 1) (ts : List Token) :
    Within limit
      (RawTree.nodesAt k (.node rule start true (ts.map fun t => some (.leaf t true)))) := by
  rw [RawTree.nodesAt, slotNodesAt_leaves]
  refine List.forall_mem_cons.mpr ⟨⟨hk, fun _ => ⟨rfl, fun slot hs => ?_⟩⟩, by simp⟩
  obtain ⟨t, -, rfl⟩ := List.mem_map.mp hs
  exact ⟨t, rfl⟩

end Descent.RawTree

namespace Descent.Parser

open RawTree

variable {σ : Type} [TokenSource σ] {G : Grammar}

/-- Giving up adds no nodes. -/
theorem State.slotNodesAt_giveUp {s : State σ} (h : s.buffer.WF) (k : Nat) (message : String) :
    slotNodesAt k (s.giveUp message).slots = slotNodesAt k s.slots := by
  obtain ⟨n, hn, -⟩ := State.giveUp_skipped h message
  rw [hn.slots, slotNodesAt_append, slotNodesAt_leaves, List.append_nil]

theorem Kept.depth {s t : State σ} (h : Kept s t) : t.depth = s.depth :=
  congrArg List.length h.follow

/-- Whatever a rule body does, the nodes that it attaches keep the limit. -/
theorem Run.within {s t : State σ} {w : List Symbol} (h : Run G s w t) (hs : s.Ok)
    (hd : s.depth ≤ s.maxDepth) (hslots : Within s.maxDepth (slotNodesAt (s.depth + 1) s.slots)) :
    Within s.maxDepth (slotNodesAt (s.depth + 1) t.slots) := by
  induction h with
  | refl => exact hslots
  | look k _ ih => exact ih hs hd hslots
  | take _ _ ih =>
    rw [State.take_eq, slotNodesAt_append]
    exact (ih hs hd hslots).append (.leaf _ _)
  | drop message _ _ ih =>
    rw [State.drop_eq, slotNodesAt_append]
    exact (ih hs hd hslots).append (.leaf _ _)
  | conjure x text message _ _ _ ih =>
    rw [State.conjure_eq, slotNodesAt_append]
    exact (ih hs hd hslots).append (.leaf _ _)
  | decide _ _ _ ih => exact ih hs hd hslots
  | @finish s t u _ _ r follow hrun _ hlt _ _ ih ihb =>
    have hk := hrun.kept hs
    have hin : Within t.maxDepth (slotNodesAt (t.depth + 1 + 1) u.slots) :=
      ihb (hk.ok.openRule follow) hlt .nil
    rw [hk.depth, hk.maxDepth] at hlt hin
    rw [State.attach, State.closeRule, slotNodesAt_append, slotNodesAt_singleton]
    exact (ih hs hd hslots).append (.node hlt hin)
  | @abandon s t u _ _ r follow message hrun _ hlt hbody ih ihb =>
    have hk := hrun.kept hs
    have hu := (hbody.kept (hk.ok.openRule follow)).ok.buffer
    rw [State.attach, State.closeRule, slotNodesAt_append, slotNodesAt_singleton]
    refine (ih hs hd hslots).append ?_
    rcases hlt with hlt | rfl
    · have hin : Within t.maxDepth (slotNodesAt (t.depth + 1 + 1) u.slots) :=
        ihb (hk.ok.openRule follow) hlt .nil
      rw [hk.depth, hk.maxDepth] at hlt hin
      rw [← State.slotNodesAt_giveUp hu] at hin
      exact .node hlt hin
    · -- The rule was refused, so it has nothing but the tokens that it skipped.
      obtain ⟨n, hn, -⟩ := State.giveUp_skipped hu message
      rw [hn.slots]
      exact .barren (Nat.succ_le_succ hd) _

/-- A run under a limit beside one under the limit `d`, as long as it has built nothing
that is too high for that. -/
def limitedTo (d : Nat) : Pairing σ where
  source := id
  limit := fun _ => d
  Fits := fun _ => True
  Level := fun n depth limit => depth + n = d ∧ d ≤ limit
  Lost := fun n s => n < slotHeight s.slots

theorem limitedTo_lawful (d : Nat) : (limitedTo d : Pairing σ).Lawful where
  bound := fun _ => rfl
  reach := fun _ _ _ _ => Or.inl ⟨trivial, rfl⟩
  level := by
    intro n depth limit h
    have h : depth + (n + 1) = d ∧ d ≤ limit := h
    refine ⟨?_, Or.inl ⟨?_, ?_⟩⟩
    · show depth + 1 + n = d ∧ d ≤ limit
      omega
    · omega
    · show depth < d
      omega
  mono := by
    intro n s t h hlost
    have hlost : n < slotHeight s.slots := hlost
    obtain ⟨more, hmore⟩ := h.slots
    show n < slotHeight t.slots
    rw [← hmore, slotHeight_append]
    omega
  close := by
    intro n s t rule start recovered hlost
    have hlost : n < slotHeight t.slots := hlost
    show n + 1 < slotHeight (s.slots ++ [some (.node rule start recovered t.slots)])
    rw [slotHeight_append, slotHeight_singleton, height]
    omega

/-- A rule that comes back adds a node. -/
theorem rule_height {index : Nat} {follow : TokenSet} {body : Parser σ Unit} {s t : State σ}
    {tree : RawTree} (h : rule index follow body s = (.ok tree, t)) : 0 < tree.height := by
  rcases rule_cases index follow body s with
    ⟨u, -, he⟩ | ⟨u, -, place, message, he⟩ | ⟨e, u, -, he⟩
  · cases he.symm.trans h
    exact Nat.succ_pos _
  · cases he.symm.trans h
    exact Nat.succ_pos _
  · cases he.symm.trans h

end Descent.Parser

namespace Descent.Calc

open Descent.Parser RawTree

section Levels

variable {σ : Type} [TokenSource σ]

theorem invokeWithin_height {levels : Nat} {r : Rule} {follow : TokenSet} {s t : State σ}
    {tree : RawTree} (h : invokeWithin levels r follow s = (.ok tree, t)) : 0 < tree.height := by
  cases levels with
  | zero => exact rule_height h
  | succ levels => exact rule_height h

/-- With `n` more levels under the lower limit and `m + n` under the higher one, a rule
does the same under both, or it builds a tree that is higher than `n`. -/
theorem invokeWithin_limited (d n m : Nat) (r : Rule) (follow : TokenSet) :
    Keeps (limitedTo d : Pairing σ) n (attach (invokeWithin (m + n) r follow))
      (attach (invokeWithin n r follow)) := by
  have h : (limitedTo d : Pairing σ).Lawful := limitedTo_lawful d
  induction n generalizing r follow with
  | zero =>
    refine ⟨(invokeWithin_keeps h m r follow).balanced, fun s _ _ => ?_⟩
    match hrun : invokeWithin (m + 0) r follow s with
    | (.ok tree, t) =>
      have hattach : attach (invokeWithin (m + 0) r follow) s = (.ok (), t.attach tree) := by
        simp only [attach, hrun]
      have hheight := invokeWithin_height hrun
      rw [hattach]
      refine .lost ?_
      show 0 < slotHeight (t.slots ++ [some tree])
      rw [slotHeight_append, slotHeight_singleton]
      omega
    | (.error f, t) =>
      have hattach : attach (invokeWithin (m + 0) r follow) s = (.error (.failure f), t) := by
        simp only [attach, hrun]
      rw [hattach]
      exact .failed
  | succ n ih => exact .rule h (body_keeps h ih r) _ _

end Levels

theorem fresh_limited {d d' : Nat} (hd : 1 ≤ d) (threshold : Nat) (source : String)
    (stalls : Nat → Bool) (c : PredictionCache) :
    (limitedTo d).view (fresh threshold d' source stalls c) =
      fresh threshold d source stalls c := by
  have hmax : max d 1 = d := Nat.max_eq_left hd
  simp only [fresh, State.setMaxDepth, hmax]
  rfl

/-- A rule leaves nothing in the slots of a parser that is called. -/
theorem parseRule_slots {s t : ParserState} {r : Rule} {tree : RawTree} (h : s.Ok)
    (ht : parseRule r s = (.ok tree, t)) : t.slots = s.slots := by
  cases parseRule_invoked h ht <;> rfl

/-- Under the limit `d` no node lies deeper than one below it, and those that do are
barren. -/
theorem parseRule_within {d : Nat} (hd : 1 ≤ d) (threshold : Nat) (source : String)
    (stalls : Nat → Bool) (c : PredictionCache) {r : Rule} {tree : RawTree} {t : ParserState}
    (ht : parseRule r (fresh threshold d source stalls c) = (.ok tree, t)) :
    Within d (tree.nodesAt 1) := by
  have hok := (fresh_idle threshold d source stalls c).ok
  have hmax : (fresh threshold d source stalls c).maxDepth = d := Nat.max_eq_left hd
  have hwithin := (parseRule_run hok ht).within hok (Nat.zero_le _) .nil
  rw [hmax, State.attach, slotNodesAt_append, slotNodesAt_singleton] at hwithin
  exact (List.forall_mem_append.mp hwithin).2

/-- If no node of the tree that is built under the limit `d'` lies deeper than `d`, the
run under `d` goes through the same states. -/
theorem parseRule_limited {d d' : Nat} (hd : 1 ≤ d) (hle : d ≤ d') (threshold : Nat)
    (source : String) (stalls : Nat → Bool) (c : PredictionCache) {r : Rule} {tree : RawTree}
    {t : ParserState} (ht : parseRule r (fresh threshold d' source stalls c) = (.ok tree, t))
    (hdeep : ∀ p ∈ tree.nodesAt 1, p.1 ≤ d) :
    parseRule r (fresh threshold d source stalls c) = (.ok tree, { t with maxDepth := d }) := by
  have hslots : t.slots = [] := parseRule_slots (fresh_idle threshold d' source stalls c).ok ht
  have hmax : (fresh threshold d source stalls c).maxDepth = d := Nat.max_eq_left hd
  have hmax' : (fresh threshold d' source stalls c).maxDepth = d' :=
    Nat.max_eq_left (Nat.le_trans hd hle)
  have hlevel : (limitedTo d : Pairing Lexer).Level d
      (fresh threshold d' source stalls c).depth (fresh threshold d' source stalls c).maxDepth :=
    ⟨Nat.zero_add d, hmax'.symm ▸ hle⟩
  have hlevels : (fresh threshold d' source stalls c).maxDepth -
      (fresh threshold d' source stalls c).depth = (d' - d) + d := by
    show (fresh threshold d' source stalls c).maxDepth - 0 = (d' - d) + d
    omega
  unfold parseRule at ht ⊢
  rw [hlevels] at ht
  rcases (invokeWithin_limited d d (d' - d) r .empty).invocation trivial hlevel ht with
    ⟨-, hrun⟩ | hlost
  · rw [fresh_limited hd] at hrun
    rw [hmax]
    exact hrun
  · have hlost : d < slotHeight (t.slots ++ [some tree]) := hlost
    have hheight := height_le (m := d + 1) 1 tree (by omega) fun p hp =>
      Nat.lt_succ_of_le (hdeep p hp)
    rw [hslots, List.nil_append, slotHeight_singleton] at hlost
    omega

/-- The nesting limit bounds the tree and is otherwise not to be seen. Every rule returns
a tree under every limit; under `d` no node lies deeper than `d + 1`, with the root at
depth 1, and a node that deep is marked as recovered and has error leaves only. If no
node of the tree under a higher limit `d'` lies deeper than `d`, then both limits give the
same tree and, but for the limit itself, the same state: cursor, errors, recovery, cache. -/
theorem parseRule_nesting (threshold : Nat) (source : String) (stalls : Nat → Bool)
    {c : PredictionCache} (hc : Coherent c) (r : Rule) {d d' : Nat} (hd : 1 ≤ d) (hle : d ≤ d') :
    ∃ tree t tree' t',
      parseRule r (fresh threshold d source stalls c) = (.ok tree, t) ∧
      parseRule r (fresh threshold d' source stalls c) = (.ok tree', t') ∧
      (∀ p ∈ tree.nodesAt 1, p.1 ≤ d + 1 ∧ (p.1 = d + 1 → p.2.Barren)) ∧
      ((∀ p ∈ tree'.nodesAt 1, p.1 ≤ d) → tree = tree' ∧ t = { t' with maxDepth := d }) := by
  obtain ⟨tree, t, ht⟩ := parseRule_returns (fresh_idle threshold d source stalls c)
    (fresh_trusts hc.faithful threshold d source stalls) r
  obtain ⟨tree', t', ht'⟩ := parseRule_returns (fresh_idle threshold d' source stalls c)
    (fresh_trusts hc.faithful threshold d' source stalls) r
  refine ⟨tree, t, tree', t', ht, ht', parseRule_within hd threshold source stalls c ht,
    fun hdeep => ?_⟩
  have hsame := parseRule_limited hd hle threshold source stalls c ht' hdeep
  rw [ht, Prod.mk.injEq, Except.ok.injEq] at hsame
  exact hsame

/-- How deep the nodes of the tree lie that a term is parsed to. -/
def termDepths (d : Nat) (source : String) : Option (List Nat) :=
  (parseRule .term (fresh 10 d source never .empty)).1.toOption.map fun tree =>
    (tree.nodesAt 1).map Prod.fst

/-- A product whose second factor lacks its closing parenthesis: with three levels the
expression in it is refused, with seven or more it is not. -/
theorem parseRule_nesting_product :
    (∃ tree t, parseRule .term (fresh 10 3 "2*(3" never .empty) = (.ok tree, t) ∧
      ∃ p ∈ tree.nodesAt 1, p.1 = 4 ∧ p.2.Barren) ∧
    ∃ tree t, parseRule .term (fresh 10 400 "2*(3" never .empty) = (.ok tree, t) ∧
      (∀ p ∈ tree.nodesAt 1, p.1 ≤ 7) ∧
      parseRule .term (fresh 10 7 "2*(3" never .empty) = (.ok tree, { t with maxDepth := 7 }) := by
  have hlow : termDepths 3 "2*(3" = some [1, 2, 3, 2, 3, 4] := by decide +kernel
  have hhigh : termDepths 400 "2*(3" = some [1, 2, 3, 2, 3, 4, 5, 6, 7] := by decide +kernel
  obtain ⟨tree, t, -, -, ht, -, hwithin, -⟩ :=
    parseRule_nesting 10 "2*(3" never .none .term (show 1 ≤ 3 by decide) (le_refl 3)
  obtain ⟨low, u, tree', t', hu, ht', -, hsame⟩ :=
    parseRule_nesting 10 "2*(3" never .none .term (show 1 ≤ 7 by decide) (show 7 ≤ 400 by decide)
  simp only [termDepths, ht, Except.toOption, Option.map_some, Option.some.injEq] at hlow
  simp only [termDepths, ht', Except.toOption, Option.map_some, Option.some.injEq] at hhigh
  constructor
  · obtain ⟨p, hp, hfour⟩ : ∃ p ∈ tree.nodesAt 1, p.1 = 4 := by
      rw [← List.mem_map, hlow]
      decide
    exact ⟨tree, t, ht, p, hp, hfour, (hwithin p hp).2 hfour⟩
  · have hdeep : ∀ p ∈ tree'.nodesAt 1, p.1 ≤ 7 := by
      rw [← List.forall_mem_map (P := fun k => k ≤ 7), hhigh]
      decide
    obtain ⟨rfl, rfl⟩ := hsame hdeep
    exact ⟨low, t', ht', hdeep, hu⟩

end Descent.Calc
