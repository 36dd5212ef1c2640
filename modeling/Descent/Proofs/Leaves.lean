import Descent.Proofs.Calls
import Descent.Proofs.Tree

/-! No token is lost, doubled or moved. The leaves of what a run attaches, read
from left to right, take the input from the cursor before the run to the cursor
after it, with tokens that were made up between them. Error recovery is no
exception, since it attaches whatever it skips. -/

namespace Descent

/-- A token that covers a part of the text; one that was made up covers none. -/
def Token.real (t : Token) : Bool := t.start < t.stop

/-- The leaves of a tree that were not made up. -/
def RawTree.realTokens (t : RawTree) : List Token := t.tokens.filter Token.real

/-- The tokens `ts` take the input from index `i` to index `j`. One that was
made up carries the index of the token it was made up in front of. -/
inductive Reads (input : List Token) : Nat → List Token → Nat → Prop where
  | nil (i : Nat) : Reads input i [] i
  | real {i j : Nat} {t : Token} {ts : List Token} :
      input[i]? = some t → Reads input (i + 1) ts j → Reads input i (t :: ts) j
  | madeUp {i j : Nat} {t : Token} {ts : List Token} :
      t.real = false → t.index = i → t.type ≠ eof → Reads input i ts j →
      Reads input i (t :: ts) j

namespace Reads

variable {input : List Token} {i j k : Nat} {ts us : List Token}

theorem append (h : Reads input i ts j) (h' : Reads input j us k) :
    Reads input i (ts ++ us) k := by
  induction h with
  | nil => exact h'
  | real ht _ ih => exact .real ht (ih h')
  | madeUp hr hi hne _ ih => exact .madeUp hr hi hne (ih h')

/-- A stretch of the input reads itself. -/
theorem stretch (n i : Nat) (h : i + n ≤ input.length) :
    Reads input i ((input.drop i).take n) (i + n) := by
  induction n generalizing i with
  | zero => simpa using Reads.nil i
  | succ n ih =>
    have hlt : i < input.length := by omega
    have hrest := ih (i + 1) (by omega)
    rw [show i + 1 + n = i + (n + 1) by omega] at hrest
    rw [List.drop_eq_getElem_cons hlt, List.take_succ_cons]
    exact .real (List.getElem?_eq_getElem hlt) hrest

theorem real_eq (hin : ∀ t ∈ input, t.real = true) (h : Reads input i ts j) :
    i ≤ j ∧ ts.filter Token.real = (input.drop i).take (j - i) := by
  induction h with
  | nil => simp
  | @real i j t ts ht _ ih =>
    obtain ⟨hle, heq⟩ := ih
    obtain ⟨hlt, hget⟩ := List.getElem?_eq_some_iff.mp ht
    have hreal : t.real = true := hin t (hget ▸ List.getElem_mem hlt)
    refine ⟨by omega, ?_⟩
    rw [List.filter_cons_of_pos hreal, heq, List.drop_eq_getElem_cons hlt, hget,
      show j - i = (j - (i + 1)) + 1 by omega, List.take_succ_cons]
  | madeUp hr _ _ _ ih =>
    rw [List.filter_cons_of_neg (by simp [hr])]
    exact ih

theorem madeUp_index (hin : ∀ t ∈ input, t.real = true) {before after : List Token} {t : Token}
    (h : Reads input i (before ++ t :: after) j) (ht : t.real = false) :
    t.index = i + (before.filter Token.real).length := by
  induction before generalizing i with
  | nil =>
    cases h with
    | real hget _ =>
      obtain ⟨hlt, hget⟩ := List.getElem?_eq_some_iff.mp hget
      rw [hin t (hget ▸ List.getElem_mem hlt)] at ht
      cases ht
    | madeUp _ hi _ _ => simpa using hi
  | cons u before ih =>
    cases h with
    | real hget h =>
      obtain ⟨hlt, hget⟩ := List.getElem?_eq_some_iff.mp hget
      have hreal : u.real = true := hin u (hget ▸ List.getElem_mem hlt)
      rw [ih h, List.filter_cons_of_pos hreal, List.length_cons]
      omega
    | madeUp hr _ _ h =>
      rw [ih h, List.filter_cons_of_neg (by simp [hr])]

theorem ne_eof (hin : ∀ t ∈ input, t.type ≠ eof) (h : Reads input i ts j) :
    ∀ t ∈ ts, t.type ≠ eof := by
  induction h with
  | nil => simp
  | real ht _ ih =>
    intro t hmem
    rcases List.mem_cons.mp hmem with rfl | hmem
    · obtain ⟨hlt, hget⟩ := List.getElem?_eq_some_iff.mp ht
      exact hin t (hget ▸ List.getElem_mem hlt)
    · exact ih t hmem
  | madeUp _ _ hne _ ih =>
    intro t hmem
    rcases List.mem_cons.mp hmem with rfl | hmem
    · exact hne
    · exact ih t hmem

end Reads

namespace Buffer

variable {σ : Type} [TokenSource σ]

theorem WF.ahead_index {b : Buffer σ} (h : b.WF) : (b.ahead 1).index = b.position :=
  h.fill.indexed _ _ h.ahead_get

/-- What the cursor has passed has been drawn. -/
theorem WF.take_tokens {b : Buffer σ} (h : b.WF) :
    b.tokens.toList.take b.position = b.input.take b.position := by
  obtain ⟨e, he, -⟩ := h.tokens_fill
  obtain ⟨more, hmore⟩ := prefix_pull (TokenSource.bound b.source + 1) b
  have hfill : b.tokens.toList ++ more = b.input ++ [e] := hmore.trans he
  have hp := h.position_le
  calc b.tokens.toList.take b.position
      = (b.tokens.toList ++ more).take b.position :=
        (List.take_append_of_le_length (by simpa using hp)).symm
    _ = (b.input ++ [e]).take b.position := by rw [hfill]
    _ = b.input.take b.position := List.take_append_of_le_length h.position_le_input

end Buffer

namespace Parser

open RawTree

variable {σ : Type} [TokenSource σ] {G : Grammar}

theorem State.current_index {s : State σ} (h : s.buffer.WF) : s.current.index = s.index :=
  h.ahead_index

theorem State.current_get {s : State σ} (h : s.buffer.WF) (hne : s.current.type ≠ eof) :
    s.buffer.input[s.index]? = some s.current := by
  obtain ⟨ts, hr⟩ := rest_eq_cons h hne
  have hd : s.buffer.input.drop s.index = s.current :: ts := hr
  have h0 := congrArg (fun l => l[0]?) hd
  simpa using h0

/-- What was attached on the way from `s` to `t`, `more`, reads the input from
the one cursor to the other, and every node in it from where it says it starts. -/
structure Laid (input : List Token) (s : State σ) (more : List (Option RawTree)) (t : State σ) :
    Prop where
  slots : t.slots = s.slots ++ more
  reads : Reads input s.index (slotTokens more) t.index
  nodes : ∀ rule start recovered slots, .node rule start recovered slots ∈ slotSubtrees more →
    ∃ j ≤ t.index, Reads input start (slotTokens slots) j

namespace Laid

variable {input : List Token}

omit [TokenSource σ]

theorem same {s t : State σ} (hslots : t.slots = s.slots) (hindex : t.index = s.index) :
    Laid input s [] t where
  slots := by simp [hslots]
  reads := by
    rw [hindex]
    exact .nil _
  nodes := by simp [slotSubtrees]

theorem trans {s t u : State σ} {more more' : List (Option RawTree)} (h : Laid input s more t)
    (h' : Laid input t more' u) (hle : t.index ≤ u.index) : Laid input s (more ++ more') u where
  slots := by rw [h'.slots, h.slots, List.append_assoc]
  reads := by
    rw [slotTokens_append]
    exact h.reads.append h'.reads
  nodes := by
    intro rule start recovered slots hmem
    rw [slotSubtrees_append] at hmem
    rcases List.mem_append.mp hmem with hm | hm
    · obtain ⟨j, hj, hr⟩ := h.nodes rule start recovered slots hm
      exact ⟨j, Nat.le_trans hj hle, hr⟩
    · exact h'.nodes rule start recovered slots hm

theorem leaf {s t : State σ} {x : Token} {error : Bool}
    (hslots : t.slots = s.slots ++ [some (.leaf x error)])
    (hreads : Reads input s.index [x] t.index) : Laid input s [some (.leaf x error)] t where
  slots := hslots
  reads := hreads
  nodes := by simp [subtrees]

theorem reach [TokenSource σ] (s : State σ) (k : Nat) : Laid input s [] (s.reach k) :=
  same rfl (State.index_reach s k)

theorem decide [TokenSource σ] (s : State σ) (c : PredictionCache) (d k : Nat)
    (simulate : Lookahead → Option Nat) : Laid input s [] (s.decide c d k simulate) :=
  same rfl (State.index_reach s k)

/-- Tokens that are skipped are read. -/
theorem skipped [TokenSource σ] {s t : State σ} {n : Nat} (h : s.buffer.WF)
    (hindex : t.index = s.index + n) (hn : n ≤ s.rest.length)
    (hslots : t.slots = s.slots ++ (s.rest.take n).map fun x => some (.leaf x true)) :
    Laid s.buffer.input s ((s.rest.take n).map fun x => some (.leaf x true)) t where
  slots := hslots
  reads := by
    rw [slotTokens_leaves, hindex]
    apply Reads.stretch
    have hp := h.position_le_input
    simp only [State.rest, Buffer.rest, List.length_drop] at hn
    simp only [State.index]
    omega
  nodes := by
    intro rule start recovered slots hmem
    rw [slotSubtrees_leaves] at hmem
    obtain ⟨x, -, hx⟩ := List.mem_map.mp hmem
    cases hx

/-- A rule that comes back leaves a node for what was attached in it. -/
theorem close {s t : State σ} {follow : TokenSet} {more : List (Option RawTree)}
    (h : Laid input (s.openRule follow) more t) (r : Nat) (recovered : Bool) :
    Laid input s [some (.node r s.index recovered t.slots)]
      ((t.closeRule s).attach (.node r s.index recovered t.slots)) where
  slots := rfl
  reads := by
    have hslots : t.slots = more := h.slots
    rw [slotTokens_singleton, tokens, hslots]
    exact h.reads
  nodes := by
    have hslots : t.slots = more := h.slots
    intro rule start recovered' slots hmem
    simp only [slotSubtrees_singleton, subtrees, List.mem_cons, node.injEq] at hmem
    rcases hmem with ⟨-, rfl, -, rfl⟩ | hmem
    · rw [hslots]
      exact ⟨t.index, Nat.le_refl _, h.reads⟩
    · exact h.nodes rule start recovered' slots (hslots ▸ hmem)

end Laid

/-- Every run reads the input it passes over. -/
theorem Run.laid {input : List Token} {s t : State σ} {w : List Symbol} (h : Run G s w t)
    (hs : s.Ok) (hin : s.buffer.input = input) : ∃ more, Laid input s more t := by
  induction h with
  | refl => exact ⟨[], .same rfl rfl⟩
  | look k _ ih =>
    obtain ⟨more, hm⟩ := ih hs hin
    exact ⟨_, hm.trans (.reach _ k) (Nat.le_of_eq (State.index_reach _ k).symm)⟩
  | take hr hx ih =>
    obtain ⟨more, hm⟩ := ih hs hin
    have hk := hr.kept hs
    have hne : _ ≠ eof := fun e => G.eof_notMem (e ▸ hx)
    have hget := State.current_get hk.ok.buffer hne
    rw [hk.input, hin] at hget
    have hindex := State.take_index hne
    refine ⟨_, hm.trans (.leaf (by rw [State.take_eq]) ?_) (by omega)⟩
    rw [hindex]
    exact .real hget (.nil _)
  | drop message hr hne ih =>
    obtain ⟨more, hm⟩ := ih hs hin
    have hk := hr.kept hs
    have hget := State.current_get hk.ok.buffer hne
    rw [hk.input, hin] at hget
    have hindex := State.drop_index hne message
    refine ⟨_, hm.trans (.leaf (by rw [State.drop_eq]) ?_) (by omega)⟩
    rw [hindex]
    exact .real hget (.nil _)
  | @conjure _ t _ x text message hr hx _ ih =>
    obtain ⟨more, hm⟩ := ih hs hin
    have hk := hr.kept hs
    have hindex : (t.conjure x text message).index = t.index := by
      rw [State.conjure_eq]
      exact State.index_reach _ 1
    refine ⟨_, hm.trans (.leaf (by rw [State.conjure_eq]) ?_) (by omega)⟩
    rw [hindex]
    refine .madeUp ?_ ?_ (fun e => G.eof_notMem (e ▸ hx)) (.nil _)
    · simp [Token.real, State.madeUp]
    · exact State.current_index hk.ok.buffer
  | @decide _ t _ c d k simulate _ _ _ ih =>
    obtain ⟨more, hm⟩ := ih hs hin
    exact ⟨_, hm.trans (.decide t c d k simulate) (Nat.le_of_eq (t.index_reach k).symm)⟩
  | @finish _ t u _ _ r follow hr _ _ hbody _ ih ihb =>
    obtain ⟨more, hm⟩ := ih hs hin
    have hk := hr.kept hs
    obtain ⟨inner, hb⟩ := ihb (hk.ok.openRule follow) (hk.input.trans hin)
    have hle := (hbody.kept (hk.ok.openRule follow)).index
    exact ⟨_, hm.trans (hb.close r false) hle⟩
  | @abandon _ t u _ _ r follow message hr _ _ hbody ih ihb =>
    obtain ⟨more, hm⟩ := ih hs hin
    have hk := hr.kept hs
    obtain ⟨inner, hb⟩ := ihb (hk.ok.openRule follow) (hk.input.trans hin)
    have hkb := hbody.kept (hk.ok.openRule follow)
    obtain ⟨n, hn, -⟩ := State.giveUp_skipped hkb.ok.buffer message
    have hindex : (u.giveUp message).index = u.index + n := hn.index
    have hle : u.index ≤ (u.giveUp message).index := by omega
    have hgive := Laid.skipped hkb.ok.buffer hindex hn.le hn.slots
    rw [hkb.input.trans (hk.input.trans hin)] at hgive
    refine ⟨_, hm.trans ((hb.trans hgive hle).close r true) ?_⟩
    rw [State.index_close]
    exact Nat.le_trans hkb.index hle

end Parser

namespace Calc

open Descent.Parser RawTree

/-- What a call returns reads the input from where the parser stood to where it
stands then. -/
theorem invoke_laid {s t : ParserState} {index : Nat} {tree : RawTree} (h : s.Ok)
    (hi : invoke index s = (.ok tree, t)) :
    Kept s (t.attach tree) ∧ Laid s.buffer.input s [some tree] (t.attach tree) := by
  have hrun := invoke_run h hi
  obtain ⟨r, -, -, hinv⟩ := invoke_invoked h hi
  obtain ⟨more, hm⟩ := hrun.laid h rfl
  obtain rfl := hinv.more_eq hm.slots
  exact ⟨hrun.kept h, hm⟩

theorem Calls.laid {s t : ParserState} {trees : List RawTree} (h : Calls s trees t)
    (hs : Idle s) :
    t.buffer.whole = s.buffer.whole ∧
    Reads s.buffer.input s.index (trees.flatMap tokens) t.index ∧
    ∀ tree ∈ trees, ∀ rule start recovered slots,
      .node rule start recovered slots ∈ tree.subtrees →
      ∃ j ≤ t.index, Reads s.buffer.input start (slotTokens slots) j := by
  induction h with
  | start => exact ⟨rfl, .nil _, by simp⟩
  | share c _ ih => exact ih
  | limit depth _ ih => exact ih
  | @call trees tree t u index hc hi ih =>
    obtain ⟨hwhole, hreads, hnodes⟩ := ih
    obtain ⟨hk, hl⟩ := invoke_laid (hc.idle hs).ok hi
    rw [Buffer.input_of_whole hwhole] at hl
    refine ⟨hk.whole.trans hwhole, ?_, ?_⟩
    · have hnext := hl.reads
      rw [slotTokens_singleton] at hnext
      rw [List.flatMap_append, List.flatMap_singleton]
      exact hreads.append hnext
    · intro tree' hmem rule start recovered slots hnode
      rcases List.mem_append.mp hmem with hm | hm
      · obtain ⟨j, hj, hr⟩ := hnodes tree' hm rule start recovered slots hnode
        exact ⟨j, Nat.le_trans hj hk.index, hr⟩
      · rw [List.mem_singleton.mp hm] at hnode
        exact hl.nodes rule start recovered slots (by simpa using hnode)

/-- A stretch of the input that ends before the cursor has been drawn. -/
theorem stretch_prefix {s : ParserState} (h : s.buffer.WF) {i j : Nat} (hj : j ≤ s.index) :
    (s.buffer.input.drop i).take (j - i) <+: s.buffer.tokens.toList.drop i := by
  have htake : s.buffer.input.take j = s.buffer.tokens.toList.take j := by
    have hall := congrArg (List.take j) h.take_tokens
    have hj' : j ≤ s.buffer.position := hj
    rw [List.take_take, List.take_take, Nat.min_eq_left hj'] at hall
    exact hall.symm
  rw [← List.drop_take, htake, List.drop_take]
  exact List.take_prefix _ _

theorem Idle.real {s : ParserState} (h : Idle s) : ∀ t ∈ s.buffer.input, t.real = true :=
  fun t ht => decide_eq_true (h.lexed t ht).nonempty

theorem Calls.realTokens_eq {s t : ParserState} {trees : List RawTree} (h : Calls s trees t)
    (hs : Idle s) (hstart : s.index = 0) :
    trees.flatMap realTokens = s.buffer.input.take t.index := by
  obtain ⟨-, hreads, -⟩ := h.laid hs
  obtain ⟨-, heq⟩ := hreads.real_eq hs.real
  rw [hstart, List.filter_flatMap] at heq
  exact heq

/-- Whatever calls return trees, in whatever order and with whatever in the
cache, no token is lost, doubled or moved. Every node has the buffered tokens
from its start on without a gap, one tree goes on where the one before ended, a
token that was made up carries the index of the next one, the end of the input
is attached nowhere, and after a program the whole input has been taken. -/
theorem calls_keep_tokens (threshold depth : Nat) (source : String) (stalls : Nat → Bool)
    (c : PredictionCache) {trees : List RawTree} {s : ParserState}
    (h : Calls (fresh threshold depth source stalls c) trees s) :
    (∀ tree ∈ trees, ∀ rule start recovered slots,
      .node rule start recovered slots ∈ tree.subtrees →
      (RawTree.node rule start recovered slots).realTokens <+:
        s.buffer.tokens.toList.drop start) ∧
    trees.flatMap realTokens = s.buffer.tokens.toList.take s.index ∧
    (∀ before t after, trees.flatMap tokens = before ++ t :: after → t.real = false →
      t.index = (before.filter Token.real).length) ∧
    (∀ tree ∈ trees, ∀ t ∈ tree.tokens, t.type ≠ eof) ∧
    ∀ c' tree t, invoke Rule.program.index (s.share c') = (.ok tree, t) →
      (trees ++ [tree]).flatMap realTokens =
        (Buffer.ofSource (Lexer.ofString source stalls)).fill.tokens.toList.filter
          fun t => t.type ≠ eof := by
  have hs := fresh_idle threshold depth source stalls c
  have hidle := h.idle hs
  obtain ⟨hwhole, hreads, hnodes⟩ := h.laid hs
  obtain ⟨e, htokens, he, hne⟩ := hs.ok.buffer.tokens_fill
  have hin : s.buffer.input = (fresh threshold depth source stalls c).buffer.input :=
    Buffer.input_of_whole hwhole
  refine ⟨?_, ?_, ?_, ?_, ?_⟩
  · intro tree htree rule start recovered slots hnode
    obtain ⟨j, hj, hr⟩ := hnodes tree htree rule start recovered slots hnode
    rw [realTokens, tokens, (hr.real_eq hs.real).2, ← hin]
    exact stretch_prefix hidle.ok.buffer hj
  · rw [h.realTokens_eq hs (fresh_index ..), ← hin]
    exact hidle.ok.buffer.take_tokens.symm
  · intro before t after hsplit ht
    rw [hsplit] at hreads
    rw [hreads.madeUp_index hs.real ht, fresh_index, Nat.zero_add]
  · intro tree htree t ht
    exact hreads.ne_eof hne t (List.mem_flatMap_of_mem htree ht)
  · intro c' tree t hi
    have hcall := (h.share c').call _ hi
    obtain ⟨r, hr, hp, -⟩ := invoke_invoked (hidle.share c').ok hi
    have hr : r = .program := (Option.some.inj hr).symm
    subst hr
    have hend := (parseRule_program (hidle.share c').ok (hidle.share c').depth_lt hp).1
    have hlen := (hcall.idle hs).ok.buffer.ahead_eq_eof_iff.mp hend
    have hin' : t.buffer.input = (fresh threshold depth source stalls c).buffer.input :=
      Buffer.input_of_whole (hcall.laid hs).1
    have hlen' : t.index = (fresh threshold depth source stalls c).buffer.input.length :=
      hlen.trans (congrArg List.length hin')
    rw [hcall.realTokens_eq hs (fresh_index ..), hlen', List.take_length]
    show _ = (fresh threshold depth source stalls c).buffer.fill.tokens.toList.filter _
    rw [htokens, List.filter_append, List.filter_eq_self.mpr (by simpa using hne)]
    simp [he]

/-- A sign is no assignment, which skips it; a program then finds nothing left. -/
theorem calls_keep_tokens_sign : ∃ trees s,
    Calls (fresh 10 1 "+" never .empty) trees s ∧ trees.length = 2 ∧
    (∀ tree ∈ trees, ∀ rule start recovered slots,
      .node rule start recovered slots ∈ tree.subtrees →
      (RawTree.node rule start recovered slots).realTokens <+:
        s.buffer.tokens.toList.drop start) ∧
    trees.flatMap realTokens = s.buffer.tokens.toList.take s.index :=
  have hcalls : Calls (fresh 10 1 "+" never .empty) _ _ :=
    (Calls.start.call 2 rfl).call 0 rfl
  have htokens := calls_keep_tokens 10 1 "+" never .empty hcalls
  ⟨_, _, hcalls, rfl, htokens.1, htokens.2.1⟩

end Calc

end Descent
