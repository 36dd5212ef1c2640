import Descent.Proofs.Prediction
import Mathlib.Data.List.DropRight
import Mathlib.Data.Set.Function

/-! What a prediction cache remembers of its past. Whatever is done to it, a lookahead has
the place as its number that it has among the lookaheads interned since the last clear, in
the order in which they first came. Taking the size of the table as the next number keeps
this up, since the table has as many entries as there are such lookaheads. So numbers and
lookaheads correspond one to one, and a decision has for a number what was recorded last. -/

namespace Descent.PredictionCache

/-- What can be done to a cache. A record may be made for any number, interned or not. -/
inductive Op where
  | intern (w : Lookahead)
  | record (decision context alternative : Nat)
  | clear
  deriving DecidableEq, Repr

namespace Op

def lookahead? : Op → Option Lookahead
  | intern w => some w
  | _ => none

/-- The alternative that is recorded for a decision and a context. -/
def alternative? (decision context : Nat) : Op → Option Nat
  | record d id a => if (d, id) = (decision, context) then some a else none
  | _ => none

end Op

def apply (c : PredictionCache) : Op → PredictionCache
  | .intern w => (c.intern w).2
  | .record d id a => c.record d id a
  | .clear => c.clear

/-- The cache after some operations on an empty one. -/
def run (ops : List Op) : PredictionCache := ops.foldl apply empty

/-- The operations after the last clear, or all of them if there is none. -/
def sinceClear (ops : List Op) : List Op := ops.rtakeWhile (· ≠ .clear)

/-- The lookaheads that are interned, each at the place where it first comes. -/
def interned (ops : List Op) : List Lookahead := (ops.filterMap Op.lookahead?).eraseDups

/-- What is recorded for a decision and a context, one after the other. -/
def alternatives (decision context : Nat) (ops : List Op) : List Nat :=
  ops.filterMap (Op.alternative? decision context)

section Lists

variable {α : Type} {l : List α}

theorem eraseDups_concat_of_mem [BEq α] [LawfulBEq α] {a : α} (h : a ∈ l) :
    (l ++ [a]).eraseDups = l.eraseDups := by
  simp [List.eraseDups_append, List.removeAll, h]

theorem eraseDups_concat_of_notMem [BEq α] [LawfulBEq α] {a : α} (h : a ∉ l) :
    (l ++ [a]).eraseDups = l.eraseDups ++ [a] := by
  simp [List.eraseDups_append, List.removeAll, h, List.eraseDups_cons]

theorem getElem?_concat_eq_some {a b : α} {i : Nat} :
    (l ++ [a])[i]? = some b ↔ l[i]? = some b ∨ i = l.length ∧ a = b := by
  rcases Nat.lt_trichotomy i l.length with h | h | h
  · rw [List.getElem?_append_left h]
    simp [Nat.ne_of_lt h]
  · subst h
    simp
  · have hlong : (l ++ [a]).length ≤ i := by
      rw [List.length_append, List.length_singleton]
      exact h
    rw [List.getElem?_eq_none hlong, List.getElem?_eq_none (Nat.le_of_lt h)]
    simp [Nat.ne_of_gt h]

end Lists

section Operations

variable {ops : List Op} {w : Lookahead}

theorem sinceClear_clear (ops : List Op) : sinceClear (ops ++ [.clear]) = [] :=
  List.rtakeWhile_concat_neg _ _ _ (by simp)

theorem sinceClear_concat {op : Op} (h : op ≠ .clear) :
    sinceClear (ops ++ [op]) = sinceClear ops ++ [op] :=
  List.rtakeWhile_concat_pos _ _ _ (by simpa using h)

theorem mem_interned : w ∈ interned ops ↔ .intern w ∈ ops := by
  rw [interned, List.mem_eraseDups, List.mem_filterMap]
  constructor
  · rintro ⟨op, hop, hw⟩
    cases op with
    | intern v =>
      cases hw
      exact hop
    | record d id a => cases hw
    | clear => cases hw
  · intro h
    exact ⟨.intern w, h, rfl⟩

theorem interned_again (h : w ∈ interned ops) : interned (ops ++ [.intern w]) = interned ops := by
  rw [interned, List.filterMap_append]
  exact eraseDups_concat_of_mem (List.mem_eraseDups.mp h)

theorem interned_new (h : w ∉ interned ops) :
    interned (ops ++ [.intern w]) = interned ops ++ [w] := by
  rw [interned, List.filterMap_append]
  exact eraseDups_concat_of_notMem fun hw => h (List.mem_eraseDups.mpr hw)

theorem interned_record (ops : List Op) (d id a : Nat) :
    interned (ops ++ [.record d id a]) = interned ops := by
  have hlast : [Op.record d id a].filterMap Op.lookahead? = [] := rfl
  rw [interned, List.filterMap_append, hlast, List.append_nil, interned]

theorem alternatives_intern (ops : List Op) (w : Lookahead) (d id : Nat) :
    alternatives d id (ops ++ [.intern w]) = alternatives d id ops := by
  simp [alternatives, Op.alternative?]

theorem getLast?_alternatives_record (ops : List Op) (d id a d' id' : Nat) :
    (alternatives d' id' (ops ++ [.record d id a])).getLast? =
      if (d, id) = (d', id') then some a else (alternatives d' id' ops).getLast? := by
  rw [alternatives, List.filterMap_append, List.getLast?_append]
  by_cases e : (d, id) = (d', id')
  · rw [if_pos e, List.filterMap_cons_some (by rw [Op.alternative?, if_pos e])]
    rfl
  · rw [if_neg e, List.filterMap_cons_none (by rw [Op.alternative?, if_neg e])]
    rfl

end Operations

/-- What the cache holds is what `ops` put into it, where none of them clears it. -/
structure Reflects (ops : List Op) (c : PredictionCache) : Prop where
  size : c.size = (interned ops).length
  contexts : ∀ (w : Lookahead) (id : Nat),
    c.contexts[w]? = some id ↔ (interned ops)[id]? = some w
  decisions : ∀ d id, c.prediction? d id = (alternatives d id ops).getLast?

namespace Reflects

variable {ops : List Op} {c : PredictionCache} {w : Lookahead} {id : Nat}

theorem cleared (generation : Nat) : Reflects [] { generation := generation } where
  size := rfl
  contexts := by simp [interned]
  decisions := by simp [prediction?, alternatives]

theorem mem_interned_iff (h : Reflects ops c) :
    w ∈ interned ops ↔ ∃ id, c.contexts[w]? = some id := by
  rw [List.mem_iff_getElem?]
  exact exists_congr fun id => (h.contexts w id).symm

theorem again (h : Reflects ops c) (hw : c.contexts[w]? = some id) :
    Reflects (ops ++ [.intern w]) c := by
  have hmem : w ∈ interned ops := h.mem_interned_iff.mpr ⟨id, hw⟩
  constructor
  · rw [interned_again hmem]
    exact h.size
  · rw [interned_again hmem]
    exact h.contexts
  · intro d i
    rw [alternatives_intern]
    exact h.decisions d i

/-- A new lookahead takes the next place. -/
theorem insert (h : Reflects ops c) (hw : c.contexts[w]? = none) :
    Reflects (ops ++ [.intern w]) { c with contexts := c.contexts.insert w c.size } := by
  have hnew : w ∉ interned ops := by
    rw [h.mem_interned_iff, hw]
    simp
  constructor
  · rw [interned_new hnew, List.length_append, ← h.size]
    exact contexts_size_insert hw _
  · -- the place behind the last lookahead is the size, so no other has it as its number
    intro v id
    rw [interned_new hnew, getElem?_concat_eq_some, ← h.contexts, ← h.size, contexts_insert]
    split
    · next e =>
      subst e
      simp [hw, eq_comm]
    · next hne => simp [hne]
  · intro d id
    rw [alternatives_intern]
    exact h.decisions d id

theorem intern (h : Reflects ops c) (w : Lookahead) :
    Reflects (ops ++ [.intern w]) (c.intern w).2 := by
  unfold PredictionCache.intern
  split
  · next hid => exact h.again hid
  · next hnone => exact h.insert hnone

theorem record (h : Reflects ops c) (d id a : Nat) :
    Reflects (ops ++ [.record d id a]) (c.record d id a) where
  size := by
    rw [interned_record]
    exact h.size
  contexts := by
    rw [interned_record]
    exact h.contexts
  decisions d' id' := by
    rw [prediction?_record, getLast?_alternatives_record, h.decisions]

/-- Who was interned has a number, which interning gives again. -/
theorem contexts_eq_some_iff (h : Reflects ops c) :
    c.contexts[w]? = some id ↔ .intern w ∈ ops ∧ (c.intern w).1 = id := by
  have hknown : ∀ i, c.contexts[w]? = some i → (c.intern w).1 = i := by
    intro i hi
    rw [PredictionCache.intern, hi]
  rw [← mem_interned, h.mem_interned_iff]
  constructor
  · intro hid
    exact ⟨⟨id, hid⟩, hknown id hid⟩
  · rintro ⟨⟨i, hi⟩, rfl⟩
    rw [hknown i hi]
    exact hi

/-- The numbers below the size are in use, each for one lookahead. -/
theorem bijOn_intern (h : Reflects ops c) :
    Set.BijOn (fun w => (c.intern w).1) { w | .intern w ∈ ops } { id | id < c.size } := by
  have hplace : ∀ {w}, .intern w ∈ ops → (interned ops)[(c.intern w).1]? = some w := by
    intro w hw
    exact (h.contexts w _).mp (h.contexts_eq_some_iff.mpr ⟨hw, rfl⟩)
  refine ⟨fun w hw => ?_, fun w hw w' hw' heq => ?_, fun id hid => ?_⟩
  · obtain ⟨hlt, -⟩ := List.getElem?_eq_some_iff.mp (hplace hw)
    exact h.size ▸ hlt
  · have hsame : (c.intern w).1 = (c.intern w').1 := heq
    have hw' := hplace hw'
    rw [← hsame, hplace hw] at hw'
    exact Option.some.inj hw'
  · have hlt : id < (interned ops).length := h.size ▸ hid
    have hw := (h.contexts _ id).mpr (List.getElem?_eq_getElem hlt)
    exact ⟨_, h.contexts_eq_some_iff.mp hw⟩

end Reflects

theorem Grows.apply (c : PredictionCache) (op : Op) : Grows c (c.apply op) := by
  cases op with
  | intern w => exact .intern c w
  | record d id a => exact .record c d id a
  | clear => exact .clear c

theorem Grows.foldl (c : PredictionCache) (ops : List Op) :
    Grows c (ops.foldl PredictionCache.apply c) := by
  induction ops generalizing c with
  | nil => exact .refl c
  | cons op ops ih => exact (Grows.apply c op).trans (ih _)

theorem generation_apply (c : PredictionCache) (op : Op) :
    (c.apply op).generation = c.generation + if op = .clear then 1 else 0 := by
  cases op with
  | intern w => exact intern_generation c w
  | record d id a => rfl
  | clear => rfl

theorem generation_foldl (c : PredictionCache) (ops : List Op) :
    (ops.foldl apply c).generation = c.generation + ops.count .clear := by
  induction ops generalizing c with
  | nil => rfl
  | cons op ops ih =>
    rw [List.foldl_cons, ih, generation_apply, List.count_cons]
    simp only [beq_iff_eq]
    omega

/-- A lookahead keeps the number that it was given, as long as nobody clears the cache. -/
theorem intern_foldl (c : PredictionCache) (w : Lookahead) {ops : List Op} (h : .clear ∉ ops) :
    ((ops.foldl apply (c.intern w).2).intern w).1 = (c.intern w).1 := by
  have hgeneration : (ops.foldl apply (c.intern w).2).generation = (c.intern w).2.generation := by
    rw [generation_foldl, List.count_eq_zero_of_not_mem h, Nat.add_zero]
  have hkept := (Grows.foldl (c.intern w).2 ops).contexts hgeneration w _ (contexts_intern c w)
  rw [intern, hkept]

theorem reflects_run (ops : List Op) : Reflects (sinceClear ops) (run ops) := by
  -- from the front to the back, as the operations are applied
  induction ops using List.reverseRecOn with
  | nil => exact .cleared 0
  | append_singleton ops op ih =>
    rw [run, List.foldl_append, ← run]
    cases op with
    | intern w =>
      rw [sinceClear_concat (by simp)]
      exact ih.intern w
    | record d id a =>
      rw [sinceClear_concat (by simp)]
      exact ih.record d id a
    | clear =>
      rw [sinceClear_clear]
      exact .cleared _

/-- After any operations on an empty cache, interning takes the lookaheads interned since
the last clear to the numbers below the size, one to one, and these are the numbers in the
table; a lookahead is given the same number again until the next clear; the generation is
the number of clears; and a decision has for a number, interned or not, what was recorded
for them last since the last clear, if anything. The generation is counted without end
here; it is the machine's counter as long as there are fewer than `2 ^ 64` clears. -/
theorem run_reflects_history (ops : List Op) :
    Set.BijOn (fun w => ((run ops).intern w).1) { w | .intern w ∈ sinceClear ops }
        { id | id < (run ops).size } ∧
      (∀ (w : Lookahead) (id : Nat), (run ops).contexts[w]? = some id ↔
        .intern w ∈ sinceClear ops ∧ ((run ops).intern w).1 = id) ∧
      (∀ (w : Lookahead) (more : List Op), .clear ∉ more →
        ((run (ops ++ .intern w :: more)).intern w).1 = ((run ops).intern w).1) ∧
      (run ops).generation = ops.count .clear ∧
      ∀ d id, (run ops).prediction? d id = (alternatives d id (sinceClear ops)).getLast? := by
  have h := reflects_run ops
  refine ⟨h.bijOn_intern, fun w id => h.contexts_eq_some_iff, fun w more hmore => ?_, ?_,
    h.decisions⟩
  · rw [run, List.foldl_append]
    exact intern_foldl (run ops) w hmore
  · rw [run, generation_foldl]
    exact Nat.zero_add _

/-- A clear in the middle: the lookahead that came first before it comes second after it,
and of two records made after it the later one counts. -/
theorem run_reflects_history_cleared :
    let ops : List Op := [.intern [1], .record 5 0 7, .clear, .intern [2], .record 5 0 8,
      .intern [1], .record 5 0 9, .intern [2]]
    let more : List Op := [.record 5 2 4, .intern [4], .intern [1]]
    (run ops).size = 2 ∧ (run ops).contexts[([1] : Lookahead)]? = some 1 ∧
      .clear ∉ more ∧ ((run (ops ++ .intern [3] :: more)).intern [3]).1 = 2 ∧
      (run ops).generation = 1 ∧ (run ops).prediction? 5 0 = some 9 ∧
      (run ops).prediction? 5 1 = none := by
  intro ops more
  obtain ⟨-, htable, hkept, hgeneration, hlatest⟩ := run_reflects_history ops
  have hmore : .clear ∉ more := by decide
  have hmem : .intern [1] ∈ sinceClear ops := by decide
  exact ⟨rfl, (htable [1] 1).mpr ⟨hmem, rfl⟩, hmore, hkept [3] more hmore, hgeneration,
    hlatest 5 0, hlatest 5 1⟩

end Descent.PredictionCache
