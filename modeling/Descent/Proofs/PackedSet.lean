import Descent.Proofs.TokenSet

/-! Packed token sets are finite sets. However a set is built, its last word is not
zero and every bit in it belongs to a type; such words are known from their bits. So
the members are the types that were put in and have a bit, listing them and counting
them agree, and two sets are the same when their members are. -/

namespace Descent.TokenSet

section Words

variable {ws vs : List UInt64}

theorem hasBit_cons (w : UInt64) (ws : List UInt64) (b : Nat) :
    hasBit (w :: ws) b = if b < 64 then w.toNat.testBit b else hasBit ws (b - 64) := by
  unfold hasBit
  split
  · next h => rw [Nat.div_eq_of_lt h, Nat.mod_eq_of_lt h, List.getD_cons_zero]
  · next h =>
    obtain ⟨c, rfl⟩ := Nat.exists_eq_add_of_le (Nat.le_of_not_lt h)
    rw [Nat.add_sub_cancel_left, Nat.add_div_left c (by decide), Nat.add_mod_left,
      List.getD_cons_succ]

theorem hasBit_cons_add (w : UInt64) (ws : List UInt64) (b : Nat) :
    hasBit (w :: ws) (64 + b) = hasBit ws b := by
  rw [hasBit_cons, if_neg (by omega), Nat.add_sub_cancel_left]

theorem testBit_of_le (w : UInt64) {b : Nat} (h : 64 ≤ b) : w.toNat.testBit b = false :=
  Nat.testBit_lt_two_pow (Nat.lt_of_lt_of_le w.toNat_lt (Nat.pow_le_pow_right (by decide) h))

/-- A word is known from its bits. -/
theorem word_ext {w v : UInt64} (h : ∀ b < 64, w.toNat.testBit b = v.toNat.testBit b) :
    w = v := by
  apply UInt64.toNat_inj.mp
  apply Nat.eq_of_testBit_eq
  intro b
  by_cases hb : b < 64
  · exact h b hb
  · rw [testBit_of_le w (by omega), testBit_of_le v (by omega)]

/-- Words of which the last is not zero. -/
def Trimmed (ws : List UInt64) : Prop := ws.getLast? ≠ some 0

theorem Trimmed.tail {w : UInt64} (h : Trimmed (w :: ws)) : Trimmed ws := by
  cases ws with
  | nil => simp [Trimmed]
  | cons v ws => simpa [Trimmed] using h

theorem Trimmed.eq_nil (h : Trimmed ws) (hnone : ∀ b, hasBit ws b = false) : ws = [] := by
  induction ws with
  | nil => rfl
  | cons w ws ih =>
    -- no bit behind the first word, so it would be the last one, and zero
    have hws : ws = [] := ih h.tail fun b => by rw [← hasBit_cons_add w]; exact hnone _
    have hw : w = 0 := word_ext fun b hb => by
      have hbit := hnone b
      rw [hasBit_cons, if_pos hb] at hbit
      rw [hbit, UInt64.toNat_zero, Nat.zero_testBit]
    exact absurd (by rw [hws, hw]; rfl) h

/-- Trimmed words are known from their bits. -/
theorem Trimmed.ext (hw : Trimmed ws) (hv : Trimmed vs) (h : ∀ b, hasBit ws b = hasBit vs b) :
    ws = vs := by
  induction ws generalizing vs with
  | nil => exact (hv.eq_nil fun b => by rw [← h b]; simp [hasBit]).symm
  | cons w ws ih =>
    cases vs with
    | nil => exact hw.eq_nil fun b => by rw [h b]; simp [hasBit]
    | cons v vs =>
      have hhead : w = v := word_ext fun b hb => by
        have hbit := h b
        rwa [hasBit_cons, hasBit_cons, if_pos hb, if_pos hb] at hbit
      have htail : ws = vs := ih hw.tail hv.tail fun b => by
        rw [← hasBit_cons_add w ws, ← hasBit_cons_add v vs]
        exact h _
      rw [hhead, htail]

theorem orAt_ne_nil (bits : UInt64) (n : Nat) (ws : List UInt64) : orAt bits n ws ≠ [] := by
  fun_cases orAt bits n ws <;> exact List.cons_ne_nil _ _

theorem or_ne_zero {w v : UInt64} (h : v ≠ 0) : w ||| v ≠ 0 := by
  intro hor
  exact h (UInt64.or_eq_zero_iff.mp hor).2

theorem Trimmed.orAt {bits : UInt64} (h : Trimmed ws) (hbits : bits ≠ 0) (n : Nat) :
    Trimmed (orAt bits n ws) := by
  fun_induction TokenSet.orAt bits n ws with
  | case1 => simpa [Trimmed] using hbits
  | case2 w ws =>
    cases ws with
    | nil => simpa [Trimmed] using or_ne_zero hbits
    | cons v ws => simpa [Trimmed] using h
  | case3 n ih =>
    rw [Trimmed, List.getLast?_cons_of_ne_nil (orAt_ne_nil bits n [])]
    exact ih (by simp [Trimmed])
  | case4 n w ws ih =>
    rw [Trimmed, List.getLast?_cons_of_ne_nil (orAt_ne_nil bits n ws)]
    exact ih h.tail

theorem orWords_eq_nil (h : orWords ws vs = []) : ws = [] ∧ vs = [] := by
  fun_cases TokenSet.orWords ws vs <;> simp_all [TokenSet.orWords]

theorem Trimmed.orWords (hw : Trimmed ws) (hv : Trimmed vs) : Trimmed (orWords ws vs) := by
  fun_induction TokenSet.orWords ws vs with
  | case1 vs => exact hv
  | case2 ws => exact hw
  | case3 w ws v vs ih =>
    -- only where both lists end here is the last word made of both
    by_cases hnil : TokenSet.orWords ws vs = []
    · obtain ⟨rfl, rfl⟩ := orWords_eq_nil hnil
      have hne : v ≠ 0 := by simpa [Trimmed] using hv
      simpa [Trimmed, hnil] using or_ne_zero hne
    · rw [Trimmed, List.getLast?_cons_of_ne_nil hnil]
      exact ih hw.tail hv.tail

theorem mem_bitsOf (w : UInt64) (b : Nat) : b ∈ bitsOf w ↔ b < 64 ∧ w.toNat.testBit b = true := by
  rw [bitsOf, List.mem_filter, List.mem_range, and_mask_ne_zero]
  refine and_congr_right fun hb => ?_
  rw [Nat.mod_eq_of_lt hb]

theorem bitsOf_pairwise (w : UInt64) : (bitsOf w).Pairwise (· < ·) :=
  List.pairwise_lt_range.filter _

theorem mem_bitsFrom (base : Nat) (ws : List UInt64) (b : Nat) :
    b ∈ bitsFrom base ws ↔ ∃ c, b = base + c ∧ hasBit ws c = true := by
  induction ws generalizing base with
  | nil => simp [bitsFrom, hasBit]
  | cons w ws ih =>
    rw [bitsFrom, List.mem_append, List.mem_map, ih]
    constructor
    · rintro (⟨c, hc, rfl⟩ | ⟨c, rfl, hc⟩)
      · obtain ⟨hlt, hbit⟩ := (mem_bitsOf w c).mp hc
        exact ⟨c, rfl, by rw [hasBit_cons, if_pos hlt, hbit]⟩
      · exact ⟨64 + c, by omega, by rw [hasBit_cons_add, hc]⟩
    · rintro ⟨c, rfl, hc⟩
      rw [hasBit_cons] at hc
      split at hc
      · next hlt => exact Or.inl ⟨c, (mem_bitsOf w c).mpr ⟨hlt, hc⟩, rfl⟩
      · next hge => exact Or.inr ⟨c - 64, by omega, hc⟩

/-- The bits are listed in ascending order, over the boundaries of words too. -/
theorem bitsFrom_pairwise (base : Nat) (ws : List UInt64) :
    (bitsFrom base ws).Pairwise (· < ·) := by
  induction ws generalizing base with
  | nil => exact .nil
  | cons w ws ih =>
    rw [bitsFrom, List.pairwise_append]
    refine ⟨?_, ih _, ?_⟩
    · exact (bitsOf_pairwise w).map _ fun _ _ hlt => Nat.add_lt_add_left hlt base
    · intro b hb c hc
      obtain ⟨i, hi, rfl⟩ := List.mem_map.mp hb
      obtain ⟨j, rfl, -⟩ := (mem_bitsFrom _ ws c).mp hc
      have hlt := ((mem_bitsOf w i).mp hi).1
      omega

theorem length_bitsFrom (base : Nat) (ws : List UInt64) :
    (bitsFrom base ws).length = countBits ws := by
  induction ws generalizing base with
  | nil => rfl
  | cons w ws ih => rw [bitsFrom, countBits, List.length_append, List.length_map, ih]

end Words

theorem bit?_isSome_iff {t : TokenType} : (bit? t).isSome ↔ -1 ≤ t ∧ t ≤ maxType := by
  unfold bit?
  split
  · next h => simpa using h
  · next h => simpa using h

/-- What every set that is built has: its words are trimmed, and all its bits belong
to types. -/
structure Packed (s : TokenSet) : Prop where
  trimmed : Trimmed s.words
  typed : ∀ b, hasBit s.words b = true → bit? ((b : Int) - 1) = some b

namespace Packed

variable {s u : TokenSet}

theorem empty : Packed empty where
  trimmed := by simp [Trimmed, TokenSet.empty]
  typed b hb := by simp [TokenSet.empty, hasBit] at hb

theorem insert (h : Packed s) (t : TokenType) : Packed (s.insert t) := by
  unfold TokenSet.insert
  split
  · exact h
  · next b hb =>
    have hmask : mask b ≠ 0 := by
      intro hzero
      have hpow := mask_toNat b
      rw [hzero] at hpow
      exact absurd hpow.symm (Nat.two_pow_pos _).ne'
    refine ⟨h.trimmed.orAt hmask _, fun c hc => ?_⟩
    rw [hasBit_orAt, Bool.or_eq_true, decide_eq_true_eq] at hc
    rcases hc with hc | rfl
    · exact h.typed c hc
    · rw [bit?_eq_some hb, Int.add_sub_cancel]
      exact hb

theorem foldl_insert (h : Packed s) (ts : List TokenType) :
    Packed (ts.foldl TokenSet.insert s) := by
  induction ts generalizing s with
  | nil => exact h
  | cons t ts ih => exact ih (h.insert t)

theorem union (h : Packed s) (hu : Packed u) : Packed (s.union u) where
  trimmed := h.trimmed.orWords hu.trimmed
  typed b hb := by
    rw [TokenSet.union, hasBit_orWords, Bool.or_eq_true] at hb
    exact hb.elim (h.typed b) (hu.typed b)

theorem hasBit_eq (h : Packed s) (b : Nat) :
    hasBit s.words b = s.contains ((b : Int) - 1) := by
  rw [contains_eq]
  cases hbit : hasBit s.words b with
  | true => rw [h.typed b hbit]; exact hbit.symm
  | false =>
    split
    · rfl
    · next c hc =>
      obtain rfl : c = b := by
        have hc := bit?_eq_some hc
        unfold TokenType at hc
        omega
      exact hbit.symm

/-- Packed sets are known from their members. -/
theorem ext (h : Packed s) (hu : Packed u) (hall : ∀ t, s.contains t = u.contains t) : s = u := by
  have hwords : s.words = u.words := h.trimmed.ext hu.trimmed fun b => by
    rw [h.hasBit_eq, hu.hasBit_eq, hall]
  cases s
  cases u
  exact congrArg TokenSet.mk hwords

theorem mem_toList (h : Packed s) (t : TokenType) : t ∈ s.toList ↔ s.contains t = true := by
  simp only [toList, List.mem_map, mem_bitsFrom, Nat.zero_add]
  constructor
  · rintro ⟨b, ⟨c, rfl, hc⟩, rfl⟩
    rw [← h.hasBit_eq, hc]
  · intro ht
    rw [contains_eq] at ht
    split at ht
    · cases ht
    · next b hb =>
      have hb := bit?_eq_some hb
      refine ⟨b, ⟨b, rfl, ht⟩, ?_⟩
      rw [hb, Int.add_sub_cancel]

theorem isEmpty_iff (h : Packed s) : s.isEmpty = true ↔ ∀ t, s.contains t = false := by
  rw [isEmpty, List.isEmpty_iff]
  constructor
  · intro hnil t
    have hs : s = TokenSet.empty := congrArg TokenSet.mk hnil
    rw [hs, contains_empty]
  · intro hnone
    exact h.trimmed.eq_nil fun b => by rw [h.hasBit_eq, hnone]

theorem union_comm (h : Packed s) (hu : Packed u) : s.union u = u.union s :=
  (h.union hu).ext (hu.union h) fun t => by
    rw [contains_union, contains_union, Bool.or_comm]

theorem union_assoc {v : TokenSet} (h : Packed s) (hu : Packed u) (hv : Packed v) :
    (s.union u).union v = s.union (u.union v) :=
  ((h.union hu).union hv).ext (h.union (hu.union hv)) fun t => by
    simp only [contains_union, Bool.or_assoc]

theorem union_self (h : Packed s) : s.union s = s :=
  (h.union h).ext h fun t => by rw [contains_union, Bool.or_self]

theorem union_empty (h : Packed s) : s.union TokenSet.empty = s :=
  (h.union .empty).ext h fun t => by rw [contains_union, contains_empty, Bool.or_false]

theorem empty_union (h : Packed s) : TokenSet.empty.union s = s :=
  (Packed.empty.union_comm h).trans h.union_empty

end Packed

theorem toList_pairwise (s : TokenSet) : s.toList.Pairwise (· < ·) :=
  (bitsFrom_pairwise 0 s.words).map _ fun _ _ hlt => Int.sub_lt_sub_right (Int.ofNat_lt.mpr hlt) 1

theorem length_toList (s : TokenSet) : s.toList.length = s.size := by
  rw [toList, List.length_map, length_bitsFrom, size]

/-- A way to build a set. -/
inductive Construction where
  | empty
  /-- Types collected one after another, given as a list or drawn from anywhere. -/
  | collect (types : List TokenType)
  /-- A set with one more type, whether it replaces the old one or stands beside it. -/
  | insert (x : Construction) (t : TokenType)
  | union (x y : Construction)

namespace Construction

/-- The set that is built. -/
def value : Construction → TokenSet
  | empty => TokenSet.empty
  | collect types => ofList types
  | insert x t => x.value.insert t
  | union x y => x.value.union y.value

/-- The types that were put in. -/
def types : Construction → List TokenType
  | empty => []
  | collect types => types
  | insert x t => x.types ++ [t]
  | union x y => x.types ++ y.types

theorem packed (x : Construction) : Packed x.value := by
  induction x with
  | empty => exact .empty
  | collect types => exact Packed.empty.foldl_insert types
  | insert x t ih => exact ih.insert t
  | union x y ihx ihy => exact ihx.union ihy

theorem contains_value (x : Construction) (t : TokenType) :
    x.value.contains t = true ↔ t ∈ x.types ∧ (bit? t).isSome = true := by
  induction x with
  | empty => simp [value, types]
  | collect types =>
    rw [value, ofList, contains_foldl_insert]
    simp [Construction.types]
  | insert x u ih =>
    rw [value, contains_insert, ih, types, List.mem_append, List.mem_singleton, or_and_right]
    refine or_congr_right ?_
    constructor
    · rintro ⟨rfl, hbit⟩
      exact ⟨rfl, hbit⟩
    · rintro ⟨rfl, hbit⟩
      exact ⟨rfl, hbit⟩
  | union x y ihx ihy =>
    rw [value, contains_union, Bool.or_eq_true, ihx, ihy, types, List.mem_append, or_and_right]

end Construction

/-- However a set is built, it is the finite set of the types that were put in and have
a bit: its last word is not zero, its list holds the members in ascending order, its
size is their number, and it equals another set when the members are the same. So
unions may be regrouped and repeated, and types may be put in in any order and any
number of times. -/
theorem construction_faithful (x : Construction) :
    x.value.words.getLast? ≠ some 0 ∧
    (∀ t, x.value.contains t = true ↔ t ∈ x.types ∧ -1 ≤ t ∧ t ≤ 2147483646) ∧
    (∀ t, t ∈ x.value.toList ↔ x.value.contains t = true) ∧
    x.value.toList.Pairwise (· < ·) ∧
    x.value.size = x.value.toList.length ∧
    (x.value.isEmpty = true ↔ ∀ t, x.value.contains t = false) ∧
    (∀ y : Construction,
      x.value = y.value ↔ ∀ t, x.value.contains t = y.value.contains t) ∧
    (∀ y : Construction, x.value.union y.value = y.value.union x.value) ∧
    (∀ y z : Construction, (x.value.union y.value).union z.value =
      x.value.union (y.value.union z.value)) ∧
    x.value.union x.value = x.value ∧
    x.value.union empty = x.value ∧ empty.union x.value = x.value ∧
    (∀ ts us : List TokenType, (∀ t, t ∈ ts ↔ t ∈ us) →
      ts.foldl insert x.value = us.foldl insert x.value) := by
  have hx := x.packed
  refine ⟨hx.trimmed, fun t => ?_, hx.mem_toList, toList_pairwise _, (length_toList _).symm,
    hx.isEmpty_iff, fun y => ⟨fun h t => by rw [h], hx.ext y.packed⟩,
    fun y => hx.union_comm y.packed, fun y z => hx.union_assoc y.packed z.packed, hx.union_self,
    hx.union_empty, hx.empty_union, fun ts us hmem => ?_⟩
  · rw [x.contains_value, bit?_isSome_iff]
    rfl
  · refine (hx.foldl_insert ts).ext (hx.foldl_insert us) fun t => ?_
    rw [Bool.eq_iff_iff, contains_foldl_insert, contains_foldl_insert, hmem]

/-- Over the boundary of two words, with types that have no bit. -/
example : (ofList [64, -7, 63, -1, 64, 2147483647]).toList = [-1, 63, 64] := by decide

end Descent.TokenSet
