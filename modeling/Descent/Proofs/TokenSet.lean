import Descent.Token
import Mathlib.Data.Nat.Bitwise

/-! Membership in packed token sets: a set built by insertions and unions has
the members it was given, as far as they have a bit. -/

namespace Descent.TokenSet

/-- Whether the bit `b` is set in a list of words. -/
def hasBit (ws : List UInt64) (b : Nat) : Bool := (ws.getD (b / 64) 0).toNat.testBit (b % 64)

theorem mask_toNat (b : Nat) : (mask b).toNat = 2 ^ (b % 64) := by
  have hlt : b % 64 < 64 := Nat.mod_lt _ (by decide)
  have hpow : 2 ^ (b % 64) < 2 ^ 64 := Nat.pow_lt_pow_right (by decide) hlt
  have hbit : (UInt64.ofNat (b % 64)).toNat = b % 64 := by
    rw [UInt64.toNat_ofNat']
    exact Nat.mod_eq_of_lt (by omega)
  unfold mask
  rw [UInt64.toNat_shiftLeft, hbit, Nat.mod_eq_of_lt hlt]
  simpa [Nat.shiftLeft_eq] using Nat.mod_eq_of_lt hpow

theorem and_mask_ne_zero (w : UInt64) (b : Nat) :
    (w &&& mask b != 0) = w.toNat.testBit (b % 64) := by
  have h : (w &&& mask b).toNat = (w.toNat.testBit (b % 64)).toNat * 2 ^ (b % 64) := by
    rw [UInt64.toNat_and, mask_toNat, Nat.and_two_pow]
  cases hb : w.toNat.testBit (b % 64) with
  | false =>
    have hz : (w &&& mask b).toNat = 0 := by rw [h, hb]; simp
    have : w &&& mask b = 0 := UInt64.toNat_inj.mp hz
    simp [this]
  | true =>
    have hp : 0 < (w &&& mask b).toNat := by
      rw [h, hb, Bool.toNat_true, Nat.one_mul]
      exact Nat.two_pow_pos (b % 64)
    have : w &&& mask b ≠ 0 := by
      intro hz
      rw [hz] at hp
      exact absurd hp (by decide)
    simpa using this

theorem contains_eq (s : TokenSet) (t : TokenType) :
    s.contains t = match bit? t with
      | none => false
      | some b => hasBit s.words b := by
  unfold contains
  cases bit? t with
  | none => rfl
  | some b =>
    simp only [hasBit, List.getD_eq_getElem?_getD]
    cases s.words[b / 64]? with
    | none => simp
    | some w => simp [and_mask_ne_zero]

theorem hasBit_orAt (ws : List UInt64) (b c : Nat) :
    hasBit (orAt (mask b) (b / 64) ws) c = (hasBit ws c || decide (b = c)) := by
  have word (n m : Nat) (bits : UInt64) (ws : List UInt64) :
      ((orAt bits n ws).getD m 0).toNat =
        (ws.getD m 0).toNat ||| (if n = m then bits.toNat else 0) := by
    induction n, ws using orAt.induct generalizing m with
    | case1 => cases m <;> simp [orAt]
    | case2 w ws => cases m <;> simp [orAt]
    | case3 n ih =>
      cases m with
      | zero => simp [orAt]
      | succ m => simpa [orAt] using ih m
    | case4 n w ws ih =>
      cases m with
      | zero => simp [orAt]
      | succ m => simpa [orAt] using ih m
  unfold hasBit
  rw [word, Nat.testBit_or]
  congr 1
  by_cases h : b / 64 = c / 64
  · rw [if_pos h, mask_toNat, Nat.testBit_two_pow]
    have : b % 64 = c % 64 ↔ b = c := by omega
    simp [this]
  · have : b ≠ c := fun e => h (by rw [e])
    simp [h, this]

theorem hasBit_orWords (ws vs : List UInt64) (b : Nat) :
    hasBit (orWords ws vs) b = (hasBit ws b || hasBit vs b) := by
  have word (m : Nat) (ws vs : List UInt64) :
      ((orWords ws vs).getD m 0).toNat = (ws.getD m 0).toNat ||| (vs.getD m 0).toNat := by
    induction ws, vs using orWords.induct generalizing m with
    | case1 vs => simp [orWords]
    | case2 ws h => cases ws <;> simp [orWords]
    | case3 w ws v vs ih =>
      cases m with
      | zero => simp [orWords]
      | succ m => simpa [orWords] using ih m
  unfold hasBit
  rw [word, Nat.testBit_or]

theorem bit?_eq_some {t : TokenType} {b : Nat} (h : bit? t = some b) : (b : Int) = t + 1 := by
  unfold bit? at h
  split at h
  · next hr =>
    cases h
    have hr : (-1 : Int) ≤ t := hr.1
    exact Int.toNat_of_nonneg (by omega)
  · cases h

@[simp]
theorem contains_empty (t : TokenType) : empty.contains t = false := by
  rw [contains_eq]
  cases bit? t <;> simp [empty, hasBit]

@[simp]
theorem contains_union (s u : TokenSet) (t : TokenType) :
    (s.union u).contains t = (s.contains t || u.contains t) := by
  simp only [contains_eq]
  cases bit? t with
  | none => rfl
  | some b => exact hasBit_orWords _ _ _

theorem contains_insert (s : TokenSet) (t u : TokenType) :
    (s.insert t).contains u = true ↔ s.contains u = true ∨ t = u ∧ (bit? t).isSome := by
  unfold insert
  cases ht : bit? t with
  | none => simp
  | some b =>
    cases hu : bit? u with
    | none =>
      have : t ≠ u := fun e => by rw [e, hu] at ht; cases ht
      simp [contains_eq, hu, this]
    | some c =>
      have hb := bit?_eq_some ht
      have hc := bit?_eq_some hu
      have : b = c ↔ t = u := by
        constructor
        · intro e
          rw [e, hc] at hb
          exact (Int.add_left_inj 1).mp hb.symm
        · intro e
          rw [e, ← hc] at hb
          exact Int.ofNat_inj.mp hb
      simp [contains_eq, hu, hasBit_orAt, this]

theorem contains_foldl_insert (types : List TokenType) (s : TokenSet) (t : TokenType) :
    (types.foldl insert s).contains t = true ↔
      s.contains t = true ∨ t ∈ types ∧ (bit? t).isSome := by
  induction types generalizing s with
  | nil => simp
  | cons u types ih =>
    rw [List.foldl_cons, ih, contains_insert, List.mem_cons, or_assoc]
    refine or_congr_right ?_
    constructor
    · rintro (⟨rfl, hbit⟩ | ⟨ht, hbit⟩)
      · exact ⟨Or.inl rfl, hbit⟩
      · exact ⟨Or.inr ht, hbit⟩
    · rintro ⟨rfl | ht, hbit⟩
      · exact Or.inl ⟨rfl, hbit⟩
      · exact Or.inr ⟨ht, hbit⟩

/-- A set of types that all have a bit holds just these. -/
theorem contains_ofList (types : List TokenType) (t : TokenType)
    (h : ∀ u ∈ types, (bit? u).isSome) : (ofList types).contains t = true ↔ t ∈ types := by
  rw [ofList, contains_foldl_insert, contains_empty]
  simpa using h t

end Descent.TokenSet
