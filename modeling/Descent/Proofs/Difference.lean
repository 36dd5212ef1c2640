import Descent.Diff

/-! Two texts have no difference exactly if they are the same. Whatever the table says,
the walk through it takes pieces that stand in both texts in that order, so it takes
all pieces of both only if these are the same, and where they are it never leaves the
diagonal. The pieces of a text are known with the text. -/

namespace Descent.Diff

theorem pieces_ne_nil (text : String) : pieces text ≠ [] := by
  simp [pieces]

/-- A text is its pieces with newlines between them. -/
theorem pieces_injective {left right : String} (h : pieces left = pieces right) : left = right := by
  have hchars : left.toList.splitOn '\n' = right.toList.splitOn '\n' :=
    List.map_inj_right (fun _ _ => String.ofList_injective) |>.mp h
  rw [← String.toList_inj]
  calc left.toList = ['\n'].intercalate (left.toList.splitOn '\n') :=
        (List.intercalate_splitOn '\n').symm
    _ = ['\n'].intercalate (right.toList.splitOn '\n') := by rw [hchars]
    _ = right.toList := List.intercalate_splitOn '\n'

variable {a b : Array String} {i j n : Nat} {found : List String}

/-- Pieces that all come after a place, in their order. -/
structure After (a : Array String) (i : Nat) (found : List String) : Prop where
  place : i < a.size
  sublist : found.Sublist (a.toList.drop (i + 1))

theorem drop_eq_getD_cons (h : i < a.size) :
    a.toList.drop i = a.getD i "" :: a.toList.drop (i + 1) := by
  rw [List.drop_eq_getElem_cons h]
  simp [Array.getD, h]

namespace After

theorem all (h : After a i found) : found.Sublist a.toList :=
  h.sublist.trans (List.drop_sublist _ _)

theorem back (h : After a i found) : After a (i - 1) found :=
  ⟨Nat.lt_of_le_of_lt (Nat.sub_le i 1) h.place,
    h.sublist.trans (List.drop_sublist_drop_left _ (by omega))⟩

theorem take (h : After a i found) : (a.getD i "" :: found).Sublist (a.toList.drop i) := by
  rw [drop_eq_getD_cons h.place]
  exact h.sublist.cons_cons _

theorem take_back (h : After a i found) (hi : i ≠ 0) : After a (i - 1) (a.getD i "" :: found) := by
  refine ⟨h.back.place, ?_⟩
  rw [Nat.sub_add_cancel (Nat.one_le_iff_ne_zero.mpr hi)]
  exact h.take

end After

/-- The walk finds pieces of both texts. -/
theorem walk_sublist (t : Array Nat) (h : After a i found) (h' : After b j found) :
    (walk a b t n i j found).Sublist a.toList ∧ (walk a b t n i j found).Sublist b.toList := by
  induction n generalizing i j found with
  | zero => exact ⟨h.all, h'.all⟩
  | succ n ih =>
    rw [walk]
    split
    · next hpiece =>
      have htaken := h'.take
      rw [← hpiece] at htaken
      dsimp only
      split
      · exact ⟨h.take.trans (List.drop_sublist _ _), htaken.trans (List.drop_sublist _ _)⟩
      · next hplace =>
        obtain ⟨hi, hj⟩ := not_or.mp hplace
        have hback := h'.take_back hj
        rw [← hpiece] at hback
        exact ih (h.take_back hi) hback
    · split
      · exact ⟨h.all, h'.all⟩
      · split
        · split
          · exact ⟨h.all, h'.all⟩
          · exact ih h h'.back
        · exact ih h.back h'

/-- On two equal texts it stays on the diagonal and leaves nothing out. -/
theorem walk_self (t : Array Nat) (hn : i < n) (hi : i < a.size) :
    walk a a t n i i found = a.toList.take (i + 1) ++ found := by
  induction n generalizing i found with
  | zero => exact absurd hn (Nat.not_lt_zero i)
  | succ n ih =>
    have htake : a.toList.take (i + 1) ++ found = a.toList.take i ++ a.getD i "" :: found := by
      rw [List.take_succ_eq_append_getElem hi]
      simp [Array.getD, hi]
    rw [walk, if_pos rfl, htake]
    dsimp only
    split
    · next hzero =>
      obtain rfl : i = 0 := hzero.elim id id
      rfl
    · next hplace =>
      have hne : i ≠ 0 := (not_or.mp hplace).1
      have hpos : i - 1 + 1 = i := Nat.sub_add_cancel (Nat.one_le_iff_ne_zero.mpr hne)
      rw [ih (by omega) (by omega), hpos]

theorem common_sublist (ha : a.size ≠ 0) (hb : b.size ≠ 0) :
    (common a b).Sublist a.toList ∧ (common a b).Sublist b.toList :=
  walk_sublist _ ⟨by omega, List.nil_sublist _⟩ ⟨by omega, List.nil_sublist _⟩

theorem common_self (ha : a.size ≠ 0) : common a a = a.toList := by
  rw [common, walk_self _ (by omega) (by omega), List.append_nil]
  exact List.take_of_length_le (by simp; omega)

theorem diff?_eq_none_iff_length (left right : String) : diff? left right = none ↔
    (pieces left).length + (pieces right).length =
      2 * (common (pieces left).toArray (pieces right).toArray).length := by
  unfold diff?
  dsimp only
  split
  · next h => exact iff_of_true rfl h
  · next h => exact iff_of_false nofun h

/-- There is no difference exactly between a text and itself. -/
theorem diff?_eq_none_iff (left right : String) : diff? left right = none ↔ left = right := by
  have hsize (text : String) : (pieces text).toArray.size ≠ 0 := by
    simpa using pieces_ne_nil text
  rw [diff?_eq_none_iff_length]
  constructor
  · intro hlength
    obtain ⟨hleft, hright⟩ := common_sublist (hsize left) (hsize right)
    have hle : _ ≤ (pieces left).length := hleft.length_le
    have hle' : _ ≤ (pieces right).length := hright.length_le
    have heq : common _ _ = pieces left := hleft.eq_of_length_le (by dsimp only; omega)
    have heq' : common _ _ = pieces right := hright.eq_of_length_le (by dsimp only; omega)
    exact pieces_injective (heq.symm.trans heq')
  · rintro rfl
    rw [common_self (hsize left), Nat.two_mul]

end Descent.Diff
