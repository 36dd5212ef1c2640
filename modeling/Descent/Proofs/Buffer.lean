import Descent.Buffer

/-! The buffer seen as a cursor over the whole input. Filling the buffer gives
the tokens of the input once and for all; drawing some of them earlier or later
changes nothing about it. So the token `k` places ahead is the one a filled
buffer shows, and the rest of the input is what follows the cursor there. -/

namespace Descent.Buffer

variable {σ : Type} [TokenSource σ]

/-- What every buffer that was built from a source satisfies. -/
structure WF (b : Buffer σ) : Prop where
  indexed : ∀ (i : Nat) (t : Token), b.tokens.toList[i]? = some t → t.index = i
  running : b.ended = false → ∀ t ∈ b.tokens.toList, t.type ≠ eof
  stopped : b.ended = true → ∃ ts e, b.tokens.toList = ts ++ [e] ∧ e.type = eof ∧
    ∀ t ∈ ts, t.type ≠ eof
  position_le : b.position ≤ b.tokens.size
  position_lt : b.ended = true → b.position < b.tokens.size

/-- The token `k` places ahead, drawn already or not. -/
def ahead (b : Buffer σ) (k : Nat) : Token := b.fill.peek k

/-- The buffer with everything drawn and the cursor at the start. Nothing that is
done with a buffer changes it. -/
def whole (b : Buffer σ) : Buffer σ := { b.fill with position := 0 }

/-- The tokens of the whole input, without the one that ends it. -/
def input (b : Buffer σ) : List Token := b.whole.tokens.toList.dropLast

theorem input_of_whole {b b' : Buffer σ} (h : b.whole = b'.whole) : b.input = b'.input := by
  rw [input, h, input]

/-- The tokens from the current one on, without the one that ends the input. -/
def rest (b : Buffer σ) : List Token := b.input.drop b.position

theorem isEof_iff (t : Token) : t.isEof = true ↔ t.type = eof := by
  simp [Token.isEof]

theorem isEof_eq_false_iff (t : Token) : t.isEof = false ↔ t.type ≠ eof := by
  simp [Token.isEof]

theorem pull_of_ended (n : Nat) (b : Buffer σ) (h : b.ended = true) : pull n b = b := by
  cases n <;> simp [pull, h]

@[simp]
theorem pull_position (n : Nat) (b : Buffer σ) : (pull n b).position = b.position := by
  induction n generalizing b with
  | zero => rfl
  | succ n ih =>
    unfold pull
    split
    · rfl
    · exact ih b.fetch

/-- Enough draws come to the end of the input, and there any number of draws
gives the same. -/
theorem pull_enough (k : Nat) (b : Buffer σ) (hk : TokenSource.bound b.source < k) (n : Nat)
    (hn : TokenSource.bound b.source < n) : pull n b = pull k b ∧ (pull k b).ended = true := by
  induction k generalizing b n with
  | zero => omega
  | succ k ih =>
    cases n with
    | zero => omega
    | succ n =>
      unfold pull
      by_cases h : b.ended = true
      · simp [h]
      · simp only [h, Bool.false_eq_true, ↓reduceIte]
        by_cases he : (TokenSource.next b.source).1.isEof = true
        · have hf : b.fetch.ended = true := he
          rw [pull_of_ended n _ hf, pull_of_ended k _ hf]
          exact ⟨rfl, hf⟩
        · have hne : (TokenSource.next b.source).1.type ≠ eof := by
            simpa [Token.isEof] using he
          have hlt : TokenSource.bound b.fetch.source < TokenSource.bound b.source :=
            TokenSource.next_bound b.source hne
          exact ih b.fetch (by omega) n (by omega)

theorem fill_ended (b : Buffer σ) : b.fill.ended = true :=
  (pull_enough _ b (Nat.lt_succ_self _) _ (Nat.lt_succ_self _)).2

theorem fill_of_ended (b : Buffer σ) (h : b.ended = true) : b.fill = b := pull_of_ended _ b h

theorem fill_fetch (b : Buffer σ) (h : b.ended = false) : b.fetch.fill = b.fill := by
  have hb : b.fill = pull (TokenSource.bound b.source) b.fetch := by
    unfold fill
    rw [pull]
    simp [h]
  by_cases he : (TokenSource.next b.source).1.isEof = true
  · have hf : b.fetch.ended = true := he
    rw [hb, fill_of_ended _ hf, pull_of_ended _ _ hf]
  · have hne : (TokenSource.next b.source).1.type ≠ eof := by
      simpa [Token.isEof] using he
    have hlt : TokenSource.bound b.fetch.source < TokenSource.bound b.source :=
      TokenSource.next_bound b.source hne
    rw [hb]
    exact ((pull_enough _ b.fetch (Nat.lt_succ_self _) _ hlt).1).symm

@[simp]
theorem fill_pull (n : Nat) (b : Buffer σ) : (pull n b).fill = b.fill := by
  induction n generalizing b with
  | zero => rfl
  | succ n ih =>
    unfold pull
    split
    · rfl
    · next h => rw [ih, fill_fetch b (by simpa using h)]

@[simp]
theorem fill_reach (b : Buffer σ) (k : Nat) : (b.reach k).fill = b.fill := fill_pull _ b

@[simp]
theorem reach_position (b : Buffer σ) (k : Nat) : (b.reach k).position = b.position :=
  pull_position _ b

@[simp]
theorem fill_position (b : Buffer σ) : b.fill.position = b.position := pull_position _ b

@[simp]
theorem ahead_reach (b : Buffer σ) (k j : Nat) : (b.reach k).ahead j = b.ahead j := by
  simp [ahead]

@[simp]
theorem whole_reach (b : Buffer σ) (k : Nat) : (b.reach k).whole = b.whole := by
  simp [whole]

@[simp]
theorem input_reach (b : Buffer σ) (k : Nat) : (b.reach k).input = b.input := by
  simp [input]

@[simp]
theorem rest_reach (b : Buffer σ) (k : Nat) : (b.reach k).rest = b.rest := by
  simp [rest]

omit [TokenSource σ] in
theorem WF.ofSource (source : σ) : (ofSource source).WF where
  indexed := by simp [Buffer.ofSource]
  running := by simp [Buffer.ofSource]
  stopped := by simp [Buffer.ofSource]
  position_le := by simp [Buffer.ofSource]
  position_lt := by simp [Buffer.ofSource]

theorem WF.fetch {b : Buffer σ} (h : b.WF) (ho : b.ended = false) : b.fetch.WF where
  indexed := by
    intro i t ht
    simp only [Buffer.fetch, Array.toList_push] at ht
    rcases Nat.lt_trichotomy i b.tokens.toList.length with hi | hi | hi
    · rw [List.getElem?_append_left hi] at ht
      exact h.indexed i t ht
    · subst hi
      simp at ht
      simp [← ht]
    · rw [List.getElem?_eq_none (by simp at hi ⊢; omega)] at ht
      cases ht
  running := by
    intro he t ht
    simp only [Buffer.fetch, Array.toList_push, List.mem_append, List.mem_singleton] at ht
    rcases ht with ht | rfl
    · exact h.running ho t ht
    · exact (isEof_eq_false_iff _).mp he
  stopped := by
    intro he
    exact ⟨b.tokens.toList, { (TokenSource.next b.source).1 with index := b.tokens.size },
      by simp [Buffer.fetch], (isEof_iff _).mp he, h.running ho⟩
  position_le := by
    have := h.position_le
    simp only [Buffer.fetch, Array.size_push]
    omega
  position_lt := by
    intro _
    have := h.position_le
    simp only [Buffer.fetch, Array.size_push]
    omega

theorem WF.pull {b : Buffer σ} (h : b.WF) (n : Nat) : (pull n b).WF := by
  induction n generalizing b with
  | zero => exact h
  | succ n ih =>
    unfold Buffer.pull
    split
    · exact h
    · next ho => exact ih (h.fetch (by simpa using ho))

theorem WF.reach {b : Buffer σ} (h : b.WF) (k : Nat) : (b.reach k).WF := h.pull _

theorem WF.fill {b : Buffer σ} (h : b.WF) : b.fill.WF := h.pull _

theorem prefix_pull (n : Nat) (b : Buffer σ) : b.tokens.toList <+: (pull n b).tokens.toList := by
  induction n generalizing b with
  | zero => exact List.prefix_refl _
  | succ n ih =>
    unfold pull
    split
    · exact List.prefix_refl _
    · refine List.IsPrefix.trans ?_ (ih b.fetch)
      simp [fetch]

theorem pull_size (n : Nat) (b : Buffer σ) :
    (pull n b).ended = true ∨ (pull n b).tokens.size = b.tokens.size + n := by
  induction n generalizing b with
  | zero => exact Or.inr rfl
  | succ n ih =>
    unfold pull
    split
    · next h => exact Or.inl h
    · rcases ih b.fetch with h | h
      · exact Or.inl h
      · refine Or.inr (h.trans ?_)
        simp [fetch]
        omega

/-- The next `k` tokens are there, or as many as the input has. -/
def Ready (b : Buffer σ) (k : Nat) : Prop := b.ended = true ∨ b.position + k ≤ b.tokens.size

theorem reach_ready (b : Buffer σ) (k : Nat) : (b.reach k).Ready k := by
  rcases pull_size (b.position + k - b.tokens.size) b with h | h
  · exact Or.inl h
  · refine Or.inr ?_
    have hp := reach_position b k
    have hs : (b.reach k).tokens.size = b.tokens.size + (b.position + k - b.tokens.size) := h
    omega

theorem reach_of_ready {b : Buffer σ} {k : Nat} (h : b.Ready k) : b.reach k = b := by
  rcases h with h | h
  · exact pull_of_ended _ b h
  · unfold reach
    rw [Nat.sub_eq_zero_of_le h]
    rfl

omit [TokenSource σ] in
theorem Ready.le {b : Buffer σ} {k j : Nat} (h : b.Ready k) (hj : j ≤ k) : b.Ready j := by
  rcases h with h | h
  · exact Or.inl h
  · exact Or.inr (by omega)

/-- A token that is there is the one a filled buffer shows in its place. -/
theorem peek_of_ready {b : Buffer σ} {k : Nat} (hk : 1 ≤ k) (h : b.Ready k) :
    b.peek k = b.ahead k := by
  rcases h with h | h
  · rw [ahead, fill_of_ended b h]
  · obtain ⟨more, hmore⟩ := prefix_pull (TokenSource.bound b.source + 1) b
    have hfill : b.fill.tokens.toList = b.tokens.toList ++ more := hmore.symm
    have hsize : b.fill.tokens.size = b.tokens.size + more.length := by
      have := congrArg List.length hfill
      simpa using this
    have hi : b.position + (k - 1) < b.tokens.size := by omega
    have hmin : min (b.position + (k - 1)) (b.tokens.size - 1) = b.position + (k - 1) := by omega
    have hmin' : min (b.position + (k - 1)) (b.fill.tokens.size - 1) = b.position + (k - 1) := by
      omega
    unfold ahead peek tokenAt
    rw [fill_position, hmin, hmin', Array.getD_eq_getD_getElem?, Array.getD_eq_getD_getElem?,
      ← Array.getElem?_toList, ← Array.getElem?_toList, hfill,
      List.getElem?_append_left (by simpa using hi)]

theorem peek_reach (b : Buffer σ) {j k : Nat} (hj : 1 ≤ j) (hk : j ≤ k) :
    (b.reach k).peek j = b.ahead j := by
  rw [peek_of_ready hj ((reach_ready b k).le hk), ahead_reach]

/-- A look ahead within the words is the parser's. -/
theorem lt_of_fits (build : Build) (b : Buffer σ) {k : UInt64} (hk : 1 ≤ k.toNat)
    (hi : b.position + (k.toNat - 1) < UInt64.size) :
    b.lt build k = some (b.ahead k.toNat, b.reach k.toNat) := by
  have hsync : b.sync (b.position + (k.toNat - 1)) = b.reach k.toNat := by
    rw [sync, reach, Nat.add_assoc, Nat.sub_add_cancel hk]
  have htoken : (b.reach k.toNat).tokenAt (b.position + (k.toNat - 1)) = b.ahead k.toNat := by
    rw [← peek_reach b hk (Nat.le_refl _), peek, reach_position]
  simp only [lt, build.place?_of_lt hk hi, Option.bind_eq_bind, Option.bind_some, hsync, htoken,
    Option.pure_def]

theorem consume_eq (b : Buffer σ) :
    b.consume = (b.ahead 1, if (b.ahead 1).isEof then b.reach 1
      else { b.reach 1 with position := b.position + 1 }) := by
  simp only [consume, peek_reach b (Nat.le_refl 1) (Nat.le_refl 1), reach_position]

theorem consume_reach (b : Buffer σ) : (b.reach 1).consume = b.consume := by
  rw [consume_eq, consume_eq, ahead_reach, reach_of_ready (reach_ready b 1), reach_position]

theorem types_reach (b : Buffer σ) (n : Nat) :
    (b.reach n).types n = (List.range n).map fun i => (b.ahead (i + 1)).type := by
  unfold types
  apply List.map_congr_left
  intro i hi
  have hi : i < n := List.mem_range.mp hi
  rw [peek_reach b (by omega) hi]

/-- Moving on leaves the tokens of a filled buffer alone. -/
theorem fill_move (b : Buffer σ) (p : Nat) :
    ({ b with position := p } : Buffer σ).fill = { b.fill with position := p } := by
  have move (n : Nat) (b : Buffer σ) :
      pull n { b with position := p } = { pull n b with position := p } := by
    induction n generalizing b with
    | zero => rfl
    | succ n ih =>
      unfold pull
      split
      · rfl
      · exact ih b.fetch
  exact move _ b

@[simp]
theorem whole_move (b : Buffer σ) (p : Nat) :
    ({ b with position := p } : Buffer σ).whole = b.whole := by
  simp [whole, fill_move]

theorem WF.tokens_fill {b : Buffer σ} (h : b.WF) :
    ∃ e, b.fill.tokens.toList = b.input ++ [e] ∧ e.type = eof ∧ ∀ t ∈ b.input, t.type ≠ eof := by
  obtain ⟨ts, e, hts, he, hne⟩ := h.fill.stopped (fill_ended b)
  have hin : b.input = ts := by simp [input, whole, hts]
  rw [hin]
  exact ⟨e, hts, he, hne⟩

theorem WF.position_le_input {b : Buffer σ} (h : b.WF) : b.position ≤ b.input.length := by
  obtain ⟨e, he, -⟩ := h.tokens_fill
  have hlt := h.fill.position_lt (fill_ended b)
  have hsize : b.fill.tokens.size = b.input.length + 1 := by
    have := congrArg List.length he
    simpa using this
  rw [fill_position] at hlt
  omega

/-- The current token is where the cursor is. -/
theorem WF.ahead_get {b : Buffer σ} (h : b.WF) :
    b.fill.tokens.toList[b.position]? = some (b.ahead 1) := by
  have hlt := h.fill.position_lt (fill_ended b)
  rw [fill_position] at hlt
  have hmin : min (b.position + (1 - 1)) (b.fill.tokens.size - 1) = b.position := by omega
  unfold ahead peek tokenAt
  rw [fill_position, hmin, Array.getD_eq_getD_getElem?, ← Array.getElem?_toList,
    List.getElem?_eq_getElem (by simpa using hlt)]
  rfl

/-- What a filled buffer shows: the tokens from the cursor on, then the end. -/
theorem WF.ahead_eq {b : Buffer σ} (h : b.WF) :
    ∃ e, e.type = eof ∧ ∀ k, b.ahead (k + 1) = b.rest.getD k e := by
  obtain ⟨e, he, htype, -⟩ := h.tokens_fill
  refine ⟨e, htype, fun k => ?_⟩
  have hpos := h.position_le_input
  have hsize : b.fill.tokens.size = b.input.length + 1 := by
    have := congrArg List.length he
    simpa using this
  unfold ahead peek tokenAt
  rw [fill_position, Array.getD_eq_getD_getElem?, ← Array.getElem?_toList, he, hsize]
  simp only [Nat.add_sub_cancel, rest, List.getD_eq_getElem?_getD, List.getElem?_drop]
  by_cases hk : b.position + k < b.input.length
  · rw [Nat.min_eq_left (by omega), List.getElem?_append_left hk]
    simp [List.getElem?_eq_getElem hk]
  · rw [Nat.min_eq_right (by omega), List.getElem?_eq_none (l := b.input) (by omega)]
    simp

theorem WF.ahead_of_rest {b : Buffer σ} (h : b.WF) {t : Token} {ts : List Token}
    (hr : b.rest = t :: ts) : b.ahead 1 = t := by
  obtain ⟨e, -, he⟩ := h.ahead_eq
  simpa [hr] using he 0

theorem WF.rest_of_ahead {b : Buffer σ} (h : b.WF) (hne : (b.ahead 1).type ≠ eof) :
    ∃ ts, b.rest = b.ahead 1 :: ts := by
  obtain ⟨e, htype, he⟩ := h.ahead_eq
  cases hr : b.rest with
  | nil =>
    have h1 : b.ahead 1 = e := by simpa [hr] using he 0
    exact absurd (by rw [h1, htype]) hne
  | cons t ts => exact ⟨ts, by rw [h.ahead_of_rest hr]⟩

theorem WF.ahead_type {b : Buffer σ} (h : b.WF) (k : Nat) :
    (b.ahead (k + 1)).type = (b.rest.map Token.type).getD k eof := by
  obtain ⟨e, htype, he⟩ := h.ahead_eq
  rw [he k, ← htype]
  simp only [List.getD_eq_getElem?_getD, List.getElem?_map]
  cases b.rest[k]? <;> rfl

theorem WF.ahead_eq_eof_iff {b : Buffer σ} (h : b.WF) :
    (b.ahead 1).type = eof ↔ b.position = b.input.length := by
  have hpos := h.position_le_input
  constructor
  · intro he
    cases hr : b.rest with
    | nil =>
      have hlen := List.drop_eq_nil_iff.mp hr
      omega
    | cons t ts =>
      obtain ⟨-, -, -, hin⟩ := h.tokens_fill
      have ht : t ∈ b.input := List.mem_of_mem_drop (hr ▸ List.mem_cons_self : t ∈ b.rest)
      rw [h.ahead_of_rest hr] at he
      exact absurd he (hin t ht)
  · intro he
    have hr : b.rest = [] := by simp [rest, he]
    rw [h.ahead_type 0, hr]
    rfl

theorem WF.move {b : Buffer σ} (h : b.WF) (hr : b.Ready 1) (hne : (b.ahead 1).type ≠ eof) :
    ({ b with position := b.position + 1 } : Buffer σ).WF := by
  have hlt : b.position < b.input.length := by
    have := h.position_le_input
    have hne := mt h.ahead_eq_eof_iff.mpr hne
    omega
  refine ⟨h.indexed, h.running, h.stopped, ?_, ?_⟩
  · rcases hr with he | hs
    · exact h.position_lt he
    · exact hs
  · intro he
    have hin : b.input.length + 1 = b.tokens.size := by
      obtain ⟨e, htok, -⟩ := h.tokens_fill
      rw [fill_of_ended b he] at htok
      have := congrArg List.length htok
      simp at this
      omega
    show b.position + 1 < b.tokens.size
    omega

theorem WF.consume {b : Buffer σ} (h : b.WF) : b.consume.2.WF := by
  rw [consume_eq]
  split
  · exact h.reach 1
  · next hne =>
    have hm := (h.reach 1).move (reach_ready b 1) (by simpa [Token.isEof] using hne)
    simpa using hm

/-- Taking a token moves the cursor by one over the same input. -/
theorem consume_of_ne {b : Buffer σ} (hne : (b.ahead 1).type ≠ eof) :
    b.consume.1 = b.ahead 1 ∧ b.consume.2.position = b.position + 1 ∧
      b.consume.2.whole = b.whole := by
  have hf : (b.ahead 1).isEof = false := (isEof_eq_false_iff _).mpr hne
  rw [consume_eq, hf]
  simp

theorem consume_rest {b : Buffer σ} (hne : (b.ahead 1).type ≠ eof) :
    b.consume.2.rest = b.rest.tail := by
  obtain ⟨-, hp, hi⟩ := consume_of_ne hne
  simp [rest, input, hp, hi]

/-- A look at the end of the input draws the token that says so. -/
theorem WF.ended_of_eof {b : Buffer σ} (h : b.WF) (he : (b.ahead 1).type = eof) :
    (b.reach 1).ended = true := by
  rcases reach_ready b 1 with hended | hlt
  · exact hended
  · have hlt : (b.reach 1).position < (b.reach 1).tokens.size := hlt
    have hmin : min ((b.reach 1).position + (1 - 1)) ((b.reach 1).tokens.size - 1) =
        (b.reach 1).position := by omega
    have hget : (b.reach 1).tokens.toList[(b.reach 1).position]? = some ((b.reach 1).peek 1) := by
      unfold peek tokenAt
      rw [hmin, Array.getD_eq_getD_getElem?, ← Array.getElem?_toList,
        List.getElem?_eq_getElem (by simpa using hlt)]
      rfl
    rw [peek_reach b (Nat.le_refl 1) (Nat.le_refl 1)] at hget
    cases hended : (b.reach 1).ended with
    | true => rfl
    | false => exact absurd he ((h.reach 1).running hended _ (List.mem_of_getElem? hget))

theorem pull_size_le (n : Nat) (b : Buffer σ) : (pull n b).tokens.size ≤ b.tokens.size + n := by
  induction n generalizing b with
  | zero => exact Nat.le_refl _
  | succ n ih =>
    unfold pull
    split
    · omega
    · have := ih b.fetch
      simp only [fetch, Array.size_push] at this ⊢
      omega

/-- The rest of the input is within the bound that loops over it are given. -/
theorem WF.rest_le {b : Buffer σ} (h : b.WF) : b.rest.length ≤ b.remaining := by
  obtain ⟨e, he, -⟩ := h.tokens_fill
  have hsize : b.fill.tokens.size = b.input.length + 1 := by
    have := congrArg List.length he
    simpa using this
  have hg : b.fill.tokens.size ≤ b.tokens.size + (TokenSource.bound b.source + 1) :=
    pull_size_le _ b
  have hp := h.position_le
  simp only [rest, List.length_drop, remaining]
  omega

end Descent.Buffer
