import Descent.Proofs.Stream
import Mathlib.Data.Nat.Find

/-! A lazy buffer against an eager list. Take any source that gives some tokens and
then the end of the input for ever, and lay these tokens out in one list, numbered.
Whatever is asked of a buffer over the source is answered as a cursor over that list
answers it, as long as the places asked for are machine words. The buffer holds the list
as far as anybody has looked, and has called its source once for each token it holds, so
never again after the first end of the input. Of a place that is too large for a word a
cursor gives the last token of the list; a buffer stops there, or shows a token that it
has left behind. -/

namespace Descent

section Sources

variable {σ : Type}

/-- A source after `n` calls. -/
def called (next : σ → Token × σ) (n : Nat) (s : σ) : σ := (fun s => (next s).2)^[n] s

/-- What call number `n` gives, counted from zero. -/
def given (next : σ → Token × σ) (s : σ) (n : Nat) : Token := (next (called next n s)).1

theorem called_succ (next : σ → Token × σ) (n : Nat) (s : σ) :
    called next (n + 1) s = (next (called next n s)).2 :=
  Function.iterate_succ_apply' _ n s

theorem given_succ (next : σ → Token × σ) (s : σ) (n : Nat) :
    given next s (n + 1) = given next (next s).2 n := rfl

/-- The states from which a source comes to the end of the input for good. -/
def Ending (next : σ → Token × σ) : Type :=
  { s : σ // ∃ n, ∀ i, n ≤ i → (given next s i).type = eof }

namespace Ending

variable {next : σ → Token × σ}

/-- A call leads to such a state again. -/
def call (s : Ending next) : Token × Ending next :=
  ((next s.1).1, ⟨(next s.1).2, by
    obtain ⟨n, hn⟩ := s.2
    exact ⟨n, fun i hi => given_succ next s.1 i ▸ hn (i + 1) (Nat.le_succ_of_le hi)⟩⟩)

theorem exists_eof (s : Ending next) : ∃ n, (given next s.1 n).type = eof := by
  obtain ⟨n, hn⟩ := s.2
  exact ⟨n, hn n (Nat.le_refl n)⟩

/-- In such a state the number of calls up to the end is what each call makes
smaller. -/
instance : TokenSource (Ending next) where
  next := call
  bound s := Nat.find s.exists_eof
  next_bound := by
    intro s hne
    have hfound := Nat.find_spec s.exists_eof
    cases hk : Nat.find s.exists_eof with
    | zero =>
      rw [hk] at hfound
      exact absurd hfound hne
    | succ k =>
      rw [hk, given_succ] at hfound
      exact Nat.lt_succ_of_le (Nat.find_min' (call s).2.exists_eof hfound)

end Ending

end Sources

namespace Buffer

/-- What may be asked of a buffer. -/
inductive Op where
  | lt (k : UInt64)
  | la (k : UInt64)
  | lookahead (n : UInt64)
  | consume
  | fill
  | get (i : Nat)
  | tokens
  deriving DecidableEq, Repr

/-- Asked at a position, an operation stays within the words: tokens ahead are counted
from one, every place is a word, and a list can hold the types. -/
def Op.Fits (position : Nat) : Op → Prop
  | lt k => 1 ≤ k.toNat ∧ position + (k.toNat - 1) < UInt64.size
  | la k => 1 ≤ k.toNat ∧ position + (k.toNat - 1) < UInt64.size
  | lookahead n => n.toNat ≤ maxTypes ∧ position + n.toNat ≤ UInt64.size
  | _ => True

instance (position : Nat) (op : Op) : Decidable (op.Fits position) :=
  match op with
  | .lt _ | .la _ | .lookahead _ => inferInstanceAs (Decidable (_ ∧ _))
  | .consume | .fill | .get _ | .tokens => inferInstanceAs (Decidable True)

inductive Answer where
  | token (t : Token)
  | type (t : TokenType)
  | types (ts : List TokenType)
  | filled
  | entry (t? : Option Token)
  | buffered (ts : List Token)
  deriving DecidableEq, Repr

variable {σ : Type} [TokenSource σ]

/-- The answer to one operation, unless the program stops. -/
def step (build : Build) (b : Buffer σ) : Op → Option (Answer × Buffer σ)
  | .lt k => do let (t, b) ← b.lt build k; return (.token t, b)
  | .la k => do let (t, b) ← b.la build k; return (.type t, b)
  | .lookahead n => do let (ts, b) ← b.lookahead build n; return (.types ts, b)
  | .consume => let (t, b) := b.consume; some (.token t, b)
  | .fill => some (.filled, b.fill)
  | .get i => some (.entry b.tokens[i]?, b)
  | .tokens => some (.buffered b.tokens.toList, b)

/-- The answers to one operation after another, and what has become of the buffer. -/
def run (build : Build) : Buffer σ → List Op → Option (List Answer × Buffer σ)
  | b, [] => some ([], b)
  | b, op :: ops => do
    let (answer, b) ← b.step build op
    let (answers, b) ← run build b ops
    return (answer :: answers, b)

/-- A cursor over a list of tokens. -/
structure Cursor where
  position : Nat := 0
  /-- One more than the largest position that was requested so far. -/
  requested : Nat := 0
  filled : Bool := false

namespace Cursor

/-- How much of the list has been requested. -/
def shown (T : List Token) (c : Cursor) : Nat :=
  if c.filled then T.length else min T.length c.requested

def request (c : Cursor) (i : Nat) : Cursor := { c with requested := max c.requested (i + 1) }

/-- The token at a position, and beyond the list its last one. -/
def clamped (T : List Token) (i : Nat) : Token :=
  T.getD (min i (T.length - 1)) (Token.atEnd 0 0 0)

def step (T : List Token) (c : Cursor) : Op → Answer × Cursor
  | .lt k =>
    (.token (clamped T (c.position + (k.toNat - 1))), c.request (c.position + (k.toNat - 1)))
  | .la k =>
    (.type (clamped T (c.position + (k.toNat - 1))).type,
      c.request (c.position + (k.toNat - 1)))
  | .lookahead n =>
    (.types ((List.range n.toNat).map fun i => (clamped T (c.position + i)).type),
      if n.toNat = 0 then c else c.request (c.position + (n.toNat - 1)))
  | .consume =>
    (.token (clamped T c.position),
      { c.request c.position with position := min (c.position + 1) (T.length - 1) })
  | .fill => (.filled, { c with filled := true })
  | .get i => (.entry (T.take (c.shown T))[i]?, c)
  | .tokens => (.buffered (T.take (c.shown T)), c)

def run (T : List Token) : Cursor → List Op → List Answer × Cursor
  | c, [] => ([], c)
  | c, op :: ops =>
    let (answer, c) := c.step T op
    let (answers, c) := run T c ops
    (answer :: answers, c)

/-- Every operation of a run stays within the words where it is asked. -/
def Fits (T : List Token) : Cursor → List Op → Prop
  | _, [] => True
  | c, op :: ops => op.Fits c.position ∧ Fits T (c.step T op).2 ops

instance decidableFits (T : List Token) : (c : Cursor) → (ops : List Op) → Decidable (Fits T c ops)
  | _, [] => inferInstanceAs (Decidable True)
  | c, op :: ops =>
    have := decidableFits T (c.step T op).2 ops
    inferInstanceAs (Decidable (op.Fits c.position ∧ Fits T (c.step T op).2 ops))

theorem shown_request (T : List Token) (c : Cursor) (i : Nat) :
    (c.request i).shown T = min T.length (max (c.shown T) (i + 1)) := by
  cases hf : c.filled with
  | true =>
    simp only [shown, request, hf, ↓reduceIte]
    omega
  | false =>
    simp only [shown, request, hf, Bool.false_eq_true, ↓reduceIte]
    omega

theorem request_request (c : Cursor) {i j : Nat} (h : i ≤ j) :
    (c.request i).request j = c.request j := by
  have hmax : max (max c.requested (i + 1)) (j + 1) = max c.requested (j + 1) := by omega
  simp only [request, hmax]

end Cursor

/-- `T` lists what a source gives, numbered, up to the first end of the input. -/
structure Lists (source : σ) (T : List Token) : Prop where
  pos : 0 < T.length
  get : ∀ n < T.length, T[n]? = some { given TokenSource.next source n with index := n }
  last : ∀ n < T.length,
    ((given TokenSource.next source n).isEof = true ↔ n + 1 = T.length)

/-- A buffer that has drawn the first `n` tokens of `T`, by as many calls. -/
structure Holds (T : List Token) (source : σ) (n : Nat) (b : Buffer σ) : Prop where
  tokens : b.tokens.toList = T.take n
  le : n ≤ T.length
  ended : b.ended = true ↔ n = T.length
  source : b.source = called TokenSource.next n source

namespace Holds

variable {T : List Token} {source : σ} {n : Nat} {b : Buffer σ}

theorem size (h : Holds T source n b) : b.tokens.size = n := by
  have hlen := congrArg List.length h.tokens
  have hle := h.le
  rw [List.length_take, Array.length_toList] at hlen
  omega

theorem fetch (hT : Lists source T) (h : Holds T source n b) (hn : n < T.length) :
    Holds T source (n + 1) b.fetch := by
  have hnext : (TokenSource.next b.source).1 = given TokenSource.next source n := by
    rw [h.source]
    rfl
  refine ⟨?_, hn, ?_, ?_⟩
  · have hpush : b.fetch.tokens.toList =
        b.tokens.toList ++ [{ (TokenSource.next b.source).1 with index := b.tokens.size }] :=
      Array.toList_push
    rw [hpush, List.take_add_one, hT.get n hn, h.tokens, hnext, h.size]
    rfl
  · show (TokenSource.next b.source).1.isEof = true ↔ _
    rw [hnext]
    exact hT.last n hn
  · rw [called_succ, ← h.source]
    rfl

/-- Drawing goes on to the end of the list and no further. -/
theorem pull (hT : Lists source T) (h : Holds T source n b) (k : Nat) :
    Holds T source (min T.length (n + k)) (pull k b) := by
  have hle := h.le
  induction k generalizing n b with
  | zero =>
    rw [Nat.add_zero, Nat.min_eq_right hle]
    exact h
  | succ k ih =>
    unfold Buffer.pull
    by_cases he : b.ended = true
    · have hn := h.ended.mp he
      rw [if_pos he, Nat.min_eq_left (by omega), ← hn]
      exact h
    · have hn : n ≠ T.length := fun e => he (h.ended.mpr e)
      have hgo := ih (h.fetch hT (by omega)) (by omega)
      rw [if_neg he]
      rwa [Nat.add_assoc, Nat.add_comm 1 k] at hgo

theorem reach (hT : Lists source T) (h : Holds T source n b) (k : Nat) :
    Holds T source (min T.length (max n (b.position + k))) (b.reach k) := by
  have hgo := h.pull hT (b.position + k - b.tokens.size)
  have hmax : n + (b.position + k - b.tokens.size) = max n (b.position + k) := by
    rw [h.size]
    omega
  rw [hmax] at hgo
  exact hgo

theorem fill (hT : Lists source T) (h : Holds T source n b) :
    Holds T source T.length b.fill := by
  have hgo : Holds T source _ b.fill := h.pull hT (TokenSource.bound b.source + 1)
  have hend := hgo.ended.mp (fill_ended b)
  rwa [hend] at hgo

/-- A token that was drawn, or is beyond the end, is the one of the list. -/
theorem tokenAt (h : Holds T source n b) (hT : 0 < T.length) {i : Nat}
    (hi : min T.length (i + 1) ≤ n) : b.tokenAt i = Cursor.clamped T i := by
  have hle := h.le
  have hmin : min i (n - 1) = min i (T.length - 1) := by omega
  have hlt : min i (T.length - 1) < n := by omega
  rw [Buffer.tokenAt, Cursor.clamped, h.size, hmin, Array.getD_eq_getD_getElem?,
    ← Array.getElem?_toList, h.tokens, List.getElem?_take_of_lt hlt, List.getD_eq_getElem?_getD]

end Holds

/-- A buffer that stands where a cursor over the list of its source stands, and holds
what was requested there. -/
structure Follows (T : List Token) (source : σ) (b : Buffer σ) (c : Cursor) : Prop where
  holds : Holds T source (c.shown T) b
  position : b.position = c.position
  inside : c.position < T.length
  drawn : c.position ≤ c.shown T

namespace Follows

variable {T : List Token} {source : σ} {b : Buffer σ} {c : Cursor}

theorem ofSource (hT : Lists source T) : Follows T source (Buffer.ofSource source) {} := by
  have hshown : Cursor.shown T {} = 0 := Nat.min_zero _
  have hpos := hT.pos
  refine ⟨?_, rfl, hpos, Nat.zero_le _⟩
  rw [hshown]
  refine ⟨rfl, Nat.zero_le _, ?_, rfl⟩
  show false = true ↔ 0 = T.length
  simp only [Bool.false_eq_true, false_iff]
  omega

/-- A look ahead is a request. -/
theorem reach (hT : Lists source T) (h : Follows T source b c) (i : Nat) :
    Follows T source (b.reach (i + 1)) (c.request (c.position + i)) := by
  have hshown := Cursor.shown_request T c (c.position + i)
  have hinside := h.inside
  have hdrawn := h.drawn
  refine ⟨?_, (reach_position b _).trans h.position, hinside, ?_⟩
  · have hgo := h.holds.reach hT (i + 1)
    rw [h.position] at hgo
    rw [hshown]
    exact hgo
  · show c.position ≤ _
    omega

/-- What a look ahead shows. -/
theorem ahead (hT : Lists source T) (h : Follows T source b c) (i : Nat) :
    b.ahead (i + 1) = Cursor.clamped T (c.position + i) := by
  have hholds := h.holds.fill hT
  rw [Buffer.ahead, peek, Nat.add_sub_cancel, hholds.tokenAt hT.pos (Nat.min_le_left _ _),
    fill_position, h.position]

/-- A look ahead to a word in either build. -/
theorem lt (hT : Lists source T) (h : Follows T source b c) (build : Build) {k : UInt64}
    (hk : 1 ≤ k.toNat) (hi : c.position + (k.toNat - 1) < UInt64.size) :
    ∃ b', b.lt build k = some (Cursor.clamped T (c.position + (k.toNat - 1)), b') ∧
      Follows T source b' (c.request (c.position + (k.toNat - 1))) := by
  have hplace : b.position + (k.toNat - 1) < UInt64.size := h.position ▸ hi
  have hlook := lt_of_fits build b hk hplace
  obtain ⟨i, hi'⟩ := Nat.exists_eq_add_of_le' hk
  rw [hi'] at hlook ⊢
  rw [h.ahead hT i] at hlook
  exact ⟨_, hlook, h.reach hT i⟩

theorem la (hT : Lists source T) (h : Follows T source b c) (build : Build) {k : UInt64}
    (hk : 1 ≤ k.toNat) (hi : c.position + (k.toNat - 1) < UInt64.size) :
    ∃ b', b.la build k = some ((Cursor.clamped T (c.position + (k.toNat - 1))).type, b') ∧
      Follows T source b' (c.request (c.position + (k.toNat - 1))) := by
  obtain ⟨b', hlook, hgo⟩ := h.lt hT build hk hi
  refine ⟨b', ?_, hgo⟩
  rw [Buffer.la, hlook]
  rfl

/-- Looks one after another are a request for the last of their places. -/
theorem looks (hT : Lists source T) (h : Follows T source b c) (build : Build) {n p : Nat}
    {k : UInt64} (hk : 1 ≤ k.toNat) (hp : c.position + (k.toNat - 1) = p)
    (hword : k.toNat + n < UInt64.size) (hfits : p + n ≤ UInt64.size) :
    ∃ b', b.looks build n k =
        some ((List.range n).map fun i => (Cursor.clamped T (p + i)).type, b') ∧
      Follows T source b' (if n = 0 then c else c.request (p + (n - 1))) := by
  induction n generalizing b c k p with
  | zero => exact ⟨b, rfl, h⟩
  | succ n ih =>
    -- the word counts up along with the place, and comes to its end only behind the last look
    have hnext : (k + 1).toNat = k.toNat + 1 := by
      have hlt : k.toNat + 1 < UInt64.size := by omega
      exact (UInt64.toNat_add k 1).trans (Nat.mod_eq_of_lt hlt)
    obtain ⟨b₁, hfirst, h₁⟩ := h.la hT build hk (by omega)
    rw [hp] at hfirst h₁
    have hp₁ : (c.request p).position + ((k + 1).toNat - 1) = p + 1 := by
      show c.position + _ = _
      omega
    obtain ⟨b₂, hrest, h₂⟩ := ih h₁ (by omega) hp₁ (by omega) (by omega)
    refine ⟨b₂, ?_, ?_⟩
    · simp only [Buffer.looks, hfirst, hrest, Option.bind_eq_bind, Option.bind_some,
        Option.pure_def, List.range_succ_eq_map, List.map_cons, List.map_map, Nat.add_zero,
        Function.comp_def, Nat.succ_eq_add_one, Nat.add_assoc, Nat.add_comm 1]
    · cases n with
      | zero => exact h₂
      | succ n =>
        have hlast : p + 1 + (n + 1 - 1) = p + (n + 1 + 1 - 1) := by omega
        rw [if_neg (Nat.succ_ne_zero n), Cursor.request_request c (by omega), hlast] at h₂
        exact h₂

theorem lookahead (hT : Lists source T) (h : Follows T source b c) (build : Build) {n : UInt64}
    (hn : n.toNat ≤ maxTypes) (hfits : c.position + n.toNat ≤ UInt64.size) :
    ∃ b', b.lookahead build n =
        some ((List.range n.toNat).map fun i => (Cursor.clamped T (c.position + i)).type, b') ∧
      Follows T source b'
        (if n.toNat = 0 then c else c.request (c.position + (n.toNat - 1))) := by
  have hword : (1 : UInt64).toNat + n.toNat < UInt64.size := by
    have hmax : 1 + maxTypes < UInt64.size := by decide
    exact Nat.lt_of_le_of_lt (Nat.add_le_add_left hn 1) hmax
  rw [Buffer.lookahead, if_pos hn]
  exact h.looks hT build (Nat.le_refl 1) rfl hword hfits

/-- Taking a token moves both by one, except at the last. -/
theorem consume (hT : Lists source T) (h : Follows T source b c) :
    b.consume.1 = Cursor.clamped T c.position ∧
      Follows T source b.consume.2
        { c.request c.position with position := min (c.position + 1) (T.length - 1) } := by
  have hinside := h.inside
  have hreach := h.reach hT 0
  have htoken : b.ahead 1 = Cursor.clamped T c.position := h.ahead hT 0
  have hget : Cursor.clamped T c.position =
      { given TokenSource.next source c.position with index := c.position } := by
    rw [Cursor.clamped, Nat.min_eq_left (by omega), List.getD_eq_getElem?_getD,
      hT.get _ hinside]
    rfl
  have heof : (b.ahead 1).isEof = true ↔ c.position + 1 = T.length := by
    rw [htoken, hget]
    exact hT.last _ hinside
  have hdrawn : c.position + 1 ≤ (c.request c.position).shown T := by
    rw [Cursor.shown_request]
    omega
  rw [consume_eq]
  refine ⟨htoken, ?_⟩
  by_cases he : (b.ahead 1).isEof = true
  · have hlast := heof.mp he
    have hmin : min (c.position + 1) (T.length - 1) = c.position := by omega
    rw [if_pos he, hmin]
    exact hreach
  · have hmore : c.position + 1 ≠ T.length := fun e => he (heof.mpr e)
    have hmin : min (c.position + 1) (T.length - 1) = c.position + 1 := by omega
    have hholds := hreach.holds
    rw [if_neg he, hmin]
    refine ⟨⟨hholds.tokens, hholds.le, hholds.ended, hholds.source⟩, ?_, ?_, hdrawn⟩
    · show b.position + 1 = c.position + 1
      rw [h.position]
    · show c.position + 1 < T.length
      omega

theorem fill (hT : Lists source T) (h : Follows T source b c) :
    Follows T source b.fill { c with filled := true } :=
  ⟨h.holds.fill hT, (fill_position b).trans h.position, h.inside, Nat.le_of_lt h.inside⟩

/-- Whatever is asked within the words, both answer the same and go on together. -/
theorem step (hT : Lists source T) (h : Follows T source b c) (build : Build) {op : Op}
    (hop : op.Fits c.position) :
    ∃ b', b.step build op = some ((c.step T op).1, b') ∧ Follows T source b' (c.step T op).2 := by
  cases op with
  | lt k =>
    obtain ⟨b', hlook, hgo⟩ := h.lt hT build hop.1 hop.2
    refine ⟨b', ?_, hgo⟩
    rw [Buffer.step, hlook]
    rfl
  | la k =>
    obtain ⟨b', hlook, hgo⟩ := h.la hT build hop.1 hop.2
    refine ⟨b', ?_, hgo⟩
    rw [Buffer.step, hlook]
    rfl
  | lookahead n =>
    obtain ⟨b', hlook, hgo⟩ := h.lookahead hT build hop.1 hop.2
    refine ⟨b', ?_, hgo⟩
    rw [Buffer.step, hlook]
    rfl
  | consume =>
    obtain ⟨htoken, hgo⟩ := h.consume hT
    exact ⟨_, congrArg (fun t => some (Answer.token t, b.consume.2)) htoken, hgo⟩
  | fill => exact ⟨_, rfl, h.fill hT⟩
  | get i =>
    have hentry : b.tokens[i]? = (T.take (c.shown T))[i]? := by
      rw [← Array.getElem?_toList, h.holds.tokens]
    exact ⟨b, congrArg (fun t? => some (Answer.entry t?, b)) hentry, h⟩
  | tokens => exact ⟨b, congrArg (fun ts => some (Answer.buffered ts, b)) h.holds.tokens, h⟩

theorem run (hT : Lists source T) (h : Follows T source b c) (build : Build) {ops : List Op}
    (hops : Cursor.Fits T c ops) :
    ∃ b', b.run build ops = some ((c.run T ops).1, b') ∧ Follows T source b' (c.run T ops).2 := by
  induction ops generalizing b c with
  | nil => exact ⟨b, rfl, h⟩
  | cons op ops ih =>
    obtain ⟨b₁, hanswer, h₁⟩ := h.step hT build hops.1
    obtain ⟨b₂, hanswers, h₂⟩ := ih h₁ hops.2
    refine ⟨b₂, ?_, h₂⟩
    simp only [Buffer.run, hanswer, hanswers, Option.bind_eq_bind, Option.bind_some,
      Option.pure_def, Cursor.run]

end Follows

section Letters

end Letters

end Buffer

end Descent
