import Descent.Proofs.Tracking
import Descent.Proofs.Transparency

/-! Two parsers side by side. They have the same tokens in front of them, but for
the places these stand in, and all they keep agrees, but for places and for a number
of tokens that the second has taken before. What the operations on a state do to one
they do to the other. The input of the first may end sooner; then the two have the
same tokens in front of them up to that end, and nothing is said of parsers that
recover. -/

namespace Descent

namespace RawTree

mutual

/-- A tree without the places in it. -/
def outline : RawTree → RawTree
  | leaf t error =>
    .leaf { type := t.type, text := t.text, line := 0, column := 0, start := 0, stop := 0,
            index := 0 } error
  | node rule _ recovered slots => .node rule 0 recovered (outlines slots)

def outlines : List (Option RawTree) → List (Option RawTree)
  | [] => []
  | none :: slots => none :: outlines slots
  | some t :: slots => some t.outline :: outlines slots

end

theorem outlines_append (slots more : List (Option RawTree)) :
    outlines (slots ++ more) = outlines slots ++ outlines more := by
  induction slots with
  | nil => rfl
  | cons slot slots ih =>
    cases slot with
    | none => simp only [List.cons_append, outlines, ih]
    | some t => simp only [List.cons_append, outlines, ih]

theorem outline_leaf {x y : Token} (htype : y.type = x.type) (htext : y.text = x.text)
    (error : Bool) : outline (.leaf y error) = outline (.leaf x error) := by
  simp only [outline, htype, htext]

theorem outline_node {slots slots' : List (Option RawTree)} (h : outlines slots' = outlines slots)
    (rule start start' : Nat) (recovered : Bool) :
    outline (.node rule start' recovered slots') = outline (.node rule start recovered slots) := by
  rw [outline, outline, h]

end RawTree

namespace Buffer

variable {σ : Type} [TokenSource σ]

theorem ahead_eq_whole (b : Buffer σ) (k : Nat) : b.ahead (k + 1) =
    b.whole.tokens.getD (min (b.position + k) (b.whole.tokens.size - 1)) (Token.atEnd 0 0 0) := by
  unfold ahead peek tokenAt
  rw [fill_position]
  rfl

theorem ahead_consume {b : Buffer σ} (hne : (b.ahead 1).type ≠ eof) (k : Nat) :
    b.consume.2.ahead (k + 1) = b.ahead (k + 2) := by
  obtain ⟨-, hposition, hwhole⟩ := consume_of_ne hne
  rw [ahead_eq_whole, ahead_eq_whole, hwhole, hposition, Nat.add_right_comm, Nat.add_assoc]

end Buffer

namespace Calc

open Descent.Parser RawTree

/-- How two parsers go together: which tokens may stand for each other, how many the
second has taken more, whether the input of the first may end sooner, and the caches
that theirs have grown from. -/
structure Link where
  tokens : Token → Token → Prop
  alike : ∀ {x y : Token}, tokens x y → y.type = x.type ∧ y.text = x.text
  shift : Nat
  closed : Bool
  left : PredictionCache
  right : PredictionCache

theorem Link.display_eq {l : Link} {x y : Token} (h : l.tokens x y) : y.display = x.display := by
  obtain ⟨htype, htext⟩ := l.alike h
  rw [Token.display, Token.display, Token.isEof, Token.isEof, htype, htext]

variable {σ : Type} [TokenSource σ] {l : Link} {base : List (Option RawTree)} {s t u v : State σ}

/-- The same said of two tokens that may stand for each other. -/
def Echo (l : Link) (e f : SyntaxError) : Prop :=
  ∃ x y message, l.tokens x y ∧ e = .report x.line x.column message ∧
    f = .report y.line y.column message

/-- A parser that has seen no error, over an input that is empty or ends in a
semicolon. -/
structure Calm (s : State σ) : Prop where
  recovering : s.recovering = false
  errors : s.errors = []
  lastError : s.lastError? = none
  closing : ∀ x ∈ s.rest.getLast?, x.type = semi

/-- What rules are open and what they have attached does not matter, nor the cache. -/
theorem Calm.of_eq (h : Calm s) (hrecovering : u.recovering = s.recovering)
    (herrors : u.errors = s.errors) (hlast : u.lastError? = s.lastError?)
    (hrest : u.rest = s.rest) : Calm u :=
  ⟨hrecovering.trans h.recovering, herrors.trans h.errors, hlast.trans h.lastError,
    hrest ▸ h.closing⟩

/-- The second parser is where the first one is. What it had attached before is
`base`. -/
structure Twin (l : Link) (base : List (Option RawTree)) (s t : State σ) : Prop where
  buffer : s.buffer.WF
  buffer' : t.buffer.WF
  ahead : ∀ k, (l.closed = true → k < s.rest.length) →
    l.tokens (s.buffer.ahead (k + 1)) (t.buffer.ahead (k + 1))
  index : t.index = s.index + l.shift
  vocabulary : t.vocabulary = s.vocabulary
  follow : t.follow = s.follow
  maxDepth : t.maxDepth = s.maxDepth
  recovering : t.recovering = s.recovering
  lastError : t.lastError? = s.lastError?.map (· + l.shift)
  errors : List.Forall₂ (Echo l) s.errors t.errors
  slots : ∃ more, t.slots = base ++ more ∧ outlines more = outlines s.slots
  calm : l.closed = true → Calm s

/-- There is a token in front of the first parser, if its input may end sooner. -/
def Facing (l : Link) (s : State σ) : Prop := l.closed = true → s.rest ≠ []

theorem Facing.pos (h : Facing l s) (hclosed : l.closed = true) : 0 < s.rest.length :=
  List.length_pos_iff.mpr (h hclosed)

namespace Twin

theorem current (h : Twin l base s t) (hf : Facing l s) : l.tokens s.current t.current :=
  h.ahead 0 hf.pos

theorem type_eq (h : Twin l base s t) (hf : Facing l s) : t.current.type = s.current.type :=
  (l.alike (h.current hf)).1

theorem recoverySet_eq (h : Twin l base s t) : t.recoverySet = s.recoverySet := by
  rw [State.recoverySet, State.recoverySet, h.follow]

theorem extraneous_eq (h : Twin l base s t) (hf : Facing l s) (expecting : TokenSet) :
    t.extraneous expecting = s.extraneous expecting := by
  unfold State.extraneous
  rw [Link.display_eq (h.current hf), h.vocabulary]

theorem missing_eq (h : Twin l base s t) (hf : Facing l s) (x : TokenType) :
    t.missing x = s.missing x := by
  unfold State.missing
  rw [Link.display_eq (h.current hf), h.vocabulary]

theorem filler_eq (h : Twin l base s t) (x : TokenType) : t.filler x = s.filler x := by
  unfold State.filler
  rw [h.vocabulary]

theorem reach (h : Twin l base s t) (j k : Nat) : Twin l base (s.reach j) (t.reach k) where
  buffer := h.buffer.reach j
  buffer' := h.buffer'.reach k
  ahead := by
    intro i hi
    rw [State.rest_reach] at hi
    simpa [State.reach] using h.ahead i hi
  index := by rw [State.index_reach, State.index_reach, h.index]
  vocabulary := h.vocabulary
  follow := h.follow
  maxDepth := h.maxDepth
  recovering := h.recovering
  lastError := h.lastError
  errors := h.errors
  slots := h.slots
  calm hclosed := (h.calm hclosed).of_eq rfl rfl rfl (s.rest_reach j)

theorem attach (h : Twin l base s t) {tree tree' : RawTree} (ht : tree'.outline = tree.outline) :
    Twin l base (s.attach tree) (t.attach tree') := by
  obtain ⟨more, hmore, houtlines⟩ := h.slots
  refine { h with slots := ⟨more ++ [some tree'], ?_, ?_⟩, calm := fun hclosed => ?_ }
  · rw [State.attach, hmore, List.append_assoc]
  · simp only [State.attach, outlines_append, houtlines, outlines, ht]
  · exact (h.calm hclosed).of_eq rfl rfl rfl rfl

/-- Decisions are a matter of the caches. -/
theorem decide (h : Twin l base s t) (c c' : PredictionCache) (d k : Nat)
    (f : Lookahead → Option Nat) : Twin l base (s.decide c d k f) (t.decide c' d k f) :=
  { h.reach k k with
    calm := fun hclosed => (h.calm hclosed).of_eq rfl rfl rfl (s.rest_reach k) }

/-- Both take the current token into their trees. -/
theorem consume (h : Twin l base s t) (hf : Facing l s) (hne : s.current.type ≠ eof)
    (error : Bool) : Twin l base (s.consume error) (t.consume error) := by
  have hne' : t.current.type ≠ eof := by rwa [h.type_eq hf]
  obtain ⟨htype, htext⟩ := l.alike (h.current hf)
  obtain ⟨more, hmore, houtlines⟩ := h.slots
  have hrest : (s.consume error).rest = s.rest.tail := Buffer.consume_rest hne
  have hindex (s : State σ) (hne : s.current.type ≠ eof) :
      (s.consume error).index = s.index + 1 := (Buffer.consume_of_ne hne).2.1
  refine ⟨h.buffer.consume, h.buffer'.consume, fun k hk => ?_, ?_, h.vocabulary, h.follow,
    h.maxDepth, h.recovering, h.lastError, h.errors, ?_, fun hclosed => ?_⟩
  · have hahead (s : State σ) (hne : s.current.type ≠ eof) :
        (s.consume error).buffer.ahead (k + 1) = s.buffer.ahead (k + 2) :=
      Buffer.ahead_consume hne k
    rw [hahead s hne, hahead t hne']
    refine h.ahead (k + 1) fun hclosed => ?_
    have hlt := hk hclosed
    rw [hrest, List.length_tail] at hlt
    omega
  · rw [hindex s hne, hindex t hne', h.index, Nat.add_right_comm]
  · rw [State.consume_eq, State.consume_eq]
    refine ⟨more ++ [some (.leaf t.current error)], by rw [hmore, List.append_assoc], ?_⟩
    rw [outlines_append, outlines_append, houtlines]
    simp only [outlines, outline_leaf htype htext]
  · refine ⟨(h.calm hclosed).recovering, (h.calm hclosed).errors, (h.calm hclosed).lastError, ?_⟩
    rw [hrest]
    intro x hx
    refine (h.calm hclosed).closing x ?_
    rw [List.getLast?_tail] at hx
    split at hx
    · cases hx
    · exact hx

theorem settle (h : Twin l base s t) :
    Twin l base { s with recovering := false } { t with recovering := false } :=
  { h with
    recovering := rfl
    calm := fun hclosed => (h.calm hclosed).of_eq (h.calm hclosed).recovering.symm rfl rfl rfl }

theorem take (h : Twin l base s t) (hf : Facing l s) (hne : s.current.type ≠ eof) :
    Twin l base s.take t.take := h.settle.consume hf hne false

/-- Behind a token that is not the last there is one more. -/
theorem facing_take (h : Twin l base s t) (hne : s.current.type ≠ eof)
    (hsemi : s.current.type ≠ semi) : Facing l s.take := by
  intro hclosed hnil
  obtain ⟨ts, hrest⟩ := State.rest_eq_cons h.buffer hne
  have htake : s.take.rest = s.rest.tail := Buffer.consume_rest hne
  rw [htake, hrest, List.tail_cons] at hnil
  exact hsemi ((h.calm hclosed).closing s.current (by rw [hrest, hnil]; rfl))

theorem openRule (h : Twin l base s t) (follow : TokenSet) :
    Twin l [] (s.openRule follow) (t.openRule follow) :=
  { h with
    follow := congrArg (follow :: ·) h.follow
    slots := ⟨[], rfl, rfl⟩
    calm := fun hclosed => (h.calm hclosed).of_eq rfl rfl rfl rfl }

/-- Back in the rule around. -/
theorem closeRule (hu : Twin l [] u v) (h : Twin l base s t) :
    Twin l base (u.closeRule s) (v.closeRule t) :=
  { hu with
    follow := congrArg List.tail hu.follow
    slots := h.slots
    calm := fun hclosed => (hu.calm hclosed).of_eq rfl rfl rfl rfl }

/-- The trees of a rule that has come to its end. -/
theorem outline_eq (hu : Twin l [] u v) (rule start start' : Nat) (recovered : Bool) :
    (RawTree.node rule start' recovered v.slots).outline =
      (RawTree.node rule start recovered u.slots).outline := by
  obtain ⟨more, hmore, houtlines⟩ := hu.slots
  rw [hmore, List.nil_append]
  exact outline_node houtlines rule start start' recovered

theorem lastError_iff (h : Twin l base s t) :
    t.lastError? = some t.index ↔ s.lastError? = some s.index := by
  rw [h.lastError, h.index]
  cases s.lastError? <;> simp

section Open

/-! What holds of parsers whose inputs end together. -/

variable (hopen : l.closed = false)

include hopen

theorem facing_open (s : State σ) : Facing l s := fun hclosed =>
  absurd (hopen.symm.trans hclosed) Bool.false_ne_true

theorem report (h : Twin l base s t) {x y : Token} (hxy : l.tokens x y) (message : String) :
    Twin l base (s.report x message) (t.report y message) := by
  rw [State.report_eq, State.report_eq]
  refine { h with recovering := rfl, errors := ?_, calm := fun hclosed => ?_ }
  · unfold State.errorsAfter
    rw [h.recovering]
    split
    · exact h.errors
    · exact List.rel_append h.errors (.cons ⟨x, y, message, hxy, rfl, rfl⟩ .nil)
  · exact absurd (hopen.symm.trans hclosed) Bool.false_ne_true

theorem reportHere (h : Twin l base s t) (message : String) :
    Twin l base (s.reportHere message) (t.reportHere message) := by
  have hf := facing_open hopen s
  have hreport := (h.reach 1 1).report hopen (h.current hf) message
  rwa [← State.peek_one s, ← State.peek_one t] at hreport

theorem drop (h : Twin l base s t) (hne : s.current.type ≠ eof) (message : String) :
    Twin l base (s.drop message) (t.drop message) := by
  refine (h.reportHere hopen message).consume (facing_open hopen _) ?_ true
  rw [State.reportHere_eq]
  exact (State.current_reach s 1).symm ▸ hne

theorem conjure (h : Twin l base s t) (x : TokenType) (text message : String) :
    Twin l base (s.conjure x text message) (t.conjure x text message) :=
  (h.reportHere hopen message).attach (outline_leaf rfl rfl true)

theorem forceProgress (h : Twin l base s t) : Twin l base s.forceProgress t.forceProgress := by
  rw [State.forceProgress_eq, State.forceProgress_eq, h.type_eq (facing_open hopen s)]
  by_cases hlast : s.lastError? = some s.index
  · rw [if_pos hlast, if_pos (h.lastError_iff.mpr hlast)]
    split
    · exact h.reach 1 1
    · next hne => exact h.consume (facing_open hopen s) hne true
  · rw [if_neg hlast, if_neg (mt h.lastError_iff.mp hlast)]
    exact h

theorem remember (h : Twin l base s t) :
    Twin l base { s with lastError? := some s.index } { t with lastError? := some t.index } :=
  { h with
    lastError := by rw [h.index]; rfl
    calm := fun hclosed => absurd (hopen.symm.trans hclosed) Bool.false_ne_true }

/-- Skipping stops at the same token, with whatever number of tokens it is allowed,
as long as it is allowed the rest of the input. -/
theorem skipTo (h : Twin l base s t) {set : TokenSet} (hset : set.contains eof = true) (n m : Nat)
    (hn : s.rest.length < n) (hm : t.rest.length < m) :
    Twin l base (s.skipTo set n) (t.skipTo set m) := by
  induction n generalizing s t m with
  | zero => omega
  | succ n ih =>
    obtain ⟨m, rfl⟩ := Nat.exists_eq_succ_of_ne_zero (Nat.ne_of_gt (Nat.zero_lt_of_lt hm))
    have htype := h.type_eq (facing_open hopen s)
    simp only [State.skipTo, State.la_one, htype]
    split
    · exact h.reach 1 1
    · next hc =>
      have hne : s.current.type ≠ eof := fun e => hc (e ▸ hset)
      have hless (s : State σ) (hwf : s.buffer.WF) (hne : s.current.type ≠ eof) :
          ((s.reach 1).consume true).rest.length < s.rest.length := by
        obtain ⟨ts, hrest⟩ := State.rest_eq_cons hwf hne
        have htail : ((s.reach 1).consume true).rest = (s.reach 1).rest.tail :=
          Buffer.consume_rest (b := (s.reach 1).buffer) (by rwa [State.reach, Buffer.ahead_reach])
        rw [htail, State.rest_reach, hrest]
        exact Nat.lt_succ_self _
      have hs := hless s h.buffer hne
      have ht := hless t h.buffer' (htype ▸ hne)
      refine ih ((h.reach 1 1).consume (facing_open hopen _)
        ((State.current_reach s 1).symm ▸ hne) true) m ?_ ?_
      · omega
      · omega

theorem recover (h : Twin l base s t) : Twin l base s.recover t.recover := by
  have hforced := (h.forceProgress hopen).remember hopen
  have hset := hforced.recoverySet_eq
  unfold State.recover
  dsimp only
  rw [hset]
  refine hforced.skipTo hopen ((State.recoverySet_contains _ eof).mpr (Or.inl rfl)) _ _ ?_ ?_
  · exact Nat.lt_succ_of_le hforced.buffer.rest_le
  · exact Nat.lt_succ_of_le hforced.buffer'.rest_le

/-- Both refuse a rule. -/
theorem refuse (h : Twin l base s t) : Twin l base s.refuse t.refuse := by
  unfold State.refuse
  rw [h.maxDepth, Link.display_eq (h.current (facing_open hopen s))]
  exact ((h.reach 1 1).reportHere hopen _).recover hopen

end Open

end Twin

end Calc

end Descent
