import Descent.Proofs.Lockstep
import Descent.Proofs.Stream
import Descent.Proofs.Termination

/-! A matcher that gives up at some offsets. What the lexer will come to keep is known
from the start: the failure at the first slice of the text that begins at such an
offset. A parse beside one whose matcher never gives up either does the same, or has
drawn the end of the input too early, and then this failure is what it returns. -/

namespace Descent.Calc

/-- The first slice at which the matcher gives up. -/
def firstStall? (stalls : Nat → Bool) (before cs : List Char) : Option Slice :=
  (slices before cs).find? fun x => stalls x.place.offset

theorem firstStall?_eq {before cs text rest : List Char} {kind : Kind} (stalls : Nat → Bool)
    (hc : cut cs = some (kind, text, rest)) : firstStall? stalls before cs =
      if stalls (Place.behind before).offset = true then some ⟨before, kind, text⟩
      else firstStall? stalls (before ++ text) rest := by
  rw [firstStall?, slices_eq before hc, List.find?_cons]
  cases hs : stalls (Place.behind before).offset <;> simp [Slice.place, hs, firstStall?]

/-- What the lexer keeps when the matcher gives up at a slice. -/
def Slice.failure (x : Slice) : Failure :=
  .scanner x.place.line x.place.column "call limit reached"

namespace Lexer

/-- The same lexer with a matcher that never gives up. -/
def free (l : Lexer) : Lexer := { l with stalls := never }

/-- The failure that a lexer behind `before` keeps or will come to keep. -/
def fate (before : List Char) (l : Lexer) : Option Failure :=
  l.failure?.or ((firstStall? l.stalls before l.rest).map Slice.failure)

variable {before text rest : List Char} {kind : Kind} {l : Lexer}

theorem nextWithin_nil (n : Nat) (h : l.rest = []) : nextWithin n l = (l.atEnd, l) := by
  cases n with
  | zero => rfl
  | succ n => rw [nextWithin, h]

theorem nextWithin_stall (n : Nat) (hc : cut l.rest = some (kind, text, rest))
    (hs : l.stalls l.place.offset = true) : nextWithin (n + 1) l = (l.stop.atEnd, l.stop) := by
  cases hrest : l.rest with
  | nil => simp [hrest, cut] at hc
  | cons c cs =>
    rw [nextWithin, hrest]
    simp only [hs, if_true]

/-- One step over a slice: it makes a token, or the search goes on behind it. -/
def stepOver (n : Nat) (l : Lexer) (x : Slice) : Token × Lexer :=
  match x.kind with
  | .token t => (l.token t x.text.length, l.pass x)
  | _ => nextWithin n (l.pass x)

/-- Where the matcher does not give up, a step goes over the slice in front. -/
theorem nextWithin_cut (n : Nat) (before : List Char) (hc : cut l.rest = some (kind, text, rest))
    (hs : l.stalls l.place.offset = false) :
    nextWithin (n + 1) l = stepOver n l ⟨before, kind, text⟩ := by
  have htoken (t : TokenType) (k : Nat) : l.token t (l.rest.take k).length = l.token t k := by
    have htake : l.rest.take (l.rest.take k).length = l.rest.take k := by
      rw [List.length_take, List.take_eq_take_iff]
      omega
    simp only [Lexer.token, htake]
  cases hrest : l.rest with
  | nil => simp [hrest, cut] at hc
  | cons c cs =>
    rw [hrest] at hc
    simp only [cut] at hc
    split at hc
    · next hscan =>
      cases hc
      simp only [nextWithin, hrest, hs, Bool.false_eq_true, if_false, hscan]
      rfl
    · next k hscan =>
      cases hc
      simp only [nextWithin, hrest, hs, Bool.false_eq_true, if_false, hscan]
      rw [← hrest]
      simp only [stepOver, pass, skip_take]
    · next t k hscan =>
      cases hc
      simp only [nextWithin, hrest, hs, Bool.false_eq_true, if_false, hscan]
      rw [← hrest]
      simp only [stepOver, pass, skip_take, htoken]

/-- Where a lexer stands that has stepped over the slice in front. -/
theorem pass_spec (hplace : l.place = .behind before) (hf : l.failure? = none)
    (hc : cut l.rest = some (kind, text, rest)) :
    (l.pass ⟨before, kind, text⟩).place = .behind (before ++ text) ∧
      (l.pass ⟨before, kind, text⟩).rest = rest ∧
      (l.pass ⟨before, kind, text⟩).failure? = none ∧
      (l.pass ⟨before, kind, text⟩).stalls = l.stalls := by
  have hbehind : l.free.Behind before := ⟨⟨fun _ => rfl, hf⟩, hplace⟩
  have hcut : cut l.free.rest = some (kind, text, rest) := hc
  obtain ⟨hpass, hrest, -⟩ := hbehind.pass hcut
  cases kind with
  | token t => exact ⟨hpass.place, hrest, hf, rfl⟩
  | trivia => exact ⟨hpass.place, hrest, hf, rfl⟩
  | stray c => exact ⟨hpass.place, hrest, hf, rfl⟩

theorem pass_free (l : Lexer) (x : Slice) : l.free.pass x = (l.pass x).free := by
  unfold pass
  split <;> rfl

theorem pass_failure (l : Lexer) (x : Slice) : (l.pass x).failure? = l.failure? := by
  unfold pass
  split <;> rfl

/-- The next token is the one of a lexer that never gives up, or the input ends with a
failure. -/
theorem nextWithin_free (n : Nat) (l : Lexer) (h : l.failure? = none) :
    ((nextWithin n l).2.failure? = none ∧
      nextWithin n l.free = ((nextWithin n l).1, (nextWithin n l).2.free)) ∨
    ((nextWithin n l).1.isEof = true ∧ (nextWithin n l).2.failure?.isSome = true) := by
  induction n generalizing l with
  | zero => exact Or.inl ⟨h, rfl⟩
  | succ n ih =>
    cases hc : cut l.rest with
    | none =>
      have hrest := cut_eq_none hc
      have hfree : l.free.rest = [] := hrest
      rw [nextWithin_nil _ hrest, nextWithin_nil _ hfree]
      exact Or.inl ⟨h, rfl⟩
    | some p =>
      obtain ⟨kind, text, rest⟩ := p
      have hfree : cut l.free.rest = some (kind, text, rest) := hc
      cases hs : l.stalls l.place.offset with
      | true =>
        rw [nextWithin_stall n hc hs]
        exact Or.inr ⟨rfl, rfl⟩
      | false =>
        rw [nextWithin_cut n [] hc hs, nextWithin_cut n [] hfree rfl, stepOver, stepOver, pass_free]
        have hpass := (l.pass_failure ⟨[], kind, text⟩).trans h
        cases kind with
        | token t => exact Or.inl ⟨hpass, rfl⟩
        | trivia => exact ih _ hpass
        | stray c => exact ih _ hpass

theorem fate_of_nil (hf : l.rest = []) : l.fate before = l.failure? := by
  rw [fate, hf, firstStall?, slices_nil, List.find?_nil, Option.map_none, Option.or_none]

theorem fate_of_running (hf : l.failure? = none) :
    l.fate before = (firstStall? l.stalls before l.rest).map Slice.failure := by
  rw [fate, hf, Option.none_or]

/-- A lexer that stops keeps what it was to keep. -/
theorem fate_stop (hplace : l.place = .behind before) (hf : l.failure? = none)
    (hc : cut l.rest = some (kind, text, rest)) (hs : l.stalls l.place.offset = true) :
    l.stop.failure? = l.fate before := by
  rw [fate_of_running hf, firstStall?_eq _ hc, ← hplace, if_pos hs]
  simp only [Option.map_some, Slice.failure, Slice.place, stop, hplace]

/-- One that goes over a slice is still to keep it. -/
theorem fate_pass (hplace : l.place = .behind before) (hf : l.failure? = none)
    (hc : cut l.rest = some (kind, text, rest)) (hs : l.stalls l.place.offset = false) :
    (l.pass ⟨before, kind, text⟩).fate (before ++ text) = l.fate before := by
  obtain ⟨-, hrest', hf', hstalls'⟩ := pass_spec hplace hf hc
  rw [fate_of_running hf, fate_of_running hf', hrest', hstalls', firstStall?_eq _ hc, ← hplace,
    if_neg (by simp [hs])]

theorem token_isEof {t : TokenType} (hc : cut l.rest = some (.token t, text, rest)) (k : Nat) :
    (l.token t k).isEof = false := by
  rw [Buffer.isEof_eq_false_iff]
  intro he
  have he : t = eof := he
  exact absurd (he ▸ (cut_token hc).1) (by decide)

/-- A call does not change what the lexer comes to keep; when it finds the end of the
input, nothing is left. -/
theorem nextWithin_fate (n : Nat) (hplace : l.place = .behind before) (hf : l.failure? = none)
    (hn : l.rest.length ≤ n) :
    ∃ after, (nextWithin n l).2.place = .behind after ∧
      (nextWithin n l).2.fate after = l.fate before ∧
      ((nextWithin n l).1.isEof = true → (nextWithin n l).2.rest = []) ∧
      ((nextWithin n l).1.isEof = false → (nextWithin n l).2.failure? = none) := by
  induction n generalizing l before with
  | zero =>
    have hrest := List.length_eq_zero_iff.mp (Nat.le_zero.mp hn)
    exact ⟨before, hplace, rfl, fun _ => hrest, fun _ => hf⟩
  | succ n ih =>
    cases hc : cut l.rest with
    | none =>
      have hrest := cut_eq_none hc
      rw [nextWithin_nil _ hrest]
      exact ⟨before, hplace, rfl, fun _ => hrest, fun _ => hf⟩
    | some p =>
      obtain ⟨kind, text, rest⟩ := p
      cases hs : l.stalls l.place.offset with
      | true =>
        rw [nextWithin_stall n hc hs]
        have hrest : l.stop.rest = [] := List.drop_length
        refine ⟨before ++ l.rest, ?_, ?_, fun _ => hrest, fun he => by cases he⟩
        · simp only [stop, skip, List.take_length, hplace, Place.behind_append]
        · rw [fate_of_nil hrest, fate_stop hplace hf hc hs]
      | false =>
        obtain ⟨hplace', hrest', hf', -⟩ := pass_spec hplace hf hc
        have hfate := fate_pass hplace hf hc hs
        have hlt := cut_shorter hc
        have hgo := ih hplace' hf' (by rw [hrest']; omega)
        rw [hfate] at hgo
        rw [nextWithin_cut n before hc hs, stepOver]
        cases kind with
        | token t =>
          refine ⟨before ++ text, hplace', hfate, fun he => ?_, fun _ => hf'⟩
          exact absurd ((token_isEof hc _).symm.trans he) Bool.false_ne_true
        | trivia => exact hgo
        | stray c => exact hgo

end Lexer

end Descent.Calc

namespace Descent.Buffer

open Descent.Calc

/-- The same buffer over a matcher that never gives up. -/
def free (b : Buffer Lexer) : Buffer Lexer := { b with source := b.source.free }

/-- Drawing tokens gives those of a matcher that never gives up, or comes to the end of
the input with a failure. -/
theorem pull_free (n : Nat) (b : Buffer Lexer) (h : b.source.failure? = none) :
    ((pull n b).source.failure? = none ∧ pull n b.free = (pull n b).free) ∨
    ((pull n b).ended = true ∧ (pull n b).source.failure?.isSome = true) := by
  induction n generalizing b with
  | zero => exact Or.inl ⟨h, rfl⟩
  | succ n ih =>
    have hended : b.free.ended = b.ended := rfl
    unfold pull
    rw [hended]
    split
    · exact Or.inl ⟨h, rfl⟩
    · rcases Lexer.nextWithin_free b.source.rest.length b.source h with ⟨hnone, hnext⟩ | hlost
      · have hfetch : b.free.fetch = b.fetch.free := by
          have hnext : TokenSource.next b.free.source =
              ((TokenSource.next b.source).1, (TokenSource.next b.source).2.free) := hnext
          simp only [fetch, hnext]
          rfl
        rw [hfetch]
        exact ih b.fetch hnone
      · have hfetch : b.fetch.ended = true := hlost.1
        rw [pull_of_ended n _ hfetch]
        exact Or.inr hlost

theorem fill_free (b : Buffer Lexer) (h : b.source.failure? = none) :
    b.free.fill = b.fill.free ∨ b.fill.source.failure?.isSome = true := by
  rcases pull_free (TokenSource.bound b.source + 1) b h with ⟨-, heq⟩ | ⟨-, hsome⟩
  · exact Or.inl heq
  · exact Or.inr hsome

/-- What a buffer satisfies whose lexer comes to keep `f`. -/
structure Fated (f : Option Failure) (b : Buffer Lexer) : Prop where
  source : ∃ before, b.source.place = .behind before ∧ b.source.fate before = f
  running : b.ended = false → b.source.failure? = none
  stopped : b.ended = true → b.source.rest = []

namespace Fated

variable {f : Option Failure} {b : Buffer Lexer}

theorem fetch (h : Fated f b) (he : b.ended = false) : Fated f b.fetch := by
  obtain ⟨before, hplace, hfate⟩ := h.source
  obtain ⟨after, hplace', hfate', hend, hgo⟩ :=
    Lexer.nextWithin_fate b.source.rest.length hplace (h.running he) (Nat.le_refl _)
  exact ⟨⟨after, hplace', hfate'.trans hfate⟩, hgo, hend⟩

theorem pull (h : Fated f b) (n : Nat) : Fated f (pull n b) := by
  induction n generalizing b with
  | zero => exact h
  | succ n ih =>
    unfold Buffer.pull
    split
    · exact h
    · next he => exact ih (h.fetch (by simpa using he))

theorem failure (h : Fated f b) (he : b.ended = true) : b.source.failure? = f := by
  obtain ⟨before, -, hfate⟩ := h.source
  rw [← hfate, Lexer.fate_of_nil (h.stopped he)]

end Fated

/-- The failure at the first slice at which the matcher gives up is what is kept of a
text that was drawn to its end. -/
theorem whole_failure (source : String) (stalls : Nat → Bool) :
    (ofSource (Lexer.ofString source stalls)).whole.source.failure? =
      (firstStall? stalls [] source.toList).map Slice.failure := by
  have hfated : Fated ((firstStall? stalls [] source.toList).map Slice.failure)
      (ofSource (Lexer.ofString source stalls)) :=
    ⟨⟨[], rfl, Lexer.fate_of_running rfl⟩, fun _ => rfl, fun he => by cases he⟩
  exact (hfated.pull _).failure (fill_ended _)

end Descent.Buffer

namespace Descent.Calc

open Descent.Parser

/-- A parser beside one whose matcher never gives up. -/
def unstalled : Pairing Lexer where
  source := Lexer.free
  limit := id
  Fits := fun l => l.failure? = none
  Level := fun _ _ _ => True
  Lost := fun _ s => s.buffer.ended = true ∧ s.buffer.source.failure?.isSome = true

theorem unstalled_lawful : unstalled.Lawful where
  bound := fun _ => rfl
  reach := by
    intro n s k h
    rcases Buffer.pull_free (s.buffer.position + k - s.buffer.tokens.size) s.buffer h with
      ⟨hfit, heq⟩ | hlost
    · exact Or.inl ⟨hfit, congrArg (fun b => ({ s with buffer := b } : ParserState)) heq⟩
    · exact Or.inr hlost
  level := fun _ _ _ _ => ⟨trivial, Or.inr rfl⟩
  mono := by
    intro n s t h hlost
    obtain ⟨hended, hsource⟩ := h.ended hlost.1
    show t.buffer.ended = true ∧ t.buffer.source.failure?.isSome = true
    rw [hsource]
    exact ⟨hended, hlost.2⟩
  close := fun _ _ _ _ _ _ hlost => hlost

theorem fresh_unstalled (threshold depth : Nat) (source : String) (stalls : Nat → Bool)
    (c : PredictionCache) : unstalled.view (fresh threshold depth source stalls c) =
      fresh threshold depth source never c := rfl

/-- A rule over a matcher that may give up does what it does over one that never does, or
the input has ended for it with a failure. -/
theorem parseRule_unstalled {s t : ParserState} {r : Rule} {tree : RawTree}
    (hs : s.buffer.source.failure? = none) (ht : parseRule r s = (.ok tree, t)) :
    (t.buffer.source.failure? = none ∧
      parseRule r (unstalled.view s) = (.ok tree, unstalled.view t)) ∨
    (t.buffer.ended = true ∧ t.buffer.source.failure?.isSome = true) :=
  (invokeWithin_keeps unstalled_lawful (s.maxDepth - s.depth) r .empty).invocation hs trivial ht

section Parse

variable {threshold depth : Nat} {source : String} {stalls : Nat → Bool} {c : PredictionCache}
  {r : Rule} {tree : RawTree} {t : ParserState}

/-- A parse that has drawn its whole input keeps the failure that was bound to come. -/
theorem parseRule_failure (ht : parseRule r (fresh threshold depth source stalls c) = (.ok tree, t))
    (hended : t.buffer.ended = true) :
    t.buffer.source.failure? = (firstStall? stalls [] source.toList).map Slice.failure := by
  have hok := (fresh_idle threshold depth source stalls c).ok
  have hwhole : t.buffer.whole = (fresh threshold depth source stalls c).buffer.whole :=
    ((parseRule_run hok ht).kept hok).whole
  have hfill : t.buffer.whole.source = t.buffer.source := by
    rw [Buffer.whole, Buffer.fill_of_ended _ hended]
  rw [← hfill, hwhole]
  exact Buffer.whole_failure source stalls

/-- A program draws its whole input. -/
theorem parseRule_program_ended (hc : c.Faithful simulate)
    (ht : parseRule .program (fresh threshold depth source stalls c) = (.ok tree, t)) :
    t.buffer.ended = true := by
  have hidle := fresh_idle threshold depth source stalls c
  have htrust := fresh_trusts hc threshold depth source stalls
  obtain ⟨k, hk, hne, heof⟩ := programState_end hidle htrust
  have hwf := (rounds_sound (hidle.sound htrust) k hne).ok.buffer
  rw [parseRule_program_eq hidle htrust hk hne heof, Prod.mk.injEq] at ht
  rw [← ht.2]
  exact hwf.ended_of_eof heof

end Parse

section Outcomes

variable (settings : Settings) (source : String) (stalls : Nat → Bool) (c : PredictionCache)

/-- Lexing alone draws everything. -/
theorem tokenizeFrom_stalls :
    (∀ x, firstStall? stalls [] source.toList = some x →
      (tokenizeFrom settings (.ofString source stalls) (.available c)).1 = .error x.failure) ∧
    (firstStall? stalls [] source.toList = none →
      tokenizeFrom settings (.ofString source stalls) (.available c) =
        tokenize settings source (.available c)) := by
  have hfailure : (Buffer.ofSource (Lexer.ofString source stalls)).fill.source.failure? = _ :=
    Buffer.whole_failure source stalls
  constructor
  · intro x hx
    rw [hx, Option.map_some] at hfailure
    simp only [tokenizeFrom, hfailure]
  · intro hnone
    rw [hnone, Option.map_none] at hfailure
    rcases Buffer.fill_free (Buffer.ofSource (Lexer.ofString source stalls)) rfl with
      hfree | hsome
    · have hfill : (Buffer.ofSource (Lexer.ofString source never)).fill =
          (Buffer.ofSource (Lexer.ofString source stalls)).fill.free := hfree
      have hnever : (Buffer.ofSource (Lexer.ofString source stalls)).fill.free.source.failure? =
          none := hfailure
      simp only [tokenize, tokenizeFrom, hfailure, hfill, hnever]
      rfl
    · rw [hfailure] at hsome
      cases hsome

/-- Where a parse comes to its end, it is the one over a matcher that never gives up, or
it returns the failure that was bound to come. -/
theorem parseFrom_stalls {r : Rule} {tree : RawTree} {t : ParserState}
    (hr : Rule.ofName? (settings.startRule Rule.program.name) = some r)
    (ht : parseRule r (fresh settings.cacheThreshold settings.maxRuleDepth source stalls c) =
      (.ok tree, t)) :
    parseFrom settings (.ofString source stalls) (.available c) =
      parse settings source (.available c) ∨
    ∃ x, firstStall? stalls [] source.toList = some x ∧
      (parseFrom settings (.ofString source stalls) (.available c)).1 = .error x.failure := by
  have hparse : parseFrom settings (.ofString source stalls) (.available c) =
      (finish tree t, t.cache) := by
    unfold fresh at ht
    simp only [parseFrom, hr, ht]
  rcases parseRule_unstalled rfl ht with ⟨hnone, hsame⟩ | ⟨hended, hsome⟩
  · left
    rw [fresh_unstalled] at hsame
    unfold fresh at hsame
    have hnever : parse settings source (.available c) =
        (finish tree (unstalled.view t), (unstalled.view t).cache) := by
      simp only [parse, parseFrom, hr, hsame]
    rw [hparse, hnever]
    rfl
  · right
    have hfailure := parseRule_failure ht hended
    rw [hfailure, Option.isSome_map, Option.isSome_iff_exists] at hsome
    obtain ⟨x, hx⟩ := hsome
    rw [hx, Option.map_some] at hfailure
    refine ⟨x, hx, ?_⟩
    rw [hparse]
    simp only [finish, hfailure]

/-- The parse of a program comes to the failure that was bound to come. -/
theorem parseFrom_program_failure {c : PredictionCache} {x : Slice}
    (hr : Rule.ofName? (settings.startRule Rule.program.name) = some .program)
    (hc : c.Faithful simulate) (hx : firstStall? stalls [] source.toList = some x) :
    (parseFrom settings (.ofString source stalls) (.available c)).1 = .error x.failure := by
  obtain ⟨tree, t, ht⟩ := parseRule_returns
    (fresh_idle settings.cacheThreshold settings.maxRuleDepth source stalls c)
    (fresh_trusts hc settings.cacheThreshold settings.maxRuleDepth source stalls) .program
  have hfailure := parseRule_failure ht (parseRule_program_ended hc ht)
  rw [hx, Option.map_some] at hfailure
  unfold fresh at ht
  simp only [parseFrom, hr, ht, finish, hfailure]

end Outcomes

/-- Every rule returns a tree, a program on a cache that nobody has recorded into. -/
theorem parseRule_fresh (threshold depth : Nat) (source : String) (stalls : Nat → Bool)
    {c : PredictionCache} {r : Rule} (hc : r = .program → Coherent c) :
    ∃ tree t, parseRule r (fresh threshold depth source stalls c) = (.ok tree, t) := by
  have hidle := fresh_idle threshold depth source stalls c
  by_cases hr : r = .program
  · exact parseRule_returns hidle (fresh_trusts (hc hr).faithful threshold depth source stalls) r
  · obtain ⟨tree, t, ht, -⟩ := invokeWithin_invoked _ hr .empty ⟨hidle.ok, rfl⟩
    exact ⟨tree, t, ht⟩

/-- A failure of the matcher is never swallowed. If it gives up at some slice of the
text, lexing returns the failure at the first of them, with its line and column, and so
does the parse of a program on a cache that nobody has recorded into; a parse from any
other rule returns this failure or, when it has not come so far, all that it returns over
a matcher that never gives up. If it gives up at none, everything is as over such a
matcher. -/
theorem failure_delivered (settings : Settings) (source : String) (stalls : Nat → Bool)
    (c : PredictionCache) :
    (∀ x, (slices [] source.toList).find? (fun y => stalls y.place.offset) = some x →
      (tokenizeFrom settings (.ofString source stalls) (.available c)).1 =
        .error (.scanner x.place.line x.place.column "call limit reached") ∧
      ∀ r, Rule.ofName? (settings.startRule Rule.program.name) = some r →
        (r = .program → Coherent c →
          (parseFrom settings (.ofString source stalls) (.available c)).1 =
            .error (.scanner x.place.line x.place.column "call limit reached")) ∧
        (r ≠ .program →
          (parseFrom settings (.ofString source stalls) (.available c)).1 =
            .error (.scanner x.place.line x.place.column "call limit reached") ∨
          parseFrom settings (.ofString source stalls) (.available c) =
            parse settings source (.available c))) ∧
    ((∀ x ∈ slices [] source.toList, stalls x.place.offset = false) →
      tokenizeFrom settings (.ofString source stalls) (.available c) =
        tokenize settings source (.available c) ∧
      ∀ r, Rule.ofName? (settings.startRule Rule.program.name) = some r →
        (r = .program → Coherent c) →
        parseFrom settings (.ofString source stalls) (.available c) =
          parse settings source (.available c)) := by
  obtain ⟨hsome, hnone⟩ := tokenizeFrom_stalls settings source stalls c
  refine ⟨fun x hx => ⟨hsome x hx, fun r hr => ⟨fun hp hc => ?_, fun hp => ?_⟩⟩, fun hfree => ?_⟩
  · subst hp
    exact parseFrom_program_failure settings source stalls hr hc.faithful hx
  · obtain ⟨tree, t, ht⟩ := parseRule_fresh settings.cacheThreshold settings.maxRuleDepth source
      stalls (c := c) fun he => absurd he hp
    rcases parseFrom_stalls settings source stalls c hr ht with hsame | ⟨y, hy, hfail⟩
    · exact Or.inr hsame
    · obtain rfl : y = x := Option.some.inj (hy.symm.trans hx)
      exact Or.inl hfail
  · have hfirst : firstStall? stalls [] source.toList = none := by
      rw [firstStall?, List.find?_eq_none]
      intro x hx
      simp [hfree x hx]
    refine ⟨hnone hfirst, fun r hr hc => ?_⟩
    obtain ⟨tree, t, ht⟩ := parseRule_fresh settings.cacheThreshold settings.maxRuleDepth source
      stalls hc
    rcases parseFrom_stalls settings source stalls c hr ht with hsame | ⟨y, hy, -⟩
    · exact hsame
    · rw [hfirst] at hy
      cases hy

/-- A text of two lines whose matcher gives up twice on the second of them: a program
returns the failure where the line begins, and a factor has come to its end before. A
matcher that would give up inside of a number is never asked to. -/
theorem failure_delivered_line :
    (tokenizeFrom {} (.ofString "x = 1;\ny +" fun k => k == 7 || k == 9) .fresh).1 =
      .error (.scanner 2 0 "call limit reached") ∧
    (parseFrom {} (.ofString "x = 1;\ny +" fun k => k == 7 || k == 9) .fresh).1 =
      .error (.scanner 2 0 "call limit reached") ∧
    parseFrom ⟨10, 400, some "factor"⟩ (.ofString "x = 1;\ny +" fun k => k == 7 || k == 9) .fresh =
      parse ⟨10, 400, some "factor"⟩ "x = 1;\ny +" .fresh ∧
    parseFrom {} (.ofString "12" fun k => k == 1) .fresh = parse {} "12" .fresh := by
  have hfirst : ((slices [] "x = 1;\ny +".toList).find? fun y =>
      y.place.offset == 7 || y.place.offset == 9).map (fun y => (y.place.line, y.place.column)) =
        some (2, 0) := by decide +kernel
  obtain ⟨x, hx, hplace⟩ := Option.map_eq_some_iff.mp hfirst
  obtain ⟨hline, hcolumn⟩ := Prod.mk.inj hplace
  obtain ⟨hlexed, hparsed⟩ := (failure_delivered {} "x = 1;\ny +" (fun k => k == 7 || k == 9)
    .empty).1 x hx
  obtain ⟨-, hfactor⟩ := (failure_delivered ⟨10, 400, some "factor"⟩ "x = 1;\ny +"
    (fun k => k == 7 || k == 9) .empty).1 x hx
  obtain ⟨-, hnumber⟩ := (failure_delivered {} "12" (fun k => k == 1) .empty).2 (by decide +kernel)
  have hdone : (parseFrom ⟨10, 400, some "factor"⟩ (.ofString "x = 1;\ny +" fun k =>
      k == 7 || k == 9) .fresh).1.toOption.isSome = true := by decide +kernel
  rw [hline, hcolumn] at hlexed hparsed hfactor
  refine ⟨hlexed, (hparsed .program rfl).1 rfl .none, ?_, hnumber .program rfl fun _ => .none⟩
  refine ((hfactor .factor rfl).2 (by decide)).resolve_left fun hfail => ?_
  rw [SharedCache.fresh, hfail] at hdone
  cases hdone

end Descent.Calc
