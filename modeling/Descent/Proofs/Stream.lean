import Descent.Proofs.Tiling

/-! What a buffer over a lexer comes to hold: the tokens of the slices of the text,
numbered in their order, and the one that ends the input, while the lexer reports
the characters of the text that fit nowhere. A parse draws some of these tokens and
has some of these errors reported, always the first. -/

namespace Descent

namespace Calc

theorem cut_token {cs text rest : List Char} {t : TokenType}
    (h : cut cs = some (.token t, text, rest)) : 1 ≤ t ∧ t ≤ 14 := by
  cases cs with
  | nil => cases h
  | cons c cs =>
    simp only [cut] at h
    split at h
    · cases h
    · cases h
    · next hscan =>
      cases h
      exact scan_type hscan

theorem tokensOf_type {before cs : List Char} {t : Token} (h : t ∈ tokensOf before cs) :
    1 ≤ t.type ∧ t.type ≤ 14 := by
  obtain ⟨x, hx, ht⟩ := List.mem_filterMap.mp h
  obtain ⟨ps, qs, hs⟩ := List.append_of_mem hx
  obtain ⟨-, hcut⟩ := slices_split hs
  unfold Slice.token? at ht
  split at ht
  · next type hkind =>
    cases ht
    rw [hkind] at hcut
    exact cut_token hcut
  · cases ht

/-- The token that ends a text. -/
def endToken (cs : List Char) : Token :=
  Token.atEnd (Place.behind cs).offset (Place.behind cs).line (Place.behind cs).column

/-- The tokens of `cs` where it comes behind `before`, and the one that ends it. -/
def stream (before cs : List Char) : List Token :=
  tokensOf before cs ++ [endToken (before ++ cs)]

theorem stream_line {before cs : List Char} {t : Token} (h : t ∈ stream before cs) :
    1 ≤ t.line := by
  rcases List.mem_append.mp h with h | h
  · obtain ⟨x, -, ht⟩ := List.mem_filterMap.mp h
    rw [(Slice.token?_eq_some ht).2.1]
    exact Nat.le_add_right 1 _
  · rw [List.mem_singleton.mp h]
    exact Nat.le_add_right 1 _

/-- A text up to and with its first token, and what comes behind. -/
theorem stream_split {before cs ds : List Char} {xs : List Slice} {t : Token}
    (h : slices before cs = xs ++ slices (before ++ xs.flatMap Slice.text) ds)
    (ht : xs.filterMap Slice.token? = [t]) :
    stream before cs = t :: stream (before ++ xs.flatMap Slice.text) ds := by
  have htext : before ++ xs.flatMap Slice.text ++ ds = before ++ cs := by
    have hall := slices_text before cs
    rw [h, List.flatMap_append, slices_text] at hall
    rw [List.append_assoc, hall]
  rw [stream, stream, htext, tokensOf, h, List.filterMap_append, ht, tokensOf]
  rfl

theorem complaints_line {before cs : List Char} {e : SyntaxError}
    (h : e ∈ complaints before cs) : 1 ≤ e.line := by
  obtain ⟨x, -, he⟩ := List.mem_filterMap.mp h
  have hline : e.line = x.place.line := congrArg Prod.fst (Slice.error?_position he)
  rw [hline]
  exact Nat.le_add_right 1 _

theorem Lexer.nextWithin_errors (n : Nat) (l : Lexer) :
    l.errors <+: (nextWithin n l).2.errors := by
  induction n generalizing l with
  | zero => exact List.prefix_refl _
  | succ n ih =>
    unfold nextWithin
    split
    · exact List.prefix_refl _
    · next c cs hrest =>
      split
      · exact List.prefix_refl _
      · split
        · exact (List.prefix_append _ _).trans (ih (l.reject c))
        · next k _ => exact ih (l.skip k)
        · exact List.prefix_refl _

end Calc

namespace Buffer

open Descent.Calc

/-- Tokens with the indices they get when the first of them gets `n`. -/
def numbered (n : Nat) (ts : List Token) : List Token :=
  ts.mapIdx fun i t => { t with index := n + i }

theorem numbered_append (n : Nat) (ts us : List Token) :
    numbered n (ts ++ us) = numbered n ts ++ numbered (n + ts.length) us := by
  simp only [numbered, List.mapIdx_append]
  congr 2
  funext i t
  rw [Nat.add_assoc, Nat.add_comm ts.length i]

theorem getElem?_numbered (n : Nat) (ts : List Token) (i : Nat) :
    (numbered n ts)[i]? = ts[i]?.map fun t => { t with index := n + i } :=
  List.getElem?_mapIdx

theorem mem_numbered {n : Nat} {ts : List Token} {t : Token} (h : t ∈ numbered n ts) :
    ∃ u ∈ ts, ∃ i, t = { u with index := i } := by
  obtain ⟨i, hi⟩ := List.mem_iff_getElem?.mp h
  rw [getElem?_numbered] at hi
  obtain ⟨u, hu, rfl⟩ := Option.map_eq_some_iff.mp hi
  exact ⟨u, List.mem_of_getElem? hu, _, rfl⟩

theorem length_numbered (n : Nat) (ts : List Token) : (numbered n ts).length = ts.length :=
  List.length_mapIdx

variable {before : List Char} {b : Buffer Lexer}

theorem fetch_tokens (b : Buffer Lexer) : b.fetch.tokens.toList =
    b.tokens.toList ++ numbered b.tokens.size [b.source.next.1] := Array.toList_push

/-- Where no token is left one fetch brings a buffer to the end of the text. -/
theorem fetch_end (h : b.source.Behind before) (hnone : tokensOf before b.source.rest = [])
    (hnext : b.source.next = ((b.source.passAll (slices before b.source.rest)).atEnd,
      b.source.passAll (slices before b.source.rest))) :
    b.fetch.ended = true ∧ b.fetch.tokens.toList =
      b.tokens.toList ++ numbered b.tokens.size (stream before b.source.rest) ∧
    b.fetch.source.errors = b.source.errors ++ complaints before b.source.rest := by
  obtain ⟨-, -, herrors⟩ := h.passAll (List.append_nil _).symm
  refine ⟨?_, ?_, ?_⟩
  · show b.source.next.1.isEof = true
    rw [hnext]
    rfl
  · rw [fetch_tokens, hnext, h.atEnd, stream, hnone]
    rfl
  · rw [complaints, ← herrors]
    exact congrArg (Lexer.errors ·.2) hnext

/-- Otherwise it brings it behind the next token. -/
theorem fetch_token {xs ys : List Slice} {t : Token} (h : b.source.Behind before)
    (hslices : slices before b.source.rest = xs ++ ys) (ht : xs.filterMap Slice.token? = [t])
    (hnext : b.source.next = (t, b.source.passAll xs)) :
    b.fetch.ended = false ∧ b.fetch.source.Behind (before ++ xs.flatMap Slice.text) ∧
    slices (before ++ xs.flatMap Slice.text) b.fetch.source.rest = ys ∧
    stream before b.source.rest =
      t :: stream (before ++ xs.flatMap Slice.text) b.fetch.source.rest ∧
    b.fetch.source.errors ++ complaints (before ++ xs.flatMap Slice.text) b.fetch.source.rest =
      b.source.errors ++ complaints before b.source.rest := by
  have hsource : b.fetch.source = b.source.passAll xs := congrArg Prod.snd hnext
  obtain ⟨hbehind, hys, herrors⟩ := h.passAll hslices
  rw [← hsource] at hbehind hys herrors
  have hmem : t ∈ tokensOf before b.source.rest := by
    rw [tokensOf, hslices, List.filterMap_append, ht]
    exact List.mem_append_left _ (List.mem_singleton_self t)
  refine ⟨?_, hbehind, hys, stream_split (hys ▸ hslices) ht, ?_⟩
  · show b.source.next.1.isEof = false
    rw [hnext, isEof_eq_false_iff]
    exact fun e => absurd (e ▸ (tokensOf_type hmem).1) (by decide)
  · rw [herrors, complaints, hys, complaints, hslices, List.filterMap_append, List.append_assoc]

/-- Filling a buffer draws the tokens of the slices that are left. -/
theorem fill_stream (h : b.source.Behind before) (he : b.ended = false) :
    b.fill.tokens.toList =
      b.tokens.toList ++ numbered b.tokens.size (stream before b.source.rest) ∧
    b.fill.source.errors = b.source.errors ++ complaints before b.source.rest := by
  obtain ⟨xs, hxs⟩ : ∃ xs, slices before b.source.rest = xs := ⟨_, rfl⟩
  induction hn : xs.length using Nat.strong_induction_on generalizing b before xs with
  | _ n ih =>
    rw [← fill_fetch b he]
    rcases h.call (show slices before b.source.rest = [] ++ xs from hxs) with
      ⟨hnone, hnext⟩ | ⟨ys, zs, t, rfl, ht, hnext⟩
    · subst hxs
      obtain ⟨hended, htokens, herrors⟩ := fetch_end h hnone hnext
      rw [fill_of_ended _ hended]
      exact ⟨htokens, herrors⟩
    · obtain ⟨hended, hbehind, hzs, hstream, herrors⟩ := fetch_token h hxs ht hnext
      have hshorter : zs.length < n := by
        have hpos : ys ≠ [] := by
          rintro rfl
          cases ht
        have := List.length_pos_iff.mpr hpos
        rw [List.length_append] at hn
        omega
      have hnext : b.source.next.1 = t := congrArg Prod.fst hnext
      obtain ⟨htokens, hrest⟩ := ih _ hshorter hbehind hended zs hzs rfl
      refine ⟨?_, hrest.trans herrors⟩
      have hsize : b.fetch.tokens.size = b.tokens.size + [t].length := Array.size_push _
      rw [htokens, hstream, fetch_tokens, hnext, hsize, List.append_assoc, ← numbered_append]
      rfl

theorem pull_errors (n : Nat) (b : Buffer Lexer) :
    b.source.errors <+: (pull n b).source.errors := by
  induction n generalizing b with
  | zero => exact List.prefix_refl _
  | succ n ih =>
    unfold pull
    split
    · exact List.prefix_refl _
    · exact (Lexer.nextWithin_errors _ b.source).trans (ih b.fetch)

/-- What was reported so far is the beginning of what will have been reported. -/
theorem errors_whole (b : Buffer Lexer) : b.source.errors <+: b.whole.source.errors :=
  pull_errors _ b

/-- The tokens of a text, the one that ends it included. -/
theorem ofString_tokens (source : String) :
    (ofSource (Lexer.ofString source never)).fill.tokens.toList =
      numbered 0 (stream [] source.toList) :=
  (fill_stream (b := ofSource (Lexer.ofString source never)) (Lexer.ofString_behind source)
    rfl).1

/-- What is reported of a text. -/
theorem ofString_errors (source : String) :
    (ofSource (Lexer.ofString source never)).whole.source.errors =
      complaints [] source.toList :=
  (fill_stream (b := ofSource (Lexer.ofString source never)) (Lexer.ofString_behind source)
    rfl).2

end Buffer

end Descent
