import Descent.Proofs.Gluing
import Descent.Proofs.Names
import Descent.Proofs.Termination

/-! Sentences are parsed without an error. A rule that stands before one of its
sentences and a continuation that can be glued to it, with enough levels left
for the tokens in front of it, reports nothing and stops before the
continuation. -/

namespace Descent.Calc

open Computability Descent.Parser

variable {σ : Type} [TokenSource σ]

/-- The types of the tokens from the current one on. -/
def types (s : State σ) : List TokenType := s.rest.map Token.type

@[simp]
theorem types_reach (s : State σ) (k : Nat) : types (s.reach k) = types s := by
  rw [types, State.rest_reach, types]

theorem current_type_eq {s : State σ} (h : s.Ok) : s.current.type = (types s).getD 0 eof :=
  h.buffer.ahead_type 0

theorem second_type_eq {s : State σ} (h : s.Ok) :
    (s.buffer.ahead 2).type = (types s).getD 1 eof := h.buffer.ahead_type 1

/-- Where a parser stands: nothing has been reported beyond `errors`, and the at
most `n` tokens to come are a word of `L`. -/
structure Stands (c₀ : PredictionCache) (levels : Nat) (errors : List SyntaxError) (n : Nat)
    (L : Language TokenType) (s : State σ) : Prop extends Sound c₀ levels s where
  errors_eq : s.errors = errors
  length_le : (types s).length ≤ n
  types_mem : types s ∈ L

/-- A piece that succeeds and leads to where `L` is to come. -/
def Leads (c₀ : PredictionCache) (levels : Nat) (errors : List SyntaxError) (n : Nat)
    (L : Language TokenType) (out : Except Interrupt Unit × State σ) : Prop :=
  ∃ t, out = (.ok (), t) ∧ Stands c₀ levels errors n L t

variable {c₀ : PredictionCache} {levels : Nat} {errors : List SyntaxError} {n m : Nat}
  {K L M : Language TokenType} {s : State σ}

namespace Stands

theorem weaken (h : Stands c₀ levels errors n L s) (hm : n ≤ m) : Stands c₀ levels errors m L s :=
  ⟨h.toSound, h.errors_eq, Nat.le_trans h.length_le hm, h.types_mem⟩

theorem mem (h : Stands c₀ levels errors n L s) (hts : types s ∈ M) :
    Stands c₀ levels errors n M s :=
  ⟨h.toSound, h.errors_eq, h.length_le, hts⟩

theorem exact (h : Stands c₀ levels errors n L s) :
    Stands c₀ levels errors (types s).length L s :=
  ⟨h.toSound, h.errors_eq, Nat.le_refl _, h.types_mem⟩

theorem decided {t : State σ} (h : Stands c₀ levels errors n L s) (hd : Decided s t) :
    Stands c₀ levels errors n L t := by
  have ht : types t = types s := congrArg (List.map Token.type) hd.rest
  exact ⟨h.toSound.run hd.run, hd.errors.trans h.errors_eq, ht ▸ h.length_le, ht ▸ h.types_mem⟩

theorem look (h : Stands c₀ levels errors n L s) (k : Nat) :
    Stands c₀ levels errors n L (s.reach k) := h.decided (.look s k)

theorem look_mem (h : Stands c₀ levels errors n L s) (k : Nat) (hts : types s ∈ M) :
    Stands c₀ levels errors n M (s.reach k) := (h.look k).mem (by rwa [types_reach])

/-- The current token is the first of those to come. -/
theorem current (h : Stands c₀ levels errors n L s) {t : TokenType} {ts : List TokenType}
    (hts : types s = t :: ts) : s.current.type = t := by
  rw [current_type_eq h.ok, hts]
  rfl

/-- At a token that is not the end of the input there is a first one to come. -/
theorem types_eq (h : Stands c₀ levels errors n L s) (hne : s.current.type ≠ eof) :
    ∃ ts, types s = s.current.type :: ts := by
  cases hts : types s with
  | nil =>
    rw [current_type_eq h.ok, hts] at hne
    exact absurd rfl hne
  | cons t ts =>
    rw [h.current hts]
    exact ⟨ts, rfl⟩

theorem take (h : Stands c₀ levels errors n L s) {t : TokenType} {ts : List TokenType}
    (hts : types s = t :: ts) (ht : t ∈ grammar.tokens) (hk : ts ∈ K) :
    Stands c₀ levels errors (n - 1) K (s.reach 1).take := by
  have hcur : (s.reach 1).current.type = t := by
    rw [State.current_reach]
    exact h.current hts
  have hne : (s.reach 1).current.type ≠ eof := fun e => grammar.eof_notMem (e ▸ hcur ▸ ht)
  have hrun : Run grammar s [.token (s.reach 1).current.type] (s.reach 1).take :=
    .take (.look 1 (.refl s)) (hcur ▸ ht)
  have hrest : (s.reach 1).take.rest = s.rest.tail := by
    rw [State.take_eq]
    exact (Buffer.consume_rest hne).trans (congrArg List.tail (State.rest_reach s 1))
  have htail : types (s.reach 1).take = ts := by
    rw [types, hrest, List.map_tail]
    exact congrArg List.tail hts
  refine ⟨h.toSound.run hrun, ?_, ?_, htail ▸ hk⟩
  · rw [State.take_eq]
    exact h.errors_eq
  · have hlen := h.length_le
    rw [hts, List.length_cons] at hlen
    rw [htail]
    omega

end Stands

namespace Leads

theorem weaken {out : Except Interrupt Unit × State σ} (h : Leads c₀ levels errors n L out)
    (hm : n ≤ m) : Leads c₀ levels errors m L out := by
  obtain ⟨t, ht, hs⟩ := h
  exact ⟨t, ht, hs.weaken hm⟩

theorem bind {p : Parser σ Unit} {k : Unit → Parser σ Unit} (h : Leads c₀ levels errors n L (p s))
    (hk : ∀ t, Stands c₀ levels errors n L t → Leads c₀ levels errors m K (k () t)) :
    Leads c₀ levels errors m K ((p >>= k) s) := by
  obtain ⟨t, ht, hs⟩ := h
  rw [bind_ok ht]
  exact hk t hs

theorem pure (h : Stands c₀ levels errors n L s) :
    Leads c₀ levels errors n L ((Pure.pure () : Parser σ Unit) s) := ⟨s, rfl, h⟩

end Leads

/-- A word that begins with one of some tokens. -/
theorem exists_cons_of_oneOf_mul {choice : List TokenType} {ts : List TokenType}
    (h : ts ∈ oneOf choice * K) : ∃ t us, ts = t :: us ∧ t ∈ choice ∧ us ∈ K := by
  cases ts with
  | nil => exact absurd h nil_notMem_oneOf_mul
  | cons t us => exact ⟨t, us, rfl, cons_mem_oneOf_mul.mp h⟩

theorem matchFirst_leads {x : TokenType} (hx : x ∈ grammar.tokens)
    (h : Stands c₀ levels errors n L s) {ts : List TokenType} (hts : types s = x :: ts)
    (hk : ts ∈ K) : Leads c₀ levels errors (n - 1) K (matchToken x s) :=
  ⟨_, matchToken_of_eq (h.current hts), h.take hts hx hk⟩

theorem matchToken_leads {x : TokenType} (hx : x ∈ grammar.tokens)
    (h : Stands c₀ levels errors n (oneOf [x] * K) s) :
    Leads c₀ levels errors (n - 1) K (matchToken x s) := by
  obtain ⟨t, ts, hts, ht, hk⟩ := exists_cons_of_oneOf_mul h.types_mem
  obtain rfl := List.mem_singleton.mp ht
  exact matchFirst_leads hx h hts hk

/-- The token that was looked at is taken. -/
theorem matchNext_leads (h : Stands c₀ levels errors n L s) {ts : List TokenType}
    (hts : types s = s.current.type :: ts) (ht : s.current.type ∈ grammar.tokens) (hk : ts ∈ K) :
    Leads c₀ levels errors (n - 1) K (matchNext (s.reach 1)) := by
  have hts : types (s.reach 1) = s.current.type :: ts := (types_reach s 1).trans hts
  exact ⟨_, matchNext_apply (s.reach 1), (h.look 1).take hts ht hk⟩

/-- The levels that a rule needs beyond four for every token to come. -/
def reserve : Rule → Nat
  | .program => 6
  | .statement => 5
  | .expression => 4
  | .term => 3
  | .factor => 2
  | .primary => 1
  | _ => 0

/-- The rules below statements accept their sentences. -/
def Accepts (c₀ : PredictionCache) (levels : Nat) (inv : Rule → TokenSet → Parser σ Unit) : Prop :=
  ∀ r, r ≠ .program → r ≠ .statement → ∀ {follow errors n K s}, Glue K →
    4 * n + reserve r ≤ levels → Stands c₀ levels errors n (sentences r * after r K) s →
    Leads c₀ levels errors n (after r K) (inv r follow s)

/-- A loop over operands takes all that the operators announce. -/
theorem whileNext_leads {set : TokenSet} {choice : List TokenType}
    (inv : Rule → TokenSet → Parser σ Unit) (operand : Rule) (follow : TokenSet)
    (hset : ∀ t, set.contains t = true ↔ t ∈ choice)
    (htok : ∀ t ∈ choice, t ∈ grammar.tokens)
    (hglue : ∀ t ts, t ∈ choice → t :: ts ∈ K → ts ∈ M * ((oneOf choice * M)∗ * K))
    (fuel : Nat) (n : Nat) (s : State σ) (hfuel : n < fuel)
    (hop : ∀ k t, k ≤ n → Stands c₀ levels errors k (M * ((oneOf choice * M)∗ * K)) t →
      Leads c₀ levels errors k ((oneOf choice * M)∗ * K) (inv operand follow t))
    (h : Stands c₀ levels errors n ((oneOf choice * M)∗ * K) s) :
    Leads c₀ levels errors n K
      (whileNext set (do matchNext; inv operand follow) fuel s) := by
  induction fuel generalizing n s with
  | zero => omega
  | succ fuel ih =>
    rw [whileNext, next_bind]
    split
    · next hc =>
      have ht := (hset _).mp hc
      obtain ⟨ts, hts⟩ := h.types_eq fun e => grammar.eof_notMem (e ▸ htok _ ht)
      have hmem : ts ∈ M * ((oneOf choice * M)∗ * K) := by
        have hall := h.types_mem
        rw [hts, kstar_mul_eq] at hall
        exact mem_of_present hall (hglue _ ts ht)
      have hlen := h.length_le
      rw [hts, List.length_cons] at hlen
      rw [bind_assoc]
      refine (matchNext_leads h hts (htok _ ht) hmem).bind fun t ht => ?_
      refine (hop (n - 1) t (Nat.sub_le n 1) ht).bind fun u hu => ?_
      exact (ih (n - 1) u (by omega) (fun k t hk => hop k t (by omega)) hu).weaken
        (Nat.sub_le n 1)
    · next hc =>
      have hall := h.types_mem
      rw [kstar_mul_eq] at hall
      refine .pure (h.look_mem 1 (mem_of_absent hall fun t us hts ht => hc ?_))
      rw [h.current hts]
      exact (hset t).mpr ht

theorem operatorBody_leads {set follow : TokenSet} {choice : List TokenType} {operand : Rule}
    {inv : Rule → TokenSet → Parser σ Unit}
    (hset : ∀ t, set.contains t = true ↔ t ∈ choice)
    (htok : ∀ t ∈ choice, t ∈ grammar.tokens)
    (hglue : ∀ t ts, t ∈ choice → t :: ts ∈ K → ts ∈ M * ((oneOf choice * M)∗ * K))
    (hop : ∀ k t, k ≤ n → Stands c₀ levels errors k (M * ((oneOf choice * M)∗ * K)) t →
      Leads c₀ levels errors k ((oneOf choice * M)∗ * K) (inv operand follow t))
    (h : Stands c₀ levels errors n (M * ((oneOf choice * M)∗ * K)) s) :
    Leads c₀ levels errors n K (operatorBody inv set operand follow s) := by
  refine (hop n s (Nat.le_refl n) h).bind fun t ht => ?_
  rw [operations, get_bind]
  have hlen : (types t).length < t.buffer.remaining + 1 := by
    have hrest : t.rest.length ≤ t.buffer.remaining := ht.ok.buffer.rest_le
    rw [types, List.length_map]
    omega
  have hloop := whileNext_leads inv operand follow hset htok hglue _ _ t hlen
    (fun k u hk => hop k u (Nat.le_trans hk ht.length_le)) ht.exact
  exact hloop.weaken ht.length_le

theorem closing_glue (K : Language TokenType) : Glue (oneOf [rparen] * K) :=
  .of_closing fun _ _ hts => List.mem_cons_of_mem comma (cons_mem_oneOf_mul.mp hts).1

theorem moreArguments_glue (K : Language TokenType) :
    Glue (moreArguments * (oneOf [rparen] * K)) := by
  refine .of_closing fun t ts hts => ?_
  rw [moreArguments, kstar_mul_eq] at hts
  rcases hts with hclose | hcomma
  · exact List.mem_cons_of_mem comma (cons_mem_oneOf_mul.mp hclose).1
  · exact List.mem_append_left [rparen] (cons_mem_oneOf_mul.mp hcomma).1

section Bodies

variable {inv : Rule → TokenSet → Parser σ Unit} (hacc : Accepts c₀ levels inv)

include hacc

theorem arguments_leads (hn : 4 * n + 4 ≤ levels)
    (h : Stands c₀ levels errors n
      ((1 + sentences .expression * moreArguments) * (oneOf [rparen] * K)) s) :
    Leads c₀ levels errors n (oneOf [rparen] * K) (arguments inv s) := by
  have hall := h.types_mem
  rw [add_mul, one_mul, mul_assoc] at hall
  rw [arguments, next_bind]
  split
  · next hc =>
    have hmem : types s ∈ sentences .expression * (moreArguments * (oneOf [rparen] * K)) := by
      rcases hall with hclose | hmore
      · obtain ⟨t, ts, hts, ht, -⟩ := exists_cons_of_oneOf_mul hclose
        obtain rfl := List.mem_singleton.mp ht
        rw [h.current hts] at hc
        exact absurd ((expressionStart_contains _).mp hc) (by decide)
      · exact hmore
    refine operatorBody_leads comma_contains
      (fun t ht => (comma_words ((comma_contains t).mpr ht)).2) ?_ ?_ (h.look_mem 1 hmem)
    · intro t ts ht hts
      have hclose := (cons_mem_oneOf_mul.mp hts).1
      obtain rfl := List.mem_singleton.mp ht
      exact absurd hclose (by decide)
    · intro k t hk ht
      exact hacc .expression (by decide) (by decide) (moreArguments_glue K)
        (by simp only [reserve]; omega) ht
  · next hc =>
    refine .pure (h.look_mem 1 ?_)
    rcases hall with hclose | hmore
    · exact hclose
    · have hopens := (sentences_opens (r := .expression) (by decide)).mul
        (M := moreArguments * (oneOf [rparen] * K))
      cases hts : types s with
      | nil => exact absurd (hts ▸ hmore) hopens.nonempty
      | cons t ts =>
        rw [h.current hts] at hc
        exact absurd (hopens.first t ts (hts ▸ hmore)) hc

theorem callBody_leads (hn : 4 * n ≤ levels + 1)
    (h : Stands c₀ levels errors n (sentences .call * after .call K) s) :
    Leads c₀ levels errors n (after .call K) (callBody inv s) := by
  have h := h.mem (call_mul _ ▸ h.types_mem)
  have htwo : 2 ≤ n := by
    obtain ⟨t, ts, hts, -, hopen⟩ := exists_cons_of_oneOf_mul h.types_mem
    obtain ⟨u, us, rfl, -⟩ := exists_cons_of_oneOf_mul hopen
    have hlen := h.length_le
    rw [hts, List.length_cons, List.length_cons] at hlen
    omega
  refine (matchToken_leads (mem_tokens (by decide)) h).bind fun t ht => ?_
  refine (matchToken_leads (mem_tokens (by decide)) ht).bind fun u hu => ?_
  refine (arguments_leads hacc (by omega) hu).bind fun v hv => ?_
  exact (matchToken_leads (mem_tokens (by decide)) hv).weaken (by omega)

variable (hK : Glue K)

include hK

theorem expressionBody_leads (hn : 4 * n + 3 ≤ levels)
    (h : Stands c₀ levels errors n (sentences .expression * K) s) :
    Leads c₀ levels errors n K (operatorBody inv additive .term additive s) := by
  have h := h.mem (expression_mul K ▸ h.types_mem)
  refine operatorBody_leads additive_contains
    (fun t ht => (additive_words ((additive_contains t).mpr ht)).2) (fun t ts => hK.sign_term) ?_ h
  intro k t hk ht
  exact hacc .term (by decide) (by decide) hK (by simp only [reserve]; omega) ht

theorem termBody_leads (hn : 4 * n + 2 ≤ levels)
    (h : Stands c₀ levels errors n (sentences .term * after .term K) s) :
    Leads c₀ levels errors n (after .term K)
      (operatorBody inv multiplicative .factor multiplicative s) := by
  have h := h.mem (term_mul K ▸ h.types_mem)
  refine operatorBody_leads multiplicative_contains
    (fun t ht => (multiplicative_words ((multiplicative_contains t).mpr ht)).2) ?_ ?_ h
  · intro t ts ht hts
    exact absurd hts (hK.scaling_notMem ht)
  · intro k t hk ht
    exact hacc .factor (by decide) (by decide) hK (by simp only [reserve]; omega) ht

theorem exponent_leads (hn : 4 * n ≤ levels + 2)
    (h : Stands c₀ levels errors n (after .primary K) s) :
    Leads c₀ levels errors n (after .factor K) (exponent inv s) := by
  have hall := h.types_mem
  rw [after_primary_eq] at hall
  rw [exponent, next_bind]
  split
  · next hc =>
    obtain ⟨ts, hts⟩ := h.types_eq (by rw [hc]; decide)
    rw [hc] at hts
    have hlen := h.length_le
    rw [hts, List.length_cons] at hlen
    rw [hts] at hall
    have hmem := mem_of_present hall fun hk => absurd hk hK.caret_notMem
    have hnext : types (s.reach 1) = caret :: ts := (types_reach s 1).trans hts
    refine (matchFirst_leads (mem_tokens (by decide)) (h.look 1) hnext hmem).bind fun t ht => ?_
    refine Leads.weaken ?_ (Nat.sub_le n 1)
    exact hacc .factor (by decide) (by decide) hK (by simp only [reserve]; omega) ht
  · next hc =>
    refine .pure (h.look_mem 1 (mem_of_absent hall fun t us hts ht => hc ?_))
    rw [h.current hts]
    exact List.mem_singleton.mp ht

theorem factorBody_leads (hn : 4 * n + 1 ≤ levels)
    (h : Stands c₀ levels errors n (sentences .factor * after .factor K) s) :
    Leads c₀ levels errors n (after .factor K) (factorBody inv s) := by
  have hall := h.types_mem
  rw [factor_mul] at hall
  rw [factorBody, next_bind]
  split
  · next hc =>
    obtain ⟨-, htok⟩ := additive_words hc
    obtain ⟨ts, hts⟩ := h.types_eq fun e => grammar.eof_notMem (e ▸ htok)
    have hsign : s.current.type ∈ [plus, minus] := (additive_contains _).mp hc
    rw [hts] at hall
    have hmem : ts ∈ sentences .factor * after .factor K := by
      rcases hall with hsigned | hprimary
      · exact (cons_mem_oneOf_mul.mp hsigned).2
      · have hbegins := (sentences_opens (by decide)).mul.first _ ts hprimary
        have hall : ∀ t ∈ [plus, minus], t ∉ primaryStart := by decide
        exact absurd hbegins (hall _ hsign)
    refine (matchNext_leads h hts htok hmem).bind fun t ht => ?_
    refine Leads.weaken ?_ (Nat.sub_le n 1)
    have hlen := h.length_le
    rw [hts, List.length_cons] at hlen
    exact hacc .factor (by decide) (by decide) hK (by simp only [reserve]; omega) ht
  · next hc =>
    have hmem : types s ∈ sentences .primary * after .primary K := by
      rw [add_comm] at hall
      refine mem_of_absent hall fun t us hts ht => hc ?_
      rw [h.current hts]
      exact (additive_contains t).mpr ht
    refine Leads.bind ?_ fun t ht => exponent_leads hacc hK (by omega) ht
    exact hacc .primary (by decide) (by decide) hK (by simp only [reserve]; omega)
      (h.look_mem 1 hmem)

theorem primaryBody_leads (hn : 4 * n ≤ levels)
    (h : Stands c₀ levels errors n (sentences .primary * after .primary K) s) :
    Leads c₀ levels errors n (after .primary K) (primaryBody inv s) := by
  have hopens := (sentences_opens (r := .primary) (by decide)).mul (M := after .primary K)
  cases hts : types s with
  | nil => exact absurd (hts ▸ h.types_mem) hopens.nonempty
  | cons t ts =>
    have hall := h.types_mem
    rw [hts] at hall
    have hcur := h.current hts
    have hstart : t ∈ primaryStart := hopens.first t ts hall
    have hsecond : (s.buffer.ahead 2).type = ts.getD 0 eof := by
      rw [second_type_eq h.ok, hts]
      rfl
    have hlen := h.length_le
    rw [hts, List.length_cons] at hlen
    obtain ⟨u, hd, he⟩ := primaryBody_eq inv h.toSound (hcur ▸ hstart)
    have hu := h.decided hd
    have htu : types u = t :: ts := (congrArg (List.map Token.type) hd.rest).trans hts
    rw [he, hcur, hsecond]
    split
    · next hx =>
      subst hx
      have hmem := primary_literal (by decide) hall
      exact (matchFirst_leads (mem_tokens (by decide)) hu htu hmem).weaken (Nat.sub_le n 1)
    · split
      · next hx =>
        subst hx
        have hmem := primary_literal (by decide) hall
        exact (matchFirst_leads (mem_tokens (by decide)) hu htu hmem).weaken (Nat.sub_le n 1)
      · split
        · next hx =>
          subst hx
          split
          · next hparen =>
            cases ts with
            | nil => exact absurd hparen (by decide)
            | cons p us =>
              obtain rfl : p = lparen := hparen
              exact hacc .call (by decide) (by decide) hK (by simp only [reserve]; omega)
                (hu.mem (htu ▸ primary_call hK hall))
          · next hparen =>
            have hmem := primary_name (fun us e => hparen (by rw [e]; rfl)) hall
            exact (matchFirst_leads (mem_tokens (by decide)) hu htu hmem).weaken (Nat.sub_le n 1)
        · next h1 h2 h3 =>
          obtain rfl : t = lparen := by
            simp only [primaryStart, List.mem_cons, List.not_mem_nil, or_false] at hstart
            tauto
          have hmem := primary_paren hall
          refine (matchFirst_leads (mem_tokens (by decide)) hu htu hmem).bind fun v hv => ?_
          refine Leads.bind (hacc .expression (by decide) (by decide)
            (closing_glue _) (by simp only [reserve]; omega) hv) fun w hw => ?_
          exact (matchToken_leads (mem_tokens (by decide)) hw).weaken (by omega)

theorem assignmentBody_leads (hn : 4 * n ≤ levels + 1)
    (h : Stands c₀ levels errors n (sentences .assignment * K) s) :
    Leads c₀ levels errors n K (assignmentBody inv s) := by
  have hall := h.types_mem
  rw [assignment_eq, mul_assoc, mul_assoc] at hall
  have h := h.mem hall
  have htwo : 2 ≤ n := by
    obtain ⟨t, ts, hts, -, hequals⟩ := exists_cons_of_oneOf_mul hall
    obtain ⟨u, us, rfl, -⟩ := exists_cons_of_oneOf_mul hequals
    have hlen := h.length_le
    rw [hts, List.length_cons, List.length_cons] at hlen
    omega
  refine (matchToken_leads (mem_tokens (by decide)) h).bind fun t ht => ?_
  refine (matchToken_leads (mem_tokens (by decide)) ht).bind fun u hu => ?_
  refine Leads.weaken ?_ (Nat.sub_le (n - 1) 1 |>.trans (Nat.sub_le n 1))
  exact hacc .expression (by decide) (by decide) hK (by simp only [reserve]; omega) hu

theorem body_leads {r : Rule} (hr : r ≠ .program) (hr' : r ≠ .statement)
    (hn : 4 * n + reserve r ≤ levels + 1)
    (h : Stands c₀ levels errors n (sentences r * after r K) s) :
    Leads c₀ levels errors n (after r K) (body inv r s) := by
  cases r with
  | program => exact absurd rfl hr
  | statement => exact absurd rfl hr'
  | assignment => exact assignmentBody_leads hacc hK hn h
  | expression => exact expressionBody_leads hacc hK (Nat.le_of_succ_le_succ hn) h
  | term => exact termBody_leads hacc hK (Nat.le_of_succ_le_succ hn) h
  | factor => exact factorBody_leads hacc hK (Nat.le_of_succ_le_succ hn) h
  | primary => exact primaryBody_leads hacc hK (Nat.le_of_succ_le_succ hn) h
  | call => exact callBody_leads hacc hn h

end Bodies

/-- A rule leads where its body does. -/
theorem invoker_leads {r : Rule} (hr : r ≠ .program) {follow : TokenSet}
    (h : Stands c₀ (levels + 1) errors n L s)
    (hb : ∀ t : State σ, Stands c₀ levels errors n L t →
      Leads c₀ levels errors n K (body (invoker levels) r t)) :
    Leads c₀ (levels + 1) errors n K (invoker (levels + 1) r follow s) := by
  have hopen : Stands c₀ levels errors n L (s.openRule follow) :=
    ⟨h.toSound.openRule follow, h.errors_eq, h.length_le, h.types_mem⟩
  obtain ⟨t, ht, hs⟩ := hb _ hopen
  obtain ⟨u, hu, hrun⟩ := invokeWithin_returns (levels + 1) r hr follow s h.toAt
  have hd : s.depth < s.maxDepth := by
    have hl := h.levels
    omega
  unfold invoker at ht
  have hclose : u = (t.closeRule s).attach (.node r.index s.index false t.slots) := by
    simp only [attach, invokeWithin, rule_of_lt hd, ht, finishRule] at hu
    exact (congrArg Prod.snd hu).symm
  refine ⟨u, hu, h.toSound.run hrun, ?_, ?_, ?_⟩
  · rw [hclose]
    exact hs.errors_eq
  · rw [hclose]
    exact hs.length_le
  · rw [hclose]
    exact hs.types_mem

/-- With enough levels the rules below statements accept their sentences. -/
theorem invoker_accepts (levels : Nat) :
    Accepts c₀ levels (invoker levels : Rule → TokenSet → Parser σ Unit) := by
  induction levels with
  | zero =>
    intro r hr _ follow errors n K s _ hn h
    have hts : types s = [] := List.length_eq_zero_iff.mp (by have := h.length_le; omega)
    exact absurd (hts ▸ h.types_mem) (sentences_opens hr).mul.nonempty
  | succ levels ih =>
    intro r hr hr' follow errors n K s hK hn h
    exact invoker_leads hr h fun t ht => body_leads ih hK hr hr' hn ht

/-- A semicolon after a statement is taken whenever there is one. -/
theorem terminator_leads (h : Stands c₀ levels errors n rest s) :
    Leads c₀ levels errors n (sentences .statement)∗ (terminator s) := by
  have hall := h.types_mem
  rw [rest_eq] at hall
  rw [terminator, next_bind]
  split
  · next hc =>
    obtain ⟨ts, hts⟩ := h.types_eq (by rw [hc]; decide)
    rw [hc] at hts
    rw [hts] at hall
    have hmem := mem_of_present hall fun hk =>
      absurd ((expressionStart_contains _).mp (statements_opens hk)) (by decide)
    have hnext : types (s.reach 1) = semi :: ts := (types_reach s 1).trans hts
    exact (matchFirst_leads (mem_tokens (by decide)) (h.look 1) hnext hmem).weaken
      (Nat.sub_le n 1)
  · next hc =>
    refine .pure (h.look_mem 1 (mem_of_absent hall fun t us hts ht => hc ?_))
    rw [h.current hts]
    exact List.mem_singleton.mp ht

theorem statementBody_leads {inv : Rule → TokenSet → Parser σ Unit} (hacc : Accepts c₀ levels inv)
    (hn : 4 * n + 4 ≤ levels)
    (h : Stands c₀ levels errors n (sentences .statement * (sentences .statement)∗) s) :
    Leads c₀ levels errors n (sentences .statement)∗ (statementBody inv s) := by
  have hopens := (sentences_opens (r := .statement) (by decide)).mul (M := (sentences .statement)∗)
  have hall := h.types_mem
  cases hts : types s with
  | nil => exact absurd (hts ▸ hall) hopens.nonempty
  | cons t ts =>
    rw [hts] at hall
    have hcur := h.current hts
    have hsecond : (s.buffer.ahead 2).type = ts.getD 0 eof := by
      rw [second_type_eq h.ok, hts]
      rfl
    obtain ⟨u, hd, he⟩ := statementBody_eq inv h.toSound (hcur ▸ hopens.first t ts hall)
    have hu := h.decided hd
    have htu : types u = t :: ts := (congrArg (List.map Token.type) hd.rest).trans hts
    rw [statement_mul] at hall
    rw [he, hcur, hsecond]
    refine Leads.bind (L := rest) ?_ fun v hv => terminator_leads hv
    split
    · next hx =>
      obtain ⟨rfl, hequals⟩ := hx
      refine hacc .assignment (by decide) (by decide) rest_glue
        (by simp only [reserve]; omega) (hu.mem (htu ▸ ?_))
      rcases hall with ha | hexpr
      · exact ha
      · cases ts with
        | nil => exact absurd hequals (by decide)
        | cons e us =>
          obtain rfl : e = assign := hequals
          exact absurd hexpr rest_glue.assignment_notMem
    · next hx =>
      refine hacc .expression (by decide) (by decide) rest_glue
        (by simp only [reserve]; omega) (hu.mem (htu ▸ ?_))
      rcases hall with ha | hexpr
      · rw [assignment_eq, mul_assoc, mul_assoc] at ha
        obtain ⟨ht, hequals⟩ := cons_mem_oneOf_mul.mp ha
        obtain ⟨e, us, rfl, he, -⟩ := exists_cons_of_oneOf_mul hequals
        exact absurd ⟨List.mem_singleton.mp ht, List.mem_singleton.mp he⟩ hx
      · exact hexpr

theorem statement_leads (hn : 4 * n + 5 ≤ levels) (follow : TokenSet)
    (h : Stands c₀ levels errors n (sentences .statement * (sentences .statement)∗) s) :
    Leads c₀ levels errors n (sentences .statement)∗ (invoker levels .statement follow s) := by
  cases levels with
  | zero => omega
  | succ levels =>
    exact invoker_leads (by decide) h fun t ht =>
      statementBody_leads (invoker_accepts levels) (by omega) ht

/-- A round before statements takes one of them, or several of them as one. -/
theorem round_stands (hn : 4 * n + 5 ≤ levels)
    (h : Stands c₀ levels errors n (sentences .statement)∗ s) (hne : s.current.type ≠ eof) :
    Stands c₀ levels errors n (sentences .statement)∗ (round levels s) := by
  obtain ⟨ts, hts⟩ := h.types_eq hne
  have hall := h.types_mem
  rw [hts] at hall
  have hmem := cons_mem_statements hall
  rw [← hts, ← types_reach s 1] at hmem
  have hlead : Leads c₀ levels errors n (sentences .statement)∗
      (programRound (invoker levels) (s.reach 1)) := by
    rw [programRound, next_bind, State.current_reach, if_pos (statements_opens hall)]
    exact statement_leads hn expressionStart ((h.look 1).look_mem 1 hmem)
  obtain ⟨t, ht, hst⟩ := hlead
  have hround : round levels s = t := congrArg Prod.snd ht
  rw [hround]
  exact hst

theorem rounds_stands (hn : 4 * n + 5 ≤ levels)
    (h : Stands c₀ levels errors n (sentences .statement)∗ s) (k : Nat)
    (hne : ∀ j < k, ((round levels)^[j] s).current.type ≠ eof) :
    Stands c₀ levels errors n (sentences .statement)∗ ((round levels)^[k] s) := by
  induction k with
  | zero => exact h
  | succ k ih =>
    rw [Function.iterate_succ_apply']
    exact round_stands hn (ih fun j hj => hne j (by omega)) (hne k (by omega))

/-- Whatever way a text can be derived, and although the parser commits itself
without looking at what comes later, it is parsed without an error, on every
cache that nobody records into, if rules may nest deep enough for its length. -/
theorem parse_complete (settings : Settings) (source : String) {c : PredictionCache}
    (hc : Coherent c) (hstart : settings.startRule Rule.program.name = Rule.program.name)
    (h : Sentence .program ((Buffer.ofSource (Lexer.ofString source never)).input.map Token.type))
    (hdepth : 4 * (Buffer.ofSource (Lexer.ofString source never)).input.length + 8 ≤
      settings.maxRuleDepth) :
    ∃ out, (parse settings source (.available c)).1 = .ok out ∧ out.parserErrors = [] := by
  let s := fresh settings.cacheThreshold settings.maxRuleDepth source never c
  have hidle : Idle s := fresh_idle ..
  have htrust : Trusts simulate c s := fresh_trusts hc.faithful ..
  obtain ⟨k, hk, hne, heof⟩ := programState_end hidle htrust
  have hparse := parseRule_program_eq hidle htrust hk hne heof
  have hlevels : 4 * s.buffer.input.length + 5 ≤ s.maxDepth - s.depth - 1 := by
    show 4 * s.buffer.input.length + 5 ≤ max settings.maxRuleDepth 1 - 0 - 1
    have hn : s.buffer.input.length =
        (Buffer.ofSource (Lexer.ofString source never)).input.length := rfl
    omega
  have hstands : Stands c (s.maxDepth - s.depth - 1) [] s.buffer.input.length
      (sentences .statement)∗ (s.openRule .empty) := by
    refine ⟨hidle.sound htrust, rfl, ?_, ?_⟩
    · exact Nat.le_of_eq (List.length_map _)
    · rw [← program_eq, mem_sentences]
      exact h
  have hend := rounds_stands hlevels hstands k hne
  obtain ⟨out, hout, herrors⟩ := finish_returns hidle (Buffer.whole_steady source).failure hparse
  refine ⟨out, ?_, herrors.trans hend.errors_eq⟩
  have hname : Rule.ofName? Rule.program.name = some .program := by decide
  unfold s fresh at hparse hout
  simp only [parse, parseFrom, hstart, hname, hparse, hout]

/-- A number and a negative number, or a difference. -/
theorem parse_complete_difference : ∃ out,
    (parse { maxRuleDepth := 20 } "1 -2" (.available .empty)).1 = .ok out ∧
      out.parserErrors = [] := by
  have htypes : (Buffer.ofSource (Lexer.ofString "1 -2" never)).input.map Token.type =
      [number, minus, number] := by
    decide
  have hlength : (Buffer.ofSource (Lexer.ofString "1 -2" never)).input.length = 3 := by
    decide
  have hstatement (ts : List TokenType) (hts : ts ∈ sentences .factor) :
      ts ∈ sentences .statement := by
    have hterm : ts ∈ sentences .term := by
      rw [term_eq]
      exact ⟨ts, hts, [], Language.nil_mem_kstar _, List.append_nil ts⟩
    have hexpression : ts ∈ sentences .expression := by
      rw [expression_eq]
      exact ⟨ts, hterm, [], Language.nil_mem_kstar _, List.append_nil ts⟩
    rw [statement_eq]
    exact ⟨ts, Or.inr hexpression, [], Or.inl rfl, List.append_nil ts⟩
  have hone : [number] ∈ sentences .factor := by
    rw [factor_eq, primary_eq]
    exact Or.inr ⟨[number], Or.inl ⟨number, by decide, rfl⟩, [], Or.inl rfl, rfl⟩
  have htwo : [minus, number] ∈ sentences .factor := by
    rw [factor_eq]
    exact Or.inl ⟨[minus], ⟨minus, by decide, rfl⟩, [number], hone, rfl⟩
  refine parse_complete _ "1 -2" Uses.none rfl ?_ (by rw [hlength])
  rw [htypes, ← mem_sentences, program_eq]
  have hall : ∀ ts ∈ [[number], [minus, number]], ts ∈ sentences .statement := by
    intro ts hts
    rcases List.mem_pair.mp hts with rfl | rfl
    · exact hstatement _ hone
    · exact hstatement _ htwo
  exact Language.join_mem_kstar hall

end Descent.Calc
