import Descent.Proofs.Twins

/-! Rule bodies that two parsers run side by side. Every piece of a body comes to the
same in both: they go on side by side, or stop at an error that says the same. Where
the input of the first may end sooner the second does as the first does for as long
as that one meets no error, since a piece that looks beyond the last semicolon of an
input has met one by then. -/

namespace Descent.Calc

open Descent.Parser RawTree

variable {σ : Type} [TokenSource σ] {α : Type} {l : Link} {levels : Nat}
  {base : List (Option RawTree)} {kept : Bool} {s t u v : State σ}

/-- Two parsers side by side, both with a cache that can be trusted. -/
structure Abreast (l : Link) (levels : Nat) (base : List (Option RawTree)) (s t : State σ) : Prop
    extends Twin l base s t where
  left : Sound l.left levels s
  right : Sound l.right levels t

/-- An error that says the same of two tokens that may stand for each other. -/
structure Fault (l : Link) (e f : RecognitionError) : Prop where
  token : l.tokens e.token f.token
  message : ∀ v, f.message v = e.message v

/-- An error was reported, or is about to be. -/
def Loud (out : Except Interrupt α × State σ) : Prop :=
  out.2.errors ≠ [] ∨ (∃ e, out.1 = .error e) ∧ out.2.recovering = false

/-- How two parsers come out of a piece. They are side by side, and there is still a
token in front of the first if that is to be kept, or both stop at an error, or the
input of the first may end sooner and it has met an error. -/
inductive Mirrored (l : Link) (levels : Nat) (base : List (Option RawTree)) (kept : Bool) :
    Except Interrupt α × State σ → Except Interrupt α × State σ → Prop where
  | ok {a : α} {u v : State σ} : Abreast l levels base u v → (kept = true → Facing l u) →
      Mirrored l levels base kept (.ok a, u) (.ok a, v)
  | error {e f : RecognitionError} {u v : State σ} : l.closed = false → Fault l e f →
      Abreast l levels base u v →
      Mirrored l levels base kept (.error (.recognition e), u) (.error (.recognition f), v)
  | loud {out out' : Except Interrupt α × State σ} : l.closed = true → At levels out.2 →
      Loud out → Mirrored l levels base kept out out'

namespace Abreast

theorem look (h : Abreast l levels base s t) (j k : Nat) :
    Abreast l levels base (s.reach j) (t.reach k) :=
  ⟨h.reach j k, h.left.look j, h.right.look k⟩

theorem run (h : Abreast l levels base s t) {w w' : List Symbol} (hr : Run grammar s w u)
    (hr' : Run grammar t w' v) (huv : Twin l base u v) : Abreast l levels base u v :=
  ⟨huv, h.left.run hr, h.right.run hr'⟩

theorem openRule (h : Abreast l (levels + 1) base s t) (follow : TokenSet) :
    Abreast l levels [] (s.openRule follow) (t.openRule follow) :=
  ⟨h.toTwin.openRule follow, h.left.openRule follow, h.right.openRule follow⟩

/-- Before the end of the input there is a token in front. -/
theorem facing (h : Abreast l levels base s t) (hne : s.current.type ≠ eof) : Facing l s :=
  fun _ hnil => hne ((State.rest_eq_nil_iff h.buffer).mp hnil)

end Abreast

theorem Facing.look (h : Facing l s) (k : Nat) : Facing l (s.reach k) := by
  rwa [Facing, State.rest_reach]

namespace Mirrored

theorem pure (h : Abreast l levels base s t) (hf : Facing l s) :
    Mirrored l levels base kept ((Pure.pure () : Parser σ Unit) s)
      ((Pure.pure () : Parser σ Unit) t) := .ok h fun _ => hf

/-- What comes after a piece that has met an error does not undo it. -/
theorem bind {p : Parser σ α} {k k' : α → Parser σ Unit}
    (h : Mirrored l levels base true (p s) (p t)) (hruns : ∀ a, Runs levels (k a))
    (hk : ∀ a u v, p s = (.ok a, u) → p t = (.ok a, v) → Abreast l levels base u v →
      Facing l u → Mirrored l levels base kept (k a u) (k' a v)) :
    Mirrored l levels base kept ((p >>= k) s) ((p >>= k') t) := by
  rw [bind_apply, bind_apply]
  generalize hs : p s = out at h
  generalize ht : p t = out' at h
  cases h with
  | ok huv hf => exact hk _ _ _ hs ht huv (hf rfl)
  | error hopen hfault huv => exact .error hopen hfault huv
  | loud hclosed hat hloud =>
    -- The second parser may have come to anything; only the first has to stay loud.
    obtain ⟨a, u⟩ := out
    cases a with
    | error e =>
      refine .loud hclosed hat ?_
      rcases hloud with herrors | ⟨-, hrecovering⟩
      · exact Or.inl herrors
      · exact Or.inr ⟨⟨e, rfl⟩, hrecovering⟩
    | ok a =>
      rcases hloud with herrors | ⟨⟨e, he⟩, -⟩
      · obtain ⟨w, hr⟩ := hruns a u hat
        refine .loud hclosed (hat.run hr) (Or.inl fun hnil => herrors ?_)
        exact List.prefix_nil.mp (hnil ▸ hr.errors_prefix hat.ok)
      · cases he

end Mirrored

omit [TokenSource σ] in
theorem errorsAfter_ne_nil (h : s.recovering = false) (x : Token) (message : String) :
    s.errorsAfter x message ≠ [] := by
  rw [State.errorsAfter, h]
  simp

theorem Fault.mismatch {x y : Token} (h : l.tokens x y) (expecting : TokenSet) :
    Fault l (.inputMismatch x expecting) (.inputMismatch y expecting) := by
  refine ⟨h, fun v => ?_⟩
  unfold RecognitionError.message
  dsimp only
  rw [Link.display_eq h]

theorem Fault.noViable {x y : Token} (h : l.tokens x y) :
    Fault l (.noViableAlternative x) (.noViableAlternative y) := by
  refine ⟨h, fun v => ?_⟩
  unfold RecognitionError.message
  dsimp only
  rw [Link.display_eq h]

section Token

variable {x : TokenType} (hx : x ∈ grammar.tokens)

include hx

/-- In an input that may end sooner a token that is not there is an error. -/
theorem matchToken_loud (h : Calm s) (hat : At levels s) (hne : s.current.type ≠ x) :
    At levels (matchToken x s).2 ∧ Loud (matchToken x s) := by
  obtain ⟨w, hr⟩ := matchToken_runs hx s hat
  have hreport := errorsAfter_ne_nil (s := (s.reach 1).reach 2) h.recovering
  refine ⟨hat.run hr, ?_⟩
  rcases matchToken_cases x s with ⟨heq, -⟩ | ⟨-, ⟨-, m, hm⟩ | ⟨-, text, m, hm⟩ | hm⟩
  · exact absurd heq hne
  · rw [hm, State.take_eq, State.drop_eq]
    exact Or.inl (hreport _ m)
  · rw [hm, State.conjure_eq]
    exact Or.inl (hreport _ m)
  · rw [hm]
    exact Or.inr ⟨⟨_, rfl⟩, h.recovering⟩

/-- Where the inputs end together a token that is not there is dropped for, made up
or missed by both. -/
theorem matchToken_open (hopen : l.closed = false) (h : Abreast l levels base s t)
    (hne : s.current.type ≠ x) : Mirrored l levels base kept (matchToken x s) (matchToken x t) := by
  obtain ⟨w, hr⟩ := matchToken_runs hx s h.left.toAt
  obtain ⟨w', hr'⟩ := matchToken_runs hx t h.right.toAt
  have hf (u : State σ) : Facing l u := Twin.facing_open hopen u
  have htwin := (h.reach 1 1).reach 2 2
  have htype := h.type_eq (hf s)
  have hsecond : (t.buffer.ahead 2).type = (s.buffer.ahead 2).type :=
    (l.alike (h.ahead 1 fun hc => absurd (hopen.symm.trans hc) Bool.false_ne_true)).1
  have heof : x ≠ eof := fun e => grammar.eof_notMem (e ▸ hx)
  have hs := matchToken_eq x s
  have ht := matchToken_eq x t
  rw [if_neg hne] at hs
  rw [htype, if_neg hne, hsecond, h.recoverySet_eq, h.extraneous_eq (hf s), h.missing_eq (hf s),
    h.filler_eq] at ht
  by_cases h2 : (s.buffer.ahead 2).type = x
  · rw [if_pos h2] at hs ht
    have hne : ((s.reach 1).reach 2).current.type ≠ eof := by
      rw [State.current_reach, State.current_reach]
      exact ne_eof_of_second h.left.ok (h2.symm ▸ heof)
    have hnext : (((s.reach 1).reach 2).drop (s.extraneous (.ofList [x]))).current.type = x := by
      rw [ahead_two_of_drop ((h.left.ok.reach 1).reach 2) hne, ← h2]
      simp [State.reach]
    have hdrop := htwin.drop hopen hne (s.extraneous (.ofList [x]))
    rw [hs] at hr ⊢
    rw [ht] at hr' ⊢
    exact .ok (h.run hr hr' (hdrop.take (hf _) (hnext.symm ▸ heof))) fun _ => hf _
  · rw [if_neg h2] at hs ht
    by_cases h3 : s.recoverySet.contains s.current.type = true
    · rw [if_pos h3] at hs ht
      rw [hs] at hr ⊢
      rw [ht] at hr' ⊢
      exact .ok (h.run hr hr' (htwin.conjure hopen x _ _)) fun _ => hf _
    · rw [if_neg h3] at hs ht
      rw [hs] at hr ⊢
      rw [ht] at hr' ⊢
      exact .error hopen (.mismatch (h.current (hf s)) _) (h.run hr hr' htwin)

theorem matchToken_mirrored (hkept : kept = true → x ≠ semi) (h : Abreast l levels base s t)
    (hf : Facing l s) : Mirrored l levels base kept (matchToken x s) (matchToken x t) := by
  by_cases heq : s.current.type = x
  · obtain ⟨w, hr⟩ := matchToken_runs hx s h.left.toAt
    obtain ⟨w', hr'⟩ := matchToken_runs hx t h.right.toAt
    have htwin := h.reach 1 1
    have hne : (s.reach 1).current.type ≠ eof := by
      rw [State.current_reach, heq]
      exact fun e => grammar.eof_notMem (e ▸ hx)
    rw [matchToken_of_eq heq] at hr ⊢
    rw [matchToken_of_eq ((h.type_eq hf).trans heq)] at hr' ⊢
    refine .ok (h.run hr hr' (htwin.take (hf.look 1) hne)) fun hk => htwin.facing_take hne ?_
    rw [State.current_reach, heq]
    exact hkept hk
  · cases hclosed : l.closed with
    | true =>
      obtain ⟨hat, hloud⟩ := matchToken_loud hx (h.calm hclosed) h.left.toAt heq
      exact .loud hclosed hat hloud
    | false => exact matchToken_open hx hclosed h heq

end Token

/-- Where a semicolon comes first nothing can be decided. -/
theorem simulate_semi {d : Nat} (hd : grammar.decisions d 2 (simulate d)) (x : TokenType) :
    simulate d [semi, x] = none := by
  obtain ⟨-, ⟨rfl, -⟩ | ⟨rfl, -⟩⟩ := hd
  · rfl
  · rfl

section Decision

variable {d : Nat} (hd : grammar.decisions d 2 (simulate d))

include hd

theorem predict_loud (hclosed : l.closed = true) (h : Abreast l levels base s t)
    (hnone : simulate d (s.lookahead 2) = none) (out : Except Interrupt Nat × State σ) :
    Mirrored l levels base kept (predict d 2 (simulate d) s) out := by
  obtain ⟨c, hc, hp⟩ := h.left.predict_none hnone
  have hr : Run grammar s [] ((s.decide c d 2 (simulate d)).reach 1) :=
    .look 1 (.decide (.refl s) hd hc)
  rw [hp]
  exact .loud hclosed (h.left.toAt.run hr) (Or.inr ⟨⟨_, rfl⟩, (h.calm hclosed).recovering⟩)

theorem predict_mirrored (h : Abreast l levels base s t) (hf : Facing l s) :
    Mirrored l levels base true (predict d 2 (simulate d) s) (predict d 2 (simulate d) t) := by
  by_cases hlast : l.closed = true ∧ s.rest.length = 1
  · -- The second token may be another one, but the first is the last semicolon.
    obtain ⟨x, hx⟩ := List.length_eq_one_iff.mp hlast.2
    have hsemi : s.current.type = semi := by
      rw [current_type_eq h.left.ok, types, hx]
      exact (h.calm hlast.1).closing x (by rw [hx]; rfl)
    refine predict_loud hd hlast.1 h ?_ _
    show simulate d [s.current.type, _] = none
    rw [hsemi]
    exact simulate_semi hd _
  · have hsecond : l.tokens (s.buffer.ahead 2) (t.buffer.ahead 2) := by
      refine h.ahead 1 fun hclosed => ?_
      have hpos := hf.pos hclosed
      have hne : s.rest.length ≠ 1 := fun e => hlast ⟨hclosed, e⟩
      omega
    have hlook : t.lookahead 2 = s.lookahead 2 := by
      show [t.current.type, (t.buffer.ahead 2).type] = [s.current.type, (s.buffer.ahead 2).type]
      rw [h.type_eq hf, (l.alike hsecond).1]
    cases hsim : simulate d (s.lookahead 2) with
    | some a =>
      obtain ⟨c, hc, hp⟩ := h.left.predict hsim
      obtain ⟨c', hc', hp'⟩ := h.right.predict (hlook ▸ hsim)
      rw [hp, hp']
      exact .ok (h.run (.decide (.refl s) hd hc) (.decide (.refl t) hd hc')
        (h.toTwin.decide c c' d 2 _)) fun _ => hf.look 2
    | none =>
      cases hclosed : l.closed with
      | true => exact predict_loud hd hclosed h hsim _
      | false =>
        obtain ⟨c, hc, hp⟩ := h.left.predict_none hsim
        obtain ⟨c', hc', hp'⟩ := h.right.predict_none (hlook ▸ hsim)
        rw [hp, hp']
        exact .error hclosed (.noViable (h.current hf)) ((h.run (.decide (.refl s) hd hc)
          (.decide (.refl t) hd hc') (h.toTwin.decide c c' d 2 _)).look 1 1)

end Decision

/-- The rules below statements come to the same in both parsers. -/
def Mirrors (l : Link) (levels : Nat) (inv : Rule → TokenSet → Parser σ Unit) : Prop :=
  ∀ r, r ≠ .program → r ≠ .statement → ∀ follow {base s t}, Abreast l levels base s t →
    Facing l s → Mirrored l levels base true (inv r follow s) (inv r follow t)

/-- A token that is there is taken, whichever it is. -/
theorem matchNext_mirrored (htok : s.current.type ∈ grammar.tokens) (hsemi : s.current.type ≠ semi)
    (h : Abreast l levels base s t) (hf : Facing l s) :
    Mirrored l levels base true (matchNext s) (matchNext t) := by
  have hnext (s : State σ) : matchNext s = matchToken s.current.type s := by
    rw [matchNext_apply, matchToken_of_eq rfl]
  rw [hnext s, hnext t, h.type_eq hf]
  exact matchToken_mirrored htok (fun _ => hsemi) h hf

theorem terminator_mirrored (h : Abreast l levels base s t) (hf : Facing l s) :
    Mirrored l levels base false (terminator s) (terminator t) := by
  rw [terminator, next_bind, next_bind, h.type_eq hf]
  split
  · exact matchToken_mirrored (mem_tokens (by decide)) Bool.false_ne_true.elim (h.look 1 1)
      (hf.look 1)
  · exact .pure (h.look 1 1) (hf.look 1)

section Bodies

variable {inv : Rule → TokenSet → Parser σ Unit} (hinv : Returns levels inv)
  (hmirror : Mirrors l levels inv)

include hinv

/-- A round of a loop over operands takes its operator at least. -/
theorem operand_less {operand : Rule} (hoperand : operand ≠ .program) {follow : TokenSet}
    (h : At levels s) (htok : s.current.type ∈ grammar.tokens)
    (hu : (do matchNext; inv operand follow) s = (.ok (), u)) : u.rest.length < s.rest.length := by
  have hne : (s.reach 1).current.type ≠ eof := fun e => grammar.eof_notMem (by
    rw [← e]
    rwa [State.current_reach])
  have htake : Run grammar s [.token _] (s.reach 1).take :=
    .take (.look 1 (.refl s)) (by rwa [State.current_reach])
  obtain ⟨v, hv, hr⟩ := hinv operand hoperand follow _ (h.run htake)
  rw [bind_ok (matchNext_apply s), hv] at hu
  obtain rfl := congrArg Prod.snd hu
  refine rest_lt ((htake.trans hr).kept h.ok) ?_
  have hindex := (hr.kept (h.run htake).ok).index
  rw [State.take_index hne, State.index_reach] at hindex
  exact hindex

include hmirror

section Operands

variable {set follow : TokenSet} {operand : Rule} (hoperand : operand ≠ .program)
  (hoperand' : operand ≠ .statement)
  (htok : ∀ x, set.contains x = true → x ∈ grammar.tokens) (hsemi : set.contains semi = false)

include hoperand hoperand' htok hsemi

/-- The loops make the same rounds, with whatever number they are allowed, as long
as they are allowed the rest of the input. -/
theorem whileNext_mirrored (n m : Nat) (hn : s.rest.length < n) (hm : t.rest.length < m)
    (h : Abreast l levels base s t) (hf : Facing l s) :
    Mirrored l levels base true (whileNext set (do matchNext; inv operand follow) n s)
      (whileNext set (do matchNext; inv operand follow) m t) := by
  induction n generalizing s t m with
  | zero => omega
  | succ n ih =>
    obtain ⟨m, rfl⟩ := Nat.exists_eq_succ_of_ne_zero (Nat.ne_of_gt (Nat.zero_lt_of_lt hm))
    have hlook := h.look 1 1
    have htype := h.type_eq hf
    rw [whileNext, next_bind, whileNext, next_bind, htype]
    split
    · next hc =>
      have hx := htok _ hc
      have hne : s.current.type ≠ semi := fun e => Bool.false_ne_true (hsemi.symm.trans (e ▸ hc))
      have hround : Mirrored l levels base true
          ((do matchNext; inv operand follow : Parser σ Unit) (s.reach 1))
          ((do matchNext; inv operand follow : Parser σ Unit) (t.reach 1)) :=
        (matchNext_mirrored (by rwa [State.current_reach]) (by rwa [State.current_reach]) hlook
          (hf.look 1)).bind (fun _ => invoke_runs hinv hoperand follow)
          fun _ _ _ _ _ huv hfu => hmirror operand hoperand hoperand' follow huv hfu
      refine hround.bind
        (fun _ => operations_runs hinv hoperand htok n)
        fun _ u v hu hv huv hfu => ih m ?_ ?_ huv hfu
      · have hless := operand_less hinv hoperand hlook.left.toAt (by rwa [State.current_reach]) hu
        rw [State.rest_reach] at hless
        omega
      · have hless := operand_less hinv hoperand hlook.right.toAt
          (by rwa [State.current_reach, htype]) hv
        rw [State.rest_reach] at hless
        omega
    · exact .pure hlook (hf.look 1)

theorem operatorBody_mirrored (h : Abreast l levels base s t) (hf : Facing l s) :
    Mirrored l levels base true (operatorBody inv set operand follow s)
      (operatorBody inv set operand follow t) := by
  have hruns : Runs levels (operations inv set operand follow) :=
    fun u hu => operations_runs hinv hoperand htok _ u hu
  refine (hmirror operand hoperand hoperand' follow h hf).bind (fun _ => hruns)
    fun _ u v _ _ huv hfu => ?_
  rw [operations, get_bind, get_bind]
  exact whileNext_mirrored hinv hmirror hoperand hoperand' htok hsemi _ _
    (Nat.lt_succ_of_le huv.left.ok.buffer.rest_le) (Nat.lt_succ_of_le huv.right.ok.buffer.rest_le)
    huv hfu

end Operands

theorem statementBody_mirrored (h : Abreast l levels base s t) (hf : Facing l s) :
    Mirrored l levels base false (statementBody inv s) (statementBody inv t) := by
  have hd : grammar.decisions 0 2 (simulate 0) := ⟨rfl, Or.inl ⟨rfl, rfl⟩⟩
  have hend : Runs levels (terminator : Parser σ Unit) := .of_ends fun _ => terminator_ends
  have hne (a : Nat) : (if a = 1 then Rule.assignment else .expression) ≠ .program := by
    split <;> decide
  have hne' (a : Nat) : (if a = 1 then Rule.assignment else .expression) ≠ .statement := by
    split <;> decide
  refine (predict_mirrored hd h hf).bind (fun a => (invoke_runs hinv (hne a) _).bind hend)
    fun a u v _ _ huv hfu => ?_
  refine (hmirror _ (hne a) (hne' a) _ huv hfu).bind (fun _ => hend)
    fun _ u v _ _ huv hfu => terminator_mirrored huv hfu

theorem assignmentBody_mirrored (h : Abreast l levels base s t) (hf : Facing l s) :
    Mirrored l levels base true (assignmentBody inv s) (assignmentBody inv t) := by
  refine (matchToken_mirrored (mem_tokens (by decide)) (fun _ => by decide) h hf).bind
    (fun _ => .of_ends fun _ => assigned_ends hinv) fun _ u v _ _ huv hfu => ?_
  refine (matchToken_mirrored (mem_tokens (by decide)) (fun _ => by decide) huv hfu).bind
    (fun _ => invoke_runs hinv (by decide) _) fun _ u v _ _ huv hfu => ?_
  exact hmirror .expression (by decide) (by decide) _ huv hfu

theorem exponent_mirrored (h : Abreast l levels base s t) (hf : Facing l s) :
    Mirrored l levels base true (exponent inv s) (exponent inv t) := by
  rw [exponent, next_bind, next_bind, h.type_eq hf]
  split
  · refine (matchToken_mirrored (mem_tokens (by decide)) (fun _ => by decide) (h.look 1 1)
      (hf.look 1)).bind (fun _ => invoke_runs hinv (by decide) _) fun _ u v _ _ huv hfu => ?_
    exact hmirror .factor (by decide) (by decide) _ huv hfu
  · exact .pure (h.look 1 1) (hf.look 1)

theorem factorBody_mirrored (h : Abreast l levels base s t) (hf : Facing l s) :
    Mirrored l levels base true (factorBody inv s) (factorBody inv t) := by
  rw [factorBody, next_bind, next_bind, h.type_eq hf]
  split
  · next hc =>
    have htok := (additive_words hc).2
    have hsemi : s.current.type ≠ semi := fun e => by
      rw [e] at hc
      exact absurd hc (by decide)
    refine (matchNext_mirrored (by rwa [State.current_reach]) (by rwa [State.current_reach])
      (h.look 1 1) (hf.look 1)).bind (fun _ => invoke_runs hinv (by decide) _)
      fun _ u v _ _ huv hfu => ?_
    exact hmirror .factor (by decide) (by decide) _ huv hfu
  · refine (hmirror .primary (by decide) (by decide) _ (h.look 1 1) (hf.look 1)).bind
      (fun _ => .of_ends fun _ => exponent_ends hinv) fun _ u v _ _ huv hfu => ?_
    exact exponent_mirrored hinv hmirror huv hfu

theorem parenthesized_mirrored (h : Abreast l levels base s t) (hf : Facing l s) :
    Mirrored l levels base true (parenthesized inv s) (parenthesized inv t) := by
  refine (matchToken_mirrored (mem_tokens (by decide)) (fun _ => by decide) h hf).bind
    (fun _ => .of_ends fun _ => enclosed_ends hinv) fun _ u v _ _ huv hfu => ?_
  refine (hmirror .expression (by decide) (by decide) _ huv hfu).bind
    (fun _ => matchToken_runs (mem_tokens (by decide))) fun _ u v _ _ huv hfu => ?_
  exact matchToken_mirrored (mem_tokens (by decide)) (fun _ => by decide) huv hfu

theorem primaryBody_mirrored (h : Abreast l levels base s t) (hf : Facing l s) :
    Mirrored l levels base true (primaryBody inv s) (primaryBody inv t) := by
  have hd : grammar.decisions 1 2 (simulate 1) := ⟨rfl, Or.inr ⟨rfl, rfl⟩⟩
  refine (predict_mirrored hd h hf).bind (fun a => ?_) fun a u v _ _ huv hfu => ?_
  · split
    · exact matchToken_runs (mem_tokens (by decide))
    · split
      · exact matchToken_runs (mem_tokens (by decide))
      · split
        · exact matchToken_runs (mem_tokens (by decide))
        · split
          · exact invoke_runs hinv (by decide) _
          · exact .of_ends fun _ => parenthesized_ends hinv
  · split
    · exact matchToken_mirrored (mem_tokens (by decide)) (fun _ => by decide) huv hfu
    · split
      · exact matchToken_mirrored (mem_tokens (by decide)) (fun _ => by decide) huv hfu
      · split
        · exact matchToken_mirrored (mem_tokens (by decide)) (fun _ => by decide) huv hfu
        · split
          · exact hmirror .call (by decide) (by decide) _ huv hfu
          · exact parenthesized_mirrored hinv hmirror huv hfu

theorem arguments_mirrored (h : Abreast l levels base s t) (hf : Facing l s) :
    Mirrored l levels base true (arguments inv s) (arguments inv t) := by
  rw [arguments, next_bind, next_bind, h.type_eq hf]
  split
  · exact operatorBody_mirrored hinv hmirror (by decide) (by decide)
      (fun _ hx => (comma_words hx).2) (by decide) (h.look 1 1) (hf.look 1)
  · exact .pure (h.look 1 1) (hf.look 1)

theorem callBody_mirrored (h : Abreast l levels base s t) (hf : Facing l s) :
    Mirrored l levels base true (callBody inv s) (callBody inv t) := by
  have hclose : Runs levels (matchToken rparen : Parser σ Unit) :=
    matchToken_runs (mem_tokens (by decide))
  refine (matchToken_mirrored (mem_tokens (by decide)) (fun _ => by decide) h hf).bind
    (fun _ => .of_ends fun _ => argumentList_ends hinv) fun _ u v _ _ huv hfu => ?_
  refine (matchToken_mirrored (mem_tokens (by decide)) (fun _ => by decide) huv hfu).bind
    (fun _ => (Runs.of_ends fun _ => arguments_ends hinv).bind hclose) fun _ u v _ _ huv hfu => ?_
  refine (arguments_mirrored hinv hmirror huv hfu).bind (fun _ => hclose)
    fun _ u v _ _ huv hfu => ?_
  exact matchToken_mirrored (mem_tokens (by decide)) (fun _ => by decide) huv hfu

theorem body_mirrored {r : Rule} (hr : r ≠ .program) (hr' : r ≠ .statement)
    (h : Abreast l levels base s t) (hf : Facing l s) :
    Mirrored l levels base true (body inv r s) (body inv r t) := by
  cases r with
  | program => exact absurd rfl hr
  | statement => exact absurd rfl hr'
  | assignment => exact assignmentBody_mirrored hinv hmirror h hf
  | expression =>
    exact operatorBody_mirrored hinv hmirror (by decide) (by decide)
      (fun _ hx => (additive_words hx).2) (by decide) h hf
  | term =>
    exact operatorBody_mirrored hinv hmirror (by decide) (by decide)
      (fun _ hx => (multiplicative_words hx).2) (by decide) h hf
  | factor => exact factorBody_mirrored hinv hmirror h hf
  | primary => exact primaryBody_mirrored hinv hmirror h hf
  | call => exact callBody_mirrored hinv hmirror h hf

end Bodies

/-- A rule reports what its body has stopped at. -/
theorem Loud.finish {a : Except Interrupt Unit} (h : Loud (a, u)) (hu : u.Ok) {r : Nat}
    {tree : RawTree} (ht : finishRule r s a u = (.ok tree, t)) : t.errors ≠ [] := by
  match a with
  | .ok () =>
    obtain rfl := congrArg Prod.snd ht
    exact h.resolve_right fun ⟨⟨e, he⟩, _⟩ => nomatch he
  | .error (.failure f) => cases congrArg Prod.fst ht
  | .error (.recognition e) =>
    obtain rfl : (u.reportError e).recover.closeRule s = t := congrArg Prod.snd ht
    have hreport := Kept.report hu e.token (e.message u.vocabulary)
    obtain ⟨m, hm, -⟩ := State.recover_skipped (u.reportError e) hreport.ok.buffer
    rw [State.closeRule, hm.same.errors, State.reportError, State.report_eq]
    rcases h with herrors | ⟨-, hrecovering⟩
    · exact fun hnil => herrors (List.prefix_nil.mp (hnil ▸ u.errors_le_errorsAfter _ _))
    · exact errorsAfter_ne_nil hrecovering _ _

/-- A rule comes to the same if its body does. -/
theorem invoker_mirrored {r : Rule} (hr : r ≠ .program) {follow : TokenSet}
    (h : Abreast l (levels + 1) base s t)
    (hb : Mirrored l levels [] kept (body (invoker levels) r (s.openRule follow))
      (body (invoker levels) r (t.openRule follow))) :
    Mirrored l (levels + 1) base kept (invoker (levels + 1) r follow s)
      (invoker (levels + 1) r follow t) := by
  obtain ⟨u, hu, hrun⟩ := invokeWithin_returns (levels + 1) r hr follow s h.left.toAt
  obtain ⟨v, hv, hrun'⟩ := invokeWithin_returns (levels + 1) r hr follow t h.right.toAt
  have hd : s.depth < s.maxDepth := by
    have hl := h.left.levels
    omega
  have hd' : t.depth < t.maxDepth := by
    have hl := h.right.levels
    omega
  have hdone : invoker (levels + 1) r follow s = (.ok (), u) := hu
  have hdone' : invoker (levels + 1) r follow t = (.ok (), v) := hv
  rw [hdone, hdone']
  simp only [attach, invokeWithin, rule_of_lt hd] at hu
  simp only [attach, invokeWithin, rule_of_lt hd'] at hv
  unfold invoker at hb
  generalize body _ r (s.openRule follow) = out at hb hu
  generalize body _ r (t.openRule follow) = out' at hb hv
  cases hb with
  | ok hxy hf =>
    obtain rfl := congrArg Prod.snd hu
    obtain rfl := congrArg Prod.snd hv
    refine .ok (h.run hrun hrun' ?_) hf
    exact (hxy.closeRule h.toTwin).attach (hxy.outline_eq _ _ _ _)
  | @error e f x y hopen hfault hxy =>
    have hreport : Twin l [] (x.reportError e).recover (y.reportError f).recover := by
      rw [State.reportError, State.reportError, hxy.vocabulary, hfault.message]
      exact (hxy.report hopen hfault.token _).recover hopen
    obtain rfl := congrArg Prod.snd hu
    obtain rfl := congrArg Prod.snd hv
    refine .ok (h.run hrun hrun' ?_) fun _ => Twin.facing_open hopen _
    exact (hreport.closeRule h.toTwin).attach (hreport.outline_eq _ _ _ _)
  | loud hclosed hat hloud =>
    obtain ⟨a, x⟩ := out
    refine .loud hclosed (h.left.toAt.run hrun) (Or.inl ?_)
    split at hu
    · next hfinish =>
      have herrors := hloud.finish hat.ok hfinish
      obtain rfl := congrArg Prod.snd hu
      exact herrors
    · cases congrArg Prod.fst hu

/-- To refuse a rule is an error. -/
theorem refuse_ne_nil (h : s.Ok) (hrecovering : s.recovering = false) : s.refuse.errors ≠ [] := by
  unfold State.refuse
  rw [State.reportHere_eq]
  obtain ⟨m, hm, -⟩ := State.recover_skipped
    { (s.reach 1).reach 1 with
      recovering := true, errors := (s.reach 1).errorsAfter (s.reach 1).current _ }
    ((h.buffer.reach 1).reach 1)
  rw [hm.same.errors]
  exact errorsAfter_ne_nil hrecovering _ _

/-- Where no rule may be opened any more, both refuse. -/
theorem refused_mirrored {r : Rule} (hr : r ≠ .program) {follow : TokenSet}
    (h : Abreast l 0 base s t) :
    Mirrored l 0 base kept (invoker 0 r follow s) (invoker 0 r follow t) := by
  obtain ⟨u, hu, hrun⟩ := invokeWithin_returns 0 r hr follow s h.left.toAt
  obtain ⟨v, hv, hrun'⟩ := invokeWithin_returns 0 r hr follow t h.right.toAt
  have hd : ¬ s.depth < s.maxDepth := by
    have hl := h.left.levels
    omega
  have hd' : ¬ t.depth < t.maxDepth := by
    have hl := h.right.levels
    omega
  have hdone : invoker 0 r follow s = (.ok (), u) := hu
  have hdone' : invoker 0 r follow t = (.ok (), v) := hv
  rw [hdone, hdone']
  simp only [attach, invokeWithin, rule, if_pos ((openRule_deep_iff s follow).mpr hd),
    refuseRule_eq] at hu
  simp only [attach, invokeWithin, rule, if_pos ((openRule_deep_iff t follow).mpr hd'),
    refuseRule_eq] at hv
  obtain rfl : ((s.openRule follow).refuse.closeRule s).attach _ = u := congrArg Prod.snd hu
  obtain rfl : ((t.openRule follow).refuse.closeRule t).attach _ = v := congrArg Prod.snd hv
  cases hclosed : l.closed with
  | false =>
    have hrefuse := (h.toTwin.openRule follow).refuse hclosed
    refine .ok (h.run hrun hrun' ?_) fun _ => Twin.facing_open hclosed _
    exact (hrefuse.closeRule h.toTwin).attach (hrefuse.outline_eq _ _ _ _)
  | true =>
    refine .loud hclosed (h.left.toAt.run hrun) (Or.inl ?_)
    rw [State.errors_close]
    exact refuse_ne_nil (h.left.ok.openRule follow) (h.calm hclosed).recovering

theorem invoker_mirrors (levels : Nat) :
    Mirrors l levels (invoker levels : Rule → TokenSet → Parser σ Unit) := by
  induction levels with
  | zero =>
    intro r hr _ follow base s t h _
    exact refused_mirrored hr h
  | succ levels ih =>
    intro r hr hr' follow base s t h hf
    exact invoker_mirrored hr h
      (body_mirrored (invokeWithin_returns levels) ih hr hr' (h.openRule follow) hf)

theorem statement_mirrored (follow : TokenSet) (h : Abreast l levels base s t) (hf : Facing l s) :
    Mirrored l levels base false (invoker levels .statement follow s)
      (invoker levels .statement follow t) := by
  cases levels with
  | zero => exact refused_mirrored (by decide) h
  | succ levels =>
    exact invoker_mirrored (by decide) h (statementBody_mirrored (invokeWithin_returns levels)
      (invoker_mirrors levels) (h.openRule follow) hf)

theorem programRound_mirrored (h : Abreast l levels base s t) (hne : s.current.type ≠ eof) :
    Mirrored l levels base false (programRound (invoker levels) s)
      (programRound (invoker levels) t) := by
  have hf := h.facing hne
  rw [programRound, next_bind, next_bind, h.type_eq hf]
  split
  · exact statement_mirrored _ (h.look 1 1) (hf.look 1)
  · have hlook := (h.look 1 1).look 1 1
    have hcur : ((s.reach 1).reach 1).current = s.current := by simp
    have hcur' : ((t.reach 1).reach 1).current.type = s.current.type := by
      rw [State.current_reach, State.current_reach, h.type_eq hf]
    have hrun (message : String) : Run grammar ((s.reach 1).reach 1) []
        (((s.reach 1).reach 1).drop message) := .drop message (.refl _) (by rwa [hcur])
    have hrun' (message : String) : Run grammar ((t.reach 1).reach 1) []
        (((t.reach 1).reach 1).drop message) := .drop message (.refl _) (by rwa [hcur'])
    rw [skipExtraneous_apply, skipExtraneous_apply, (h.reach 1 1).extraneous_eq (hf.look 1)]
    cases hclosed : l.closed with
    | true =>
      refine .loud hclosed (hlook.left.toAt.run (hrun _)) (Or.inl ?_)
      rw [State.drop_eq]
      exact errorsAfter_ne_nil (h.calm hclosed).recovering _ _
    | false =>
      refine .ok (hlook.run (hrun _) (hrun' _) (hlook.drop hclosed (by rwa [hcur]) _)) ?_
      exact fun hkept => absurd hkept Bool.false_ne_true

/-- A round comes to the same in both parsers, unless the input of the first may end
sooner and it has met an error. -/
theorem round_mirrored (h : Abreast l levels base s t) (hne : s.current.type ≠ eof)
    (hquiet : l.closed = true → (round levels s).errors = []) :
    Abreast l levels base (round levels s) (round levels t) := by
  have hf := h.facing hne
  have hround := programRound_mirrored (h.look 1 1) (by rwa [State.current_reach])
  rw [(round_spec h.left hne).1, (round_spec h.right (by rwa [h.type_eq hf])).1] at hround
  cases hround with
  | ok huv _ => exact huv
  | loud hclosed _ hloud =>
    rcases hloud with herrors | ⟨⟨e, he⟩, -⟩
    · exact absurd (hquiet hclosed) herrors
    · cases he

/-- What was reported up to a round is still there after more of them. -/
theorem rounds_errors {c : PredictionCache} (h : Sound c levels s) {j k : Nat} (hjk : j ≤ k)
    (hne : ∀ i < k, ((round levels)^[i] s).current.type ≠ eof) :
    ((round levels)^[j] s).errors <+: ((round levels)^[k] s).errors := by
  obtain ⟨m, rfl⟩ := Nat.exists_eq_add_of_le' hjk
  have hs := rounds_sound h j fun i hi => hne i (by omega)
  obtain ⟨w, hr⟩ := rounds_run hs m fun i hi => by
    rw [← Function.iterate_add_apply]
    exact hne (i + j) (by omega)
  rw [Function.iterate_add_apply]
  exact hr.errors_prefix hs.ok

/-- So do any number of rounds. -/
theorem rounds_mirrored (h : Abreast l levels base s t) (k : Nat)
    (hne : ∀ i < k, ((round levels)^[i] s).current.type ≠ eof)
    (hquiet : l.closed = true → ((round levels)^[k] s).errors = []) :
    Abreast l levels base ((round levels)^[k] s) ((round levels)^[k] t) := by
  induction k with
  | zero => exact h
  | succ k ih =>
    have hbefore : l.closed = true → ((round levels)^[k] s).errors = [] := fun hclosed =>
      List.prefix_nil.mp (hquiet hclosed ▸ rounds_errors h.left (Nat.le_succ k) hne)
    rw [Function.iterate_succ_apply'] at hquiet
    rw [Function.iterate_succ_apply', Function.iterate_succ_apply']
    exact round_mirrored (ih (fun i hi => hne i (by omega)) hbefore) (hne k (by omega)) hquiet

/-- The second parser is not at the end of its input before the first one is. -/
theorem rounds_mirrored_ne (h : Abreast l levels base s t) {k : Nat}
    (hne : ∀ i < k, ((round levels)^[i] s).current.type ≠ eof)
    (hquiet : l.closed = true → ((round levels)^[k] s).errors = []) (i : Nat) (hi : i < k) :
    ((round levels)^[i] t).current.type ≠ eof := by
  have hbefore : l.closed = true → ((round levels)^[i] s).errors = [] := fun hclosed =>
    List.prefix_nil.mp (hquiet hclosed ▸ rounds_errors h.left (Nat.le_of_lt hi) hne)
  have habreast := rounds_mirrored h i (fun j hj => hne j (by omega)) hbefore
  rw [habreast.type_eq (habreast.facing (hne i hi))]
  exact hne i hi

end Descent.Calc
