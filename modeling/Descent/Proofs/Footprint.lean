import Descent.Proofs.Sharing
import Descent.Proofs.Termination
import Descent.Session

/-! How much parses leave in a cache. A calc parser looks at two tokens to decide, and
there are only so many pairs of types it can see there, since nothing but the end of the
input follows the end of the input. Simulation finds an alternative for fewer of them
still, and only these are recorded. So a cache that is used for nothing else stays far
below the number of contexts at which a guard would clear it. -/

namespace Descent

theorem Recognizer.predict_mem {r : Recognizer} {c : PredictionCache} {d : Nat} {w v : Lookahead}
    {simulate : Lookahead → Option Nat} (hv : v ∈ (r.predict c d w simulate).2.2.contexts) :
    v = w ∨ v ∈ c.contexts := by
  rw [predict_contexts] at hv
  rcases r.locate_cases c w with h | h
  · rw [h] at hv
    exact Or.inr hv
  · rw [h, Std.TreeMap.mem_insert, Std.LawfulEqCmp.compare_eq_iff_eq] at hv
    exact hv.imp_left Eq.symm

namespace Calc

open Descent.Parser

/-- The fourteen types of tokens. -/
def tokenTypes : List TokenType := (List.range 14).map fun i : Nat => (i : Int) + 1

/-- The types that two tokens in a row can have: behind the end of the input there is
nothing else. -/
def lookaheads : List Lookahead :=
  [eof, eof] :: tokenTypes.flatMap fun x => (eof :: tokenTypes).map fun y => [x, y]

/-- The decisions and lookaheads for which simulation finds an alternative. -/
def decidables : List (Nat × Lookahead) :=
  ([0, 1].flatMap fun d => lookaheads.map fun w => (d, w)).filter fun p =>
    (simulate p.1 p.2).isSome

theorem mem_tokenTypes {t : Int} (hpos : 1 ≤ t) (hle : t ≤ 14) : t ∈ tokenTypes := by
  have hlt : (t - 1).toNat < 14 := by omega
  have heq : ((t - 1).toNat : Int) + 1 = t := by omega
  exact List.mem_map.mpr ⟨_, List.mem_range.mpr hlt, heq⟩

theorem mem_lookaheads {x y : TokenType} (hx : x ∈ tokenTypes) (hy : y = eof ∨ y ∈ tokenTypes) :
    [x, y] ∈ lookaheads :=
  List.mem_cons_of_mem _ (List.mem_flatMap.mpr ⟨x, hx, List.mem_map_of_mem (List.mem_cons.mpr hy)⟩)

theorem length_lookaheads : lookaheads.length = 211 := by decide +kernel

theorem length_decidables : decidables.length = 150 := by decide +kernel

/-- What a parser over a text can see in front of it. -/
theorem types_mem_lookaheads {b : Buffer Lexer} (hb : b.WF) (hlexed : ∀ t ∈ b.input, Lexed t) :
    (b.reach 2).types 2 ∈ lookaheads := by
  have htype {t : Token} (ht : t ∈ b.rest) : t.type ∈ tokenTypes :=
    have hl := hlexed t (List.mem_of_mem_drop ht)
    mem_tokenTypes hl.pos hl.le
  have htypes : (b.reach 2).types 2 =
      [(b.rest.map Token.type).getD 0 eof, (b.rest.map Token.type).getD 1 eof] := by
    rw [Buffer.types_reach, ← hb.ahead_type, ← hb.ahead_type]
    rfl
  rw [htypes]
  match hr : b.rest with
  | [] => exact List.mem_cons_self
  | [t] => exact mem_lookaheads (htype (hr ▸ List.mem_cons_self)) (Or.inl rfl)
  | t :: u :: _ =>
    exact mem_lookaheads (htype (hr ▸ List.mem_cons_self))
      (Or.inr (htype (hr ▸ List.mem_cons_of_mem t List.mem_cons_self)))

/-- A cache that only calc has used: its contexts are lookaheads of calc, and what is
recorded for them is what simulation gives. -/
structure Own (c : PredictionCache) : Prop where
  faithful : c.Faithful simulate
  contexts : ∀ w ∈ c.contexts, w ∈ lookaheads

namespace Own

variable {c : PredictionCache}

theorem cleared (generation : Nat) : Own { generation := generation } :=
  ⟨.cleared simulate generation, by simp⟩

theorem size_le (h : Own c) : c.size ≤ 211 := by
  have hsub : c.contexts.keys ⊆ lookaheads := fun w hw =>
    h.contexts w (Std.TreeMap.mem_keys.mp hw)
  have hle := (Std.TreeMap.nodup_keys.subperm hsub).length_le
  rwa [Std.TreeMap.length_keys, length_lookaheads] at hle

/-- Each decision that is recorded is recorded for the number of a lookahead for which
simulation finds an alternative. -/
theorem decisionCount_le (h : Own c) : c.decisionCount ≤ 150 := by
  have hsub : c.decisions.keys ⊆
      decidables.map fun p => (p.1, c.contexts[p.2]?.getD 0) := by
    rintro ⟨d, id⟩ hkey
    rw [Std.TreeMap.mem_keys, Std.TreeMap.mem_iff_isSome_getElem?,
      Option.isSome_iff_exists] at hkey
    obtain ⟨a, ha⟩ := hkey
    obtain ⟨w, hw, hsim⟩ := h.faithful.simulated d id a ha
    have hmem : w ∈ lookaheads := by
      refine h.contexts w ?_
      rw [Std.TreeMap.mem_iff_isSome_getElem?, hw]
      rfl
    have hd : d ∈ [0, 1] := by
      match d with
      | 0 => exact List.mem_cons_self
      | 1 => exact List.mem_cons_of_mem 0 List.mem_cons_self
      | _ + 2 => cases hsim
    refine List.mem_map.mpr ⟨(d, w), List.mem_filter.mpr ⟨?_, ?_⟩, ?_⟩
    · exact List.mem_flatMap.mpr ⟨d, hd, List.mem_map_of_mem hmem⟩
    · rw [hsim]
      rfl
    · rw [hw]
      rfl
  have hle := (Std.TreeMap.nodup_keys.subperm hsub).length_le
  rwa [Std.TreeMap.length_keys, List.length_map, length_decidables] at hle

/-- A guard with room for all lookaheads does not clear the cache. -/
theorem enforce_eq (h : Own c) {threshold : Nat} (ht : 211 ≤ threshold) :
    c.enforce threshold = (false, c) := by
  have hsize := h.size_le
  rw [PredictionCache.enforce, if_pos (by omega)]

theorem enforce (h : Own c) (threshold : Nat) : Own (c.enforce threshold).2 := by
  unfold PredictionCache.enforce
  split
  · exact h
  · exact cleared _

/-- The guard of a new recognizer. -/
theorem start (h : Own c) (threshold : Nat) : Own (Recognizer.start threshold c).2 ∧
    (211 ≤ threshold → (Recognizer.start threshold c).2 = c) :=
  ⟨h.enforce threshold, fun ht => congrArg Prod.snd (h.enforce_eq ht)⟩

end Own

/-- A cache of generation `g` that only calc has used, and a recognizer that knows no
wrong number of it. -/
def Holding (g : Nat) (cache : SharedCache) (r : Recognizer) : Prop :=
  ∃ c, cache = .available c ∧ Own c ∧ r.Synced c ∧ c.generation = g

theorem fresh_holding {c : PredictionCache} (h : Own c) (threshold depth : Nat)
    (source : String) {g : Nat}
    (hg : (Recognizer.start threshold (Recognizer.start threshold c).2).2.generation = g) :
    Holding g (fresh threshold depth source never c).cache
      (fresh threshold depth source never c).recognizer :=
  have hown := ((h.start threshold).1.start threshold).1
  ⟨_, rfl, hown, .blank _, hg⟩

section Runs

variable {s t : ParserState} {w : List Symbol} {g : Nat}

/-- A run over a text interns the lookaheads of calc only, and never clears the cache. -/
theorem run_holding (h : Run grammar s w t) (hs : s.Ok) (hlexed : ∀ t ∈ s.buffer.input, Lexed t)
    (hc : Holding g s.cache s.recognizer) : Holding g t.cache t.recognizer := by
  refine h.decided hs ?_ hc
  rintro u e d k f hu hinput hd he ⟨c, hcache, hown, hsync, hgen⟩
  obtain rfl : c = e := SharedCache.available.inj (hcache.symm.trans he)
  obtain rfl := decisions_simulate d k f hd
  obtain ⟨rfl, -⟩ := hd
  obtain ⟨-, hfaithful, hsync', -⟩ := Recognizer.predict_spec hown.faithful hsync d
    ((u.reach 2).buffer.types 2)
  refine ⟨_, rfl, ⟨hfaithful, fun v hv => ?_⟩, hsync',
    (Recognizer.predict_generation ..).trans hgen⟩
  rcases Recognizer.predict_mem hv with rfl | hv
  · exact types_mem_lookaheads hu.buffer (hinput ▸ hlexed)
  · exact hown.contexts v hv

/-- `Passes s t`: a run from `s` goes through `t`. It comes to it, or does so inside of a
rule that it has opened. -/
inductive Passes : ParserState → ParserState → Prop where
  | reached {s t : ParserState} {w : List Symbol} : Run grammar s w t → Passes s t
  | inside {s t u : ParserState} {w : List Symbol} {follow : TokenSet} :
      Run grammar s w t → Passes (t.openRule follow) u → Passes s u

theorem passes_holding (h : Passes s t) (hs : s.Ok) (hlexed : ∀ t ∈ s.buffer.input, Lexed t)
    (hc : Holding g s.cache s.recognizer) : Holding g t.cache t.recognizer := by
  induction h with
  | reached hr => exact run_holding hr hs hlexed hc
  | @inside s t u w follow hr _ ih =>
    have hk := hr.kept hs
    have ht := run_holding hr hs hlexed hc
    exact ih (hk.ok.openRule follow) (hk.input ▸ hlexed) ht

end Runs

/-- A parse leaves a cache that only calc has used as one, and clears it only if its
guard does. -/
theorem parse_own {c : PredictionCache} (h : Own c) (settings : Settings) (source : String) :
    ∃ d, (parse settings source (.available c)).2 = .available d ∧ Own d ∧
      (211 ≤ settings.cacheThreshold → d.generation = c.generation) := by
  have hidle := fresh_idle settings.cacheThreshold settings.maxRuleDepth source never c
  have htrust := fresh_trusts h.faithful settings.cacheThreshold settings.maxRuleDepth source never
  have hfresh := fresh_holding h settings.cacheThreshold settings.maxRuleDepth source rfl
  obtain ⟨hown, hsame⟩ := h.start settings.cacheThreshold
  obtain ⟨hown', hsame'⟩ := hown.start settings.cacheThreshold
  have hguard (ht : 211 ≤ settings.cacheThreshold) : (Recognizer.start settings.cacheThreshold
      (Recognizer.start settings.cacheThreshold c).2).2.generation = c.generation := by
    rw [hsame' ht, hsame ht]
  cases hr : Rule.ofName? (settings.startRule Rule.program.name) with
  | none =>
    refine ⟨_, ?_, hown', hguard⟩
    simp only [parse, parseFrom, hr]
    rfl
  | some r =>
    obtain ⟨tree, t, ht⟩ := parseRule_returns hidle htrust r
    obtain ⟨d, hd, hown'', -, hgen⟩ := run_holding (parseRule_run hidle.ok ht) hidle.ok
      hidle.lexed hfresh
    refine ⟨d, ?_, hown'', fun hle => hgen.trans (hguard hle)⟩
    unfold fresh at ht
    simp only [parse, parseFrom, hr, ht]
    exact hd

theorem tokenize_own {c : PredictionCache} (h : Own c) (settings : Settings) (source : String) :
    ∃ d, (tokenize settings source (.available c)).2 = .available d ∧ Own d ∧
      (211 ≤ settings.cacheThreshold → d.generation = c.generation) := by
  obtain ⟨hown, hsame⟩ := h.start settings.cacheThreshold
  exact ⟨_, tokenizeFrom_cache settings _ c, hown,
    fun ht => congrArg PredictionCache.generation (hsame ht)⟩

end Calc

namespace Session

open Calc

/-- Commands that parse, lex or clear. -/
def Command.Everyday : Command → Prop
  | .parse _ _ => True
  | .tokenize _ _ => True
  | .clear => True
  | _ => False

/-- The contexts that the cache may hold where a command builds recognizers. -/
def Command.threshold? : Command → Option Nat
  | .parse settings _ => some settings.cacheThreshold
  | .tokenize settings _ => some settings.cacheThreshold
  | _ => none

def Command.clears : Command → Bool
  | .clear => true
  | _ => false

/-- The session after some commands, each given over a handle. -/
def after (s : Session) (commands : List (Nat × Command)) : Session :=
  commands.foldl (fun s x => (s.step x.1 x.2).2) s

/-- A session with one cache, which only calc has used. -/
structure Serves (s : Session) (c : PredictionCache) : Prop where
  caches : s.caches = [.available c]
  handles : s.handles = [0]
  own : Own c

namespace Serves

variable {s : Session} {c : PredictionCache}

theorem cacheOf (h : Serves s c) (handle : Nat) : s.cacheOf handle = 0 := by
  rw [Session.cacheOf, h.handles]
  cases handle <;> rfl

theorem cacheAt (h : Serves s c) : s.cacheAt 0 = .available c := by
  rw [Session.cacheAt, h.caches]
  rfl

theorem setCache (h : Serves s c) {d : PredictionCache} (hd : Own d) :
    Serves (s.setCache 0 (.available d)) d := by
  refine ⟨?_, h.handles, hd⟩
  rw [Session.setCache, h.caches]
  rfl

/-- An everyday command leaves the cache to calc, and drops nothing from it unless it
clears it or has too little room. -/
theorem step (h : Serves s c) (handle : Nat) {command : Command} (hc : command.Everyday) :
    ∃ d, Serves (s.step handle command).2 d ∧
      ((∀ n ∈ command.threshold?, 211 ≤ n) →
        d.generation = c.generation + if command.clears then 1 else 0) := by
  cases command with
  | clear =>
    refine ⟨c.clear, ?_, fun _ => rfl⟩
    simp only [Session.step, h.cacheOf, withCache, h.cacheAt]
    exact h.setCache (Own.cleared _)
  | parse settings source =>
    obtain ⟨d, hd, hown, hgen⟩ := parse_own h.own settings source
    refine ⟨d, ?_, fun ht => hgen (ht _ rfl)⟩
    simp only [Session.step, h.cacheOf, h.cacheAt, hd]
    split <;> exact h.setCache hown
  | tokenize settings source =>
    obtain ⟨d, hd, hown, hgen⟩ := tokenize_own h.own settings source
    refine ⟨d, ?_, fun ht => hgen (ht _ rfl)⟩
    simp only [Session.step, h.cacheOf, h.cacheAt, hd]
    split <;> exact h.setCache hown
  | _ => exact hc.elim

theorem after (h : Serves s c) {commands : List (Nat × Command)}
    (hc : ∀ x ∈ commands, x.2.Everyday) :
    ∃ d, Serves (s.after commands) d ∧
      ((∀ x ∈ commands, ∀ n ∈ x.2.threshold?, 211 ≤ n) →
        d.generation = c.generation + commands.countP fun x => x.2.clears) := by
  induction commands generalizing s c with
  | nil => exact ⟨c, h, fun _ => rfl⟩
  | cons x xs ih =>
    obtain ⟨e, he, hgen⟩ := h.step x.1 (hc x List.mem_cons_self)
    obtain ⟨d, hd, hgen'⟩ := ih he fun y hy => hc y (List.mem_cons_of_mem x hy)
    refine ⟨d, hd, fun ht => ?_⟩
    rw [hgen' fun y hy => ht y (List.mem_cons_of_mem x hy), hgen (ht x List.mem_cons_self),
      List.countP_cons]
    omega

end Serves

/-- However many texts are parsed and lexed in a session, under whatever settings, its
cache never holds more contexts than there are pairs of token types to look ahead to, nor
more decisions than simulation can take on them, and that not in the middle of a parse
either. So the default guard finds nothing to clear, and where no command has less room
than is needed, as by default, the cache is cleared by nothing but the commands to do so. -/
theorem cache_stays_small (commands : List (Nat × Command))
    (hc : ∀ x ∈ commands, x.2.Everyday) :
    ∃ c, (initial.after commands).caches = [.available c] ∧
      (∀ w ∈ c.contexts, w ∈ lookaheads) ∧ c.size ≤ 211 ∧ c.decisionCount ≤ 150 ∧
      (∀ (settings : Settings) (source : String) (t : ParserState),
        Passes (fresh settings.cacheThreshold settings.maxRuleDepth source never c) t →
        ∃ d, t.cache = .available d ∧ d.size ≤ 211 ∧ d.decisionCount ≤ 150) ∧
      c.enforce defaultThreshold = (false, c) ∧
      ((∀ x ∈ commands, ∀ n ∈ x.2.threshold?, 211 ≤ n) →
        c.generation = commands.countP fun x => x.2.clears) := by
  obtain ⟨c, h, hgen⟩ := Serves.after (s := initial) ⟨rfl, rfl, Own.cleared 0⟩ hc
  refine ⟨c, h.caches, h.own.contexts, h.own.size_le, h.own.decisionCount_le, ?_,
    h.own.enforce_eq (by decide), fun ht => (hgen ht).trans (Nat.zero_add _)⟩
  intro settings source t hpass
  have hidle := fresh_idle settings.cacheThreshold settings.maxRuleDepth source never c
  obtain ⟨d, hd, hown, -⟩ := passes_holding hpass hidle.ok hidle.lexed
    (fresh_holding h.own settings.cacheThreshold settings.maxRuleDepth source rfl)
  exact ⟨d, hd, hown.size_le, hown.decisionCount_le⟩

/-- Two parses with a clear between them, and a text that is only lexed. -/
theorem cache_stays_small_parses :
    let commands : List (Nat × Command) := [(0, .parse {} "x = f(1)"), (0, .clear),
      (0, .parse {} "a + * ("), (0, .tokenize {} "?")]
    ∃ c, (initial.after commands).caches = [.available c] ∧ c.size ≤ 211 ∧
      c.decisionCount ≤ 150 ∧ c.generation = 1 := by
  intro commands
  have hc : ∀ x ∈ commands, x.2.Everyday := by simp [commands, Command.Everyday]
  have ht : ∀ x ∈ commands, ∀ n ∈ x.2.threshold?, 211 ≤ n := by
    simp [commands, Command.threshold?, defaultThreshold]
  obtain ⟨c, hcaches, -, hsize, hcount, -, -, hgen⟩ := cache_stays_small commands hc
  exact ⟨c, hcaches, hsize, hcount, hgen ht⟩

end Session

end Descent
