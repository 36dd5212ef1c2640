import Descent.Frontend

/-!
Sessions: several prediction caches, handles on them, recognizers that use them,
and front ends that parse on them, one command after another. Handles that were
cloned from each other share a cache.
-/

namespace Descent

structure Session where
  caches : List SharedCache
  /-- The cache of every handle. -/
  handles : List Nat
  /-- The recognizers with the caches they use. -/
  recognizers : List (Nat × Recognizer)

namespace Session

inductive Command where
  | newCache
  | cloneCache
  | sameCache (other : Nat)
  | intern (lookahead : Lookahead)
  /-- Interns as many lookaheads that no grammar makes. -/
  | flood (count : Nat)
  | record (decision context alternative : Nat)
  | prediction (decision context : Nat)
  | isEmpty
  | size
  | generation
  | clear
  /-- Somebody breaks down while holding the cache. -/
  | breakDown
  | enforce (threshold : Nat)
  | newRecognizer (threshold : Nat)
  | predict (recognizer decision : Nat) (lookahead : Lookahead) (simulated : Option Nat)
  | parse (settings : Settings) (source : String)
  | tokenize (settings : Settings) (source : String)

inductive Answer where
  | done
  | number (n : Nat)
  | flag (b : Bool)
  | alternative (n : Option Nat)
  | enforced (threshold : Nat) (cleared : Bool)
  | recognizer (index : Nat)
  | predicted (alternative : Option Nat) (simulated : Bool) (recognizer : Recognizer)
      (cache : SharedCache)
  | parsed (output : ParseOutput)
  | failed (failure : Failure)

/-- One cache with one handle on it. -/
def initial : Session := ⟨[.fresh], [0], []⟩

def cacheOf (s : Session) (handle : Nat) : Nat := s.handles.getD handle 0

def cacheAt (s : Session) (cache : Nat) : SharedCache := s.caches.getD cache .unavailable

def setCache (s : Session) (cache : Nat) (c : SharedCache) : Session :=
  { s with caches := s.caches.set cache c }

/-- Uses a cache if it is available. -/
def withCache (s : Session) (cache : Nat) (use : PredictionCache → Answer × PredictionCache) :
    Answer × Session :=
  match s.cacheAt cache with
  | .unavailable => (.failed .cacheUnavailable, s)
  | .available c =>
    let (answer, c) := use c
    (answer, s.setCache cache (.available c))

/-- Whether the cache was there to be held when its holder broke down. -/
def breakDown (s : Session) (cache : Nat) : Answer × Session :=
  match s.cacheAt cache with
  | .unavailable => (.flag false, s)
  | .available _ => (.flag true, s.setCache cache .unavailable)

def internAll (c : PredictionCache) (count : Nat) : PredictionCache :=
  (List.range count).foldl (fun c (i : Nat) => (c.intern [(i : Int), -7]).2) c

def addRecognizer (s : Session) (cache threshold : Nat) : Answer × Session :=
  match s.cacheAt cache with
  | .unavailable => (.failed .cacheUnavailable, s)
  | .available c =>
    let (r, c) := Recognizer.start threshold c
    let s := s.setCache cache (.available c)
    (.recognizer s.recognizers.length, { s with recognizers := s.recognizers ++ [(cache, r)] })

def predictWith (s : Session) (index decision : Nat) (w : Lookahead) (simulated : Option Nat) :
    Answer × Session :=
  match s.recognizers[index]? with
  | none => (.failed .cacheUnavailable, s)
  | some (cache, r) =>
    match s.cacheAt cache with
    | .unavailable => (.failed .cacheUnavailable, s)
    | .available c =>
      let asked := r.simulates c decision w
      let (alternative, r, c) := r.predict c decision w fun _ => simulated
      let s := s.setCache cache (.available c)
      (.predicted alternative asked r (.available c),
        { s with recognizers := s.recognizers.set index (cache, r) })

def step (s : Session) (handle : Nat) (command : Command) : Answer × Session :=
  let cache := s.cacheOf handle
  match command with
  | .newCache =>
    (.number s.handles.length,
      { s with caches := s.caches ++ [.fresh], handles := s.handles ++ [s.caches.length] })
  | .cloneCache => (.number s.handles.length, { s with handles := s.handles ++ [cache] })
  | .sameCache other => (.flag (s.cacheOf other == cache), s)
  | .intern w => s.withCache cache fun c => let (id, c) := c.intern w; (.number id, c)
  | .flood count => s.withCache cache fun c => let c := internAll c count; (.flag c.isEmpty, c)
  | .record decision context alternative =>
    s.withCache cache fun c => (.done, c.record decision context alternative)
  | .prediction decision context =>
    s.withCache cache fun c => (.alternative (c.prediction? decision context), c)
  | .isEmpty => s.withCache cache fun c => (.flag c.isEmpty, c)
  | .size => s.withCache cache fun c => (.number c.size, c)
  | .generation => s.withCache cache fun c => (.number c.generation, c)
  | .clear => s.withCache cache fun c => (.done, c.clear)
  | .breakDown => s.breakDown cache
  | .enforce threshold =>
    s.withCache cache fun c =>
      let (cleared, c) := c.enforce threshold
      (.enforced threshold cleared, c)
  | .newRecognizer threshold => s.addRecognizer cache threshold
  | .predict index decision w simulated => s.predictWith index decision w simulated
  | .parse settings source =>
    let (result, c) := Calc.parse settings source (s.cacheAt cache)
    let s := s.setCache cache c
    match result with
    | .ok output => (.parsed output, s)
    | .error f => (.failed f, s)
  | .tokenize settings source =>
    let (result, c) := Calc.tokenize settings source (s.cacheAt cache)
    let s := s.setCache cache c
    match result with
    | .ok output => (.number output.tokens.length, s)
    | .error f => (.failed f, s)

end Session

end Descent
