import AgentMail.Lib.Run
import AgentMail.Lib.Table
import Mathlib.Algebra.Group.Nat.Defs

namespace SearchCache

structure CacheEntry (τ : Type) where
  value        : τ
  createdAt    : Nat
  accessCount  : Nat
  lastAccessed : Nat
  deriving DecidableEq

namespace CacheEntry

variable {τ : Type}

def new (value : τ) (now : Nat) : CacheEntry τ where
  value        := value
  createdAt    := now
  accessCount  := 1
  lastAccessed := now

def isExpired (entry : CacheEntry τ) (ttl now : Nat) : Bool :=
  now - entry.createdAt > ttl

def touch (entry : CacheEntry τ) (now : Nat) : CacheEntry τ :=
  { entry with accessCount := entry.accessCount + 1, lastAccessed := now }

end CacheEntry

structure CacheMetrics where
  hits              : Nat
  misses            : Nat
  evictionsCapacity : Nat
  evictionsTtl      : Nat
  evictionsEpoch    : Nat
  inserts           : Nat
  currentEntries    : Nat
  deriving DecidableEq

def CacheMetrics.default : CacheMetrics where
  hits              := 0
  misses            := 0
  evictionsCapacity := 0
  evictionsTtl      := 0
  evictionsEpoch    := 0
  inserts           := 0
  currentEntries    := 0

structure CacheConfig where
  maxEntries : Nat
  ttl        : Nat
  enabled    : Bool

abbrev Entries (κ τ : Type) : Type :=
  Table (Prod.fst : κ × CacheEntry τ → κ)

structure QueryCache (κ τ : Type) where
  config       : CacheConfig
  entries      : Entries κ τ
  metrics      : CacheMetrics
  currentEpoch : Nat

namespace QueryCache

variable {κ τ : Type}

def new (config : CacheConfig) : QueryCache κ τ where
  config       := config
  entries      := .empty
  metrics      := .default
  currentEpoch := 0

-- An operation checks the epoch before it takes the lock of the entries, which makes two steps of
-- it.
section

variable (indexEpoch : κ → Nat) (cache : QueryCache κ τ)

def missed : QueryCache κ τ :=
  { cache with metrics.misses := cache.metrics.misses + 1 }

-- The first part of `get`
def checkGet (key : κ) : QueryCache κ τ × Bool :=
  if !cache.config.enabled then
    (cache, false)
  else if indexEpoch key ≠ cache.currentEpoch then
    (cache.missed, false)
  else
    (cache, true)

-- The first part of `put`
def checkPut (key : κ) : Bool :=
  cache.config.enabled && indexEpoch key = cache.currentEpoch

-- The first part of `invalidate_all`, and `bump_epoch`
def bumpEpoch : QueryCache κ τ :=
  { cache with currentEpoch := (cache.currentEpoch + 1) % 2 ^ 64 }

-- The second part of `invalidate_all`
def clear : QueryCache κ τ :=
  { cache with
    entries                := .empty
    metrics.evictionsEpoch := cache.metrics.evictionsEpoch + cache.entries.rows.length
    metrics.currentEntries := 0 }

def pruneExpired (now : Nat) : QueryCache κ τ :=
  let entries := cache.entries.delete (·.2.isExpired cache.config.ttl now)
  let removed := cache.entries.rows.length - entries.rows.length
  if removed > 0 then
    { cache with
      entries
      metrics.evictionsTtl   := cache.metrics.evictionsTtl + removed
      metrics.currentEntries := entries.rows.length }
  else
    { cache with entries }

end

variable [DecidableEq κ] (cache : QueryCache κ τ)

def remove (key : κ) : QueryCache κ τ :=
  let entries := cache.entries.delete (·.1 = key)
  { cache with entries, metrics.currentEntries := entries.rows.length }

-- The second part of `get`
def lookup (now : Nat) (key : κ) : QueryCache κ τ × Option τ :=
  match cache.entries.get? key with
  | none            => (cache.missed, none)
  | some (_, entry) =>
    if entry.isExpired cache.config.ttl now then
      let cache := (cache.remove key).missed
      ({ cache with metrics.evictionsTtl := cache.metrics.evictionsTtl + 1 }, none)
    else
      let entries := cache.entries.update (·.1 = key) (fun row => (row.1, row.2.touch now)) fun _ =>
        rfl
      ({ cache with entries, metrics.hits := cache.metrics.hits + 1 }, some entry.value)

def full (key : κ) : Bool :=
  cache.entries.rows.length ≥ cache.config.maxEntries && (cache.entries.get? key).isNone

-- What `evict_lru` can choose, as the order of a hash map decides between entries that were last
-- accessed at once.
def victims : List κ :=
  (cache.entries.rows.filter fun row => cache.entries.rows.all
    (row.2.lastAccessed ≤ ·.2.lastAccessed)).map Prod.fst

def evictLru (victim : Option κ) : QueryCache κ τ :=
  match victim with
  | none     => cache
  | some key =>
    let cache := cache.remove key
    { cache with metrics.evictionsCapacity := cache.metrics.evictionsCapacity + 1 }

-- The second part of `put`
def insert (now : Nat) (key : κ) (value : τ) (victim : Option κ) : QueryCache κ τ :=
  let cache := if cache.full key then cache.evictLru victim else cache
  let entries := cache.entries.put (key, .new value now)
  { cache with
    entries
    metrics.inserts        := cache.metrics.inserts + 1
    metrics.currentEntries := entries.rows.length }

end QueryCache

-- Searches and updates of the index that run at the same time.
section System

-- A search looks its key up, computes the response if there is none, and stores it.
inductive Phase (κ τ : Type)
  | idle
  | get (key : κ)
  | lookup (key : κ)
  | compute (key : κ)
  | put (key : κ) (value : τ)
  | insert (key : κ) (value : τ)
  | responded (value : τ)

-- It began when the state of the index at this position of the history had been announced.
structure Searcher (ρ κ τ : Type) where
  request : ρ
  since   : Nat
  phase   : Phase κ τ

-- An update commits a state of the index, and then it invalidates the cache.
inductive Writer
  | idle
  | committed (position : Nat)
  | announced (position : Nat)
  | returned (position : Nat)

structure System (ι ω ρ σ κ τ : Type) where
  cache     : QueryCache κ τ
  now       : Nat
  history   : List σ
  announced : Nat
  searchers : ι → Searcher ρ κ τ
  writers   : ω → Writer

inductive Event (ι ω ρ σ κ : Type)
  | tick (now : Nat)
  | start (i : ι) (request : ρ)
  | get (i : ι)
  | lookup (i : ι)
  | compute (i : ι)
  | fail (i : ι)
  | put (i : ι)
  | insert (i : ι) (victim : Option κ)
  | prune
  | commit (w : ω) (index : σ)
  | bump (w : ω)
  | clear (w : ω)

variable {ι ω ρ σ κ τ : Type}

namespace System

def init (config : CacheConfig) (index : σ) (request : ρ) : System ι ω ρ σ κ τ where
  cache     := .new config
  now       := 0
  history   := [index]
  announced := 0
  searchers := fun _ => ⟨request, 0, .idle⟩
  writers   := fun _ => .idle

variable [DecidableEq ι] (s : System ι ω ρ σ κ τ)

def enter (i : ι) (phase : Phase κ τ) : System ι ω ρ σ κ τ :=
  { s with searchers := Function.update s.searchers i { s.searchers i with phase } }

def begin (i : ι) (request : ρ) (key : κ) : System ι ω ρ σ κ τ :=
  { s with searchers := Function.update s.searchers i ⟨request, s.announced, .get key⟩ }

end System

variable [DecidableEq ι] [DecidableEq ω] [DecidableEq κ] (indexEpoch : κ → Nat)
  (buildKey : ρ → Nat → κ)
variable (execute : ρ → σ → τ)

def step (s : System ι ω ρ σ κ τ) : Event ι ω ρ σ κ → Option (System ι ω ρ σ κ τ)
  | .tick now => if s.now ≤ now then some { s with now } else none
  | .start i request =>
    match (s.searchers i).phase with
    | .idle | .responded _ => some (s.begin i request (buildKey request s.cache.currentEpoch))
    | _                    => none
  | .get i =>
    match (s.searchers i).phase with
    | .get key =>
      let (cache, current) := s.cache.checkGet indexEpoch key
      some ({ s with cache }.enter i (if current then .lookup key else .compute key))
    | _ => none
  | .lookup i =>
    match (s.searchers i).phase with
    | .lookup key =>
      let (cache, cached) := s.cache.lookup s.now key
      some ({ s with cache }.enter i (cached.elim (.compute key) .responded))
    | _ => none
  | .compute i =>
    match (s.searchers i).phase with
    | .compute key => s.history.getLast?.map fun index =>
      s.enter i (.put key (execute (s.searchers i).request index))
    | _            => none
  | .fail i =>
    match (s.searchers i).phase with
    | .compute _ => some (s.enter i .idle)
    | _          => none
  | .put i =>
    match (s.searchers i).phase with
    | .put key value =>
      some (s.enter i (if s.cache.checkPut indexEpoch key then .insert key value
        else .responded value))
    | _ => none
  | .insert i victim =>
    match (s.searchers i).phase with
    | .insert key value =>
      if victim = none ∧ s.cache.victims = [] ∨ ∃ k ∈ s.cache.victims, victim = some k then
        some ({ s with cache := s.cache.insert s.now key value victim }.enter i (.responded value))
      else
        none
    | _ => none
  | .prune => some { s with cache := s.cache.pruneExpired s.now }
  | .commit w index =>
    match s.writers w with
    | .idle | .returned _ =>
      some { s with
        history := s.history ++ [index]
        writers := Function.update s.writers w (.committed s.history.length) }
    | _ => none
  | .bump w =>
    match s.writers w with
    | .committed position =>
      some { s with
        cache     := s.cache.bumpEpoch
        announced := s.history.length - 1
        writers   := Function.update s.writers w (.announced position) }
    | _ => none
  | .clear w =>
    match s.writers w with
    | .announced position =>
      some { s with
        cache := s.cache.clear, writers := Function.update s.writers w (.returned position) }
    | _ => none

end System

end SearchCache
