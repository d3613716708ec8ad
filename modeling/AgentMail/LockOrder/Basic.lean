import Mathlib.Data.Fintype.Basic
import Mathlib.Logic.Function.Basic
import Mathlib.Logic.Relation
import AgentMail.Lib.Run

namespace LockOrder

inductive LockLevel
  | dbPoolCache
  | dbSqliteInitGates
  | dbReadCacheProjectsBySlug
  | dbReadCacheProjectsByHumanKey
  | dbReadCacheAgentsByKey
  | dbReadCacheAgentsById
  | dbReadCacheInboxStats
  | dbReadCacheDeferredTouches
  | dbReadCacheLastTouchFlush
  | dbQueryTrackerInner
  | storageArchiveLockMap
  | storageRepoCache
  | storageSignalDebounce
  | storageWbqDrainHandle
  | storageWbqStats
  | storageCommitQueue
  | toolsBridgedEnv
  | toolsToolMetrics
  | serverLiveDashboard
  deriving DecidableEq

def LockLevel.rank : LockLevel → Nat
  | dbPoolCache                   => 10
  | dbSqliteInitGates             => 11
  | dbReadCacheProjectsBySlug     => 20
  | dbReadCacheProjectsByHumanKey => 21
  | dbReadCacheAgentsByKey        => 22
  | dbReadCacheAgentsById         => 23
  | dbReadCacheInboxStats         => 24
  | dbReadCacheDeferredTouches    => 25
  | dbReadCacheLastTouchFlush     => 26
  | dbQueryTrackerInner           => 30
  | storageArchiveLockMap         => 39
  | storageRepoCache              => 40
  | storageSignalDebounce         => 41
  | storageWbqDrainHandle         => 50
  | storageWbqStats               => 51
  | storageCommitQueue            => 60
  | toolsBridgedEnv               => 70
  | toolsToolMetrics              => 80
  | serverLiveDashboard           => 90

-- Whether `HELD_LOCKS` lets the thread go on. The last one is the one acquired most recently.
def checkBeforeAcquire (level : LockLevel) (held : List LockLevel) : Bool :=
  match held.getLast? with
  | some last => last.rank < level.rank
  | none      => true

def didAcquire (level : LockLevel) (held : List LockLevel) : List LockLevel :=
  held ++ [level]

-- The last occurrence of the level is removed. If there is none, the tracking is corrupted.
def didRelease (level : LockLevel) (held : List LockLevel) : Option (List LockLevel) :=
  if level ∈ held then some (held.reverse.erase level).reverse else none

-- A mutex is always locked exclusively.
inductive Mode
  | shared
  | exclusive
  deriving DecidableEq

-- A thread in front of its next step. `lock`, `read` and `write` wait for the inner lock,
-- `try_lock` does not. A guard that is dropped is first taken from the held locks, and then unlocks
-- the inner lock, and so does the guard of a poisoned mutex that `try_lock` gives up. If the
-- tracking is corrupted, then the thread panics.
inductive Phase (ι : Type)
  | idle
  | locking (lock : ι) (mode : Mode)
  | tryLocking (lock : ι)
  | acquired (lock : ι) (mode : Mode)
  | unlocking (lock : ι) (mode : Mode)
  | corrupted
  deriving DecidableEq

-- A thread with its `HELD_LOCKS` and with the guards that it owns. (Guards do not go to other
-- threads.)
structure Thread (ι : Type) where
  phase  : Phase ι
  held   : List LockLevel
  guards : List (ι × Mode)

section

variable {ι : Type}

-- The inner lock that the thread holds without a guard.
def Phase.inner : Phase ι → Option (ι × Mode)
  | acquired lock mode  => some (lock, mode)
  | unlocking lock mode => some (lock, mode)
  | _                   => none

-- The lock that the thread waits for.
def Phase.waiting : Phase ι → Option ι
  | locking lock _ => some lock
  | _              => none

-- The inner locks that the thread has locked.
def Thread.inner (t : Thread ι) : List (ι × Mode) :=
  t.phase.inner.toList ++ t.guards

def Thread.Holds (t : Thread ι) (lock : ι) : Prop :=
  ∃ mode, (lock, mode) ∈ t.inner

end

-- A thread starts to lock, goes on, or drops one of its guards.
inductive Event (τ ι : Type)
  | lock (i : τ) (lock : ι) (mode : Mode)
  | tryLock (i : τ) (lock : ι)
  | acquire (i : τ)
  | wouldBlock (i : τ)
  | poisoned (i : τ)
  | didAcquire (i : τ)
  | drop (i : τ) (lock : ι) (mode : Mode)
  | unlock (i : τ)

def Event.actor {τ ι : Type} : Event τ ι → τ
  | lock i _ _   => i
  | tryLock i _  => i
  | acquire i    => i
  | wouldBlock i => i
  | poisoned i   => i
  | didAcquire i => i
  | drop i _ _   => i
  | unlock i     => i

-- What a thread does at an event, where it is given which inner locks are available. If the check
-- panics, then the thread has not locked anything. It drops its guards as it unwinds, or goes on if
-- it catches the panic.
def Thread.step {τ ι : Type} [DecidableEq ι] (level : ι → LockLevel) (available : ι → Mode → Bool)
    (t : Thread ι) : Event τ ι → Option (Thread ι)
  | .lock _ lock mode =>
    if t.phase = .idle then
      if checkBeforeAcquire (level lock) t.held then some { t with phase := .locking lock mode }
      else some t
    else none
  | .tryLock _ lock =>
    if t.phase = .idle then
      if checkBeforeAcquire (level lock) t.held then some { t with phase := .tryLocking lock }
      else some t
    else none
  | .acquire _ =>
    match t.phase with
    | .locking lock mode =>
      if available lock mode then some { t with phase := .acquired lock mode } else none
    | .tryLocking lock =>
      if available lock .exclusive then some { t with phase := .acquired lock .exclusive } else none
    | _ => none
  | .wouldBlock _ =>
    match t.phase with
    | .tryLocking _ => some { t with phase := .idle }
    | _             => none
  | .poisoned _ =>
    match t.phase with
    | .tryLocking lock =>
      if available lock .exclusive then some { t with phase := .unlocking lock .exclusive }
        else none
    | _ => none
  | .didAcquire _ =>
    match t.phase with
    | .acquired lock mode =>
      some { phase := .idle, held := didAcquire (level lock) t.held, guards := t.guards ++
        [(lock, mode)] }
    | _ => none
  | .drop _ lock mode =>
    if t.phase = .idle ∧ (lock, mode) ∈ t.guards then
      match didRelease (level lock) t.held with
      | some held =>
        some { phase := .unlocking lock mode, held, guards := t.guards.erase (lock, mode) }
      | none      => some { t with phase := .corrupted }
    else none
  | .unlock _ =>
    match t.phase with
    | .unlocking _ _ => some { t with phase := .idle }
    | _              => none

-- The threads, which share locks of given levels.
structure System (τ ι : Type) where
  threads : τ → Thread ι

namespace System

variable {τ ι : Type}

def init : System τ ι where
  threads := fun _ => { phase := .idle, held := [], guards := [] }

section

variable [Fintype τ] [DecidableEq τ] [DecidableEq ι]

-- Nobody holds the inner lock, or all who do share it.
def available (s : System τ ι) (lock : ι) (mode : Mode) : Bool :=
  ∀ i, ∀ e ∈ (s.threads i).inner, e.1 = lock → e.2 = .shared ∧ mode = .shared

def step (level : ι → LockLevel) (s : System τ ι) (e : Event τ ι) : Option (System τ ι) :=
  ((s.threads e.actor).step level s.available e).map fun t =>
    { threads := Function.update s.threads e.actor t }

end

-- A thread waits for a lock that another one (or itself) holds, in whatever mode.
def WaitsFor (s : System τ ι) (i j : τ) : Prop :=
  ∃ lock, (s.threads i).phase.waiting = some lock ∧ (s.threads j).Holds lock

structure DeadlockFree (s : System τ ι) : Prop where
  increasing  : ∀ i, ((s.threads i).held.map LockLevel.rank).Pairwise (· < ·)
  checked     : ∀ i level, checkBeforeAcquire level (s.threads i).held ↔
    ∀ l ∈ (s.threads i).held, l.rank < level.rank
  uncorrupted : ∀ i, (s.threads i).phase ≠ .corrupted
  acyclic     : ∀ i, ¬Relation.TransGen s.WaitsFor i i

end System
end LockOrder
