import AgentMail.Lib.Run
import Mathlib.Algebra.Group.Nat.Defs
import Mathlib.Logic.Function.Basic

namespace Retry

inductive CircuitState
  | closed
  | opened
  | halfOpen
  deriving DecidableEq

-- In microseconds.
def halfOpenProbeInterval : Nat :=
  5000000

def halfOpenSuccessThreshold : Nat :=
  3

-- The atomics, which are of type `u32` and `u64`.
structure CircuitBreaker where
  failures          : Nat
  halfOpenSuccesses : Nat
  openUntilUs       : Nat
  lastProbeUs       : Nat
  deriving DecidableEq

-- The threshold is at least one, and the duration is given in microseconds.
structure Config where
  threshold     : Nat
  resetUs       : Nat
  threshold_pos : 0 < threshold

def u64Max : Nat :=
  2 ^ 64 - 1

-- `with_params`
def Config.new (threshold resetUs : Nat) : Config where
  threshold     := max threshold 1
  resetUs       := min resetUs u64Max
  threshold_pos := Nat.le_max_right threshold 1

-- What `check` returns for a call that is not allowed. The time is that until the next attempt.
structure CircuitBreakerOpen where
  state       : CircuitState
  failures    : Nat
  remainingUs : Nat
  deriving DecidableEq

namespace CircuitBreaker

def new : CircuitBreaker where
  failures          := 0
  halfOpenSuccesses := 0
  openUntilUs       := 0
  lastProbeUs       := 0

def state (cfg : Config) (now : Nat) (cb : CircuitBreaker) : CircuitState :=
  if cb.openUntilUs > 0 ∧ now < cb.openUntilUs then .opened
  else if cb.failures ≥ cfg.threshold then .halfOpen
  else .closed

def check (cfg : Config) (now : Nat) (cb : CircuitBreaker) :
    CircuitBreaker × Except CircuitBreakerOpen Unit :=
  match cb.state cfg now with
  | .closed   => (cb, .ok ())
  | .halfOpen =>
    let elapsed := now - cb.lastProbeUs
    if cb.lastProbeUs > 0 ∧ elapsed < halfOpenProbeInterval then
      (cb, .error ⟨.halfOpen, cb.failures, halfOpenProbeInterval - elapsed⟩)
    else
      ({ cb with lastProbeUs := now }, .ok ())
  | .opened   => (cb, .error ⟨.opened, cb.failures, cb.openUntilUs - now⟩)

def recordSuccess (cfg : Config) (now : Nat) (cb : CircuitBreaker) : CircuitBreaker :=
  match cb.state cfg now with
  | .halfOpen =>
    let prev := cb.halfOpenSuccesses
    if (prev + 1) % 2 ^ 32 ≥ halfOpenSuccessThreshold then
      new
    else
      { cb with halfOpenSuccesses := (prev + 1) % 2 ^ 32 }
  | .closed   => { cb with failures := 0 }
  | .opened   => new

def recordFailure (cfg : Config) (now : Nat) (cb : CircuitBreaker) : CircuitBreaker :=
  let newCount := (cb.failures + 1) % 2 ^ 32
  { cb with
    halfOpenSuccesses := 0
    failures          := newCount
    openUntilUs       :=
      if newCount ≥ cfg.threshold then (now + cfg.resetUs) % 2 ^ 64 else cb.openUntilUs }

end CircuitBreaker

-- A client is either between its calls or runs an operation that has been allowed.
inductive Client
  | idle
  | running
  deriving DecidableEq

-- The breaker with the clients that use it. There are the times at which it opened, the times of
-- the calls that were allowed with the openings before them, the number of successes that were
-- recorded one after another in the half-open state, and this number at every change from half-open
-- to closed.
structure System (ι : Type) where
  breaker  : CircuitBreaker
  clock    : Nat
  clients  : ι → Client
  openings : List Nat
  allowed  : List (List Nat × Nat)
  streak   : Nat
  closings : List Nat

inductive Event (ι : Type)
  | tick (clock : Nat)
  | check (i : ι)
  | success (i : ι)
  | failure (i : ι)
  | finish (i : ι)

namespace System

variable {ι : Type} [DecidableEq ι] (cfg : Config)

def init (clock : Nat) : System ι where
  breaker  := .new
  clock    := clock
  clients  := fun _ => .idle
  openings := []
  allowed  := []
  streak   := 0
  closings := []

def state (s : System ι) : CircuitState :=
  s.breaker.state cfg s.clock

def goto (s : System ι) (i : ι) (client : Client) : System ι :=
  { s with clients := Function.update s.clients i client }

-- The breaker changes, with the number of successes up to now.
def change (s : System ι) (breaker : CircuitBreaker) (streak : Nat) : System ι :=
  let state' := breaker.state cfg s.clock
  { s with
    breaker  := breaker
    openings :=
      if s.state cfg ≠ .opened ∧ state' = .opened then s.openings ++ [s.clock] else s.openings
    streak   := if state' = .closed then 0 else streak
    closings :=
      if s.state cfg = .halfOpen ∧ state' = .closed then s.closings ++ [streak] else s.closings }

def step (s : System ι) : Event ι → Option (System ι)
  | .tick clock => if s.clock ≤ clock then some { s with clock } else none
  | .check i    =>
    match s.clients i with
    | .running => none
    | .idle    =>
      match s.breaker.check cfg s.clock with
      | (breaker, .error _) => some (s.change cfg breaker s.streak)
      | (breaker, .ok _)    =>
        some ({ s.change cfg breaker s.streak with
          allowed := s.allowed ++ [(s.openings, s.clock)] }.goto i .running)
  | .success i  =>
    match s.clients i with
    | .idle    => none
    | .running =>
      let streak := if s.state cfg = .halfOpen then s.streak + 1 else 0
      some ((s.change cfg (s.breaker.recordSuccess cfg s.clock) streak).goto i .idle)
  | .failure i  =>
    match s.clients i with
    | .idle    => none
    | .running => some ((s.change cfg (s.breaker.recordFailure cfg s.clock) 0).goto i .idle)
  | .finish i   =>
    match s.clients i with
    | .idle    => none
    | .running => some (s.goto i .idle)

-- No call is allowed before the duration has passed since any opening, and the breaker is not
-- closed again before there have been enough successes.
def Safe (s : System ι) : Prop :=
  (∀ x ∈ s.allowed, ∀ t ∈ x.1, t + cfg.resetUs ≤ x.2) ∧
  ∀ n ∈ s.closings, halfOpenSuccessThreshold ≤ n

-- No success is recorded while the breaker is open, and no failure makes a counter overflow.
def Guarded (s : System ι) : Event ι → Prop
  | .success _ => s.state cfg ≠ .opened
  | .failure _ => s.breaker.failures + 1 < 2 ^ 32 ∧ s.clock + cfg.resetUs < 2 ^ 64
  | _          => True

instance (s : System ι) : ∀ e, Decidable (s.Guarded cfg e)
  | .success _ => inferInstanceAs (Decidable (_ ≠ _))
  | .failure _ => inferInstanceAs (Decidable (_ ∧ _))
  | .tick _    => isTrue trivial
  | .check _   => isTrue trivial
  | .finish _  => isTrue trivial

end System
end Retry
