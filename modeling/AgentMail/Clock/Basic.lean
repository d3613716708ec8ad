import AgentMail.Lib.Run
import Mathlib.Algebra.Group.Int.Defs
import Mathlib.Algebra.Group.Nat.Defs
import Mathlib.Logic.Function.Basic

namespace Clock

def i64Min : Int :=
  -2 ^ 63

def i64Max : Int :=
  2 ^ 63 - 1

-- Addition of `i64`s, which wraps around.
def wrap (n : Int) : Int :=
  (n - i64Min) % 2 ^ 64 + i64Min

def backwardJumpThresholdUs : Int :=
  1000000

def forwardJumpThresholdUs : Int :=
  300000000

-- A call of `now_micros` in front of its next atomic step, with the values that had been returned
-- when it started.
inductive Phase
  | idle
  | start (seen : List Int)
  | fetchMax (seen : List Int) (current : Int)
  | fetchAdd (seen : List Int)
  | done (seen : List Int) (value : Int)
  deriving DecidableEq

-- `LAST_SYSTEM_TIME_US`, the counters of jumps, the calls and what they have returned.
structure System (ι : Type) where
  last     : Int
  backward : Nat
  forward  : Nat
  threads  : ι → Phase
  returned : List (List Int × Int)

inductive Event (ι : Type)
  | call (i : ι)
  | read (i : ι) (current : Int)
  | fetchMax (i : ι)
  | fetchAdd (i : ι)
  | ret (i : ι)

namespace System

variable {ι : Type} [DecidableEq ι]

def init : System ι where
  last     := 0
  backward := 0
  forward  := 0
  threads  := fun _ => .idle
  returned := []

def goto (s : System ι) (i : ι) (phase : Phase) : System ι :=
  { s with threads := Function.update s.threads i phase }

-- Jumps of the clock are counted, except at the first call.
def count (s : System ι) (delta : Int) : System ι :=
  if s.last = 0 then s else { s with
    backward := if delta < -backwardJumpThresholdUs then s.backward + 1 else s.backward
    forward  := if delta > forwardJumpThresholdUs then s.forward + 1 else s.forward }

def step (s : System ι) : Event ι → Option (System ι)
  | .call i =>
    match s.threads i with
    | .idle => some (s.goto i (.start (s.returned.map Prod.snd)))
    | _     => none
  | .read i current =>
    match s.threads i with
    | .start seen =>
      if i64Min ≤ current ∧ current < i64Max then some (s.goto i (.fetchMax seen current)) else none
    | _ => none
  | .fetchMax i =>
    match s.threads i with
    | .fetchMax seen current =>
      let prev := s.last
      let s    := { s.count (wrap (current - prev)) with last := max prev current }
      if current > prev then some (s.goto i (.done seen current))
        else some (s.goto i (.fetchAdd seen))
    | _ => none
  | .fetchAdd i =>
    match s.threads i with
    | .fetchAdd seen =>
      let prev := s.last
      some ({ s with last := wrap (prev + 1) }.goto i (.done seen (wrap (prev + 1))))
    | _ => none
  | .ret i =>
    match s.threads i with
    | .done seen value => some ({ s with returned := s.returned ++ [(seen, value)] }.goto i .idle)
    | _                => none

-- The values are different, and larger than those that had been returned before.
def StrictlyIncreasing (s : System ι) : Prop :=
  (s.returned.map Prod.snd).Nodup ∧ ∀ x ∈ s.returned, ∀ v ∈ x.1, v < x.2

-- The mark is not incremented beyond the largest `i64`.
def InRange (s : System ι) : Event ι → Prop
  | .fetchAdd _ => s.last < i64Max
  | _           => True

instance (s : System ι) : ∀ e, Decidable (s.InRange e)
  | .fetchAdd _ => inferInstanceAs (Decidable (s.last < i64Max))
  | .call _     => isTrue trivial
  | .read _ _   => isTrue trivial
  | .fetchMax _ => isTrue trivial
  | .ret _      => isTrue trivial

end System
end Clock
