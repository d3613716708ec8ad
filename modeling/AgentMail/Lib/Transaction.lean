import Mathlib.Tactic.Common

-- Transactions, of which each statement may fail, and which roll back where they give up.

inductive Failure
  | err
  | cancelled
  | panicked
  deriving DecidableEq

-- The state as the connection sees it, the state to roll back to, and the number of statements so
-- far.
structure Connection (σ : Type) where
  state : σ
  saved : Option σ
  count : Nat

namespace Connection

variable {σ ρ : Type} {fails : Nat → Option Failure} {c : Connection σ}
  {effect : Connection σ → Connection σ} {giveUp : Failure → σ → ρ} {next : Connection σ → ρ}

def rollback (c : Connection σ) : Connection σ :=
  { c with state := c.saved.getD c.state, saved := none }

-- A statement that fails has no effect.
def execute (fails : Nat → Option Failure) (effect : Connection σ → Connection σ)
    (c : Connection σ) : Connection σ × Option Failure :=
  let next := { c with count := c.count + 1 }
  match fails c.count with
  | none         => (effect next, none)
  | some failure => (next, some failure)

def begin (fails : Nat → Option Failure) (c : Connection σ) : Connection σ × Option Failure :=
  c.execute fails fun c => { c with saved := some c.state }

def commit (fails : Nat → Option Failure) (c : Connection σ) : Connection σ × Option Failure :=
  c.execute fails fun c => { c with saved := none }

-- `try_in_tx!`, where giving up comes after the rollback
def tryInTx (giveUp : Failure → σ → ρ) (out : Connection σ × Option Failure)
    (next : Connection σ → ρ) : ρ :=
  match out with
  | (c, none)         => next c
  | (c, some failure) => giveUp failure c.rollback.state

-- Either all goes on after the statement, or the transaction is undone.
theorem tryInTx_execute : tryInTx giveUp (c.execute fails effect) next =
    match fails c.count with
    | none         => next (effect { c with count := c.count + 1 })
    | some failure => giveUp failure (c.saved.getD c.state) := by
  unfold execute
  cases fails c.count <;> rfl

theorem tryInTx_of_none (h : fails c.count = none) :
    tryInTx giveUp (c.execute fails effect) next =
      next (effect { c with count := c.count + 1 }) := by
  rw [tryInTx_execute, h]

end Connection
