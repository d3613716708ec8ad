import AgentMail.Experience.Basic
import AgentMail.Lib.Run
import AgentMail.Lib.Saturating
import Mathlib.Algebra.Order.Field.Rat

open Experience (EffectKind)

namespace RiskBudget

inductive BudgetHealth
  | healthy
  | stressed
  | coolingDown
  | blocking
  deriving DecidableEq

namespace BudgetHealth

def allowsAction : BudgetHealth → Bool
  | healthy | stressed => true
  | _                  => false

def reason : BudgetHealth → String
  | healthy     => "budget healthy, action permitted"
  | stressed    => "budget stressed (>50% consumed), action permitted with monitoring"
  | coolingDown => "budget cooling down after excessive false actions"
  | blocking    => "budget exhausted, action blocked until recovery"

end BudgetHealth

open BudgetHealth

structure BudgetConfig where
  maxFalseActionRate      : ℚ
  minObservations         : Nat
  cooldownMicros          : Int
  recoveryStreak          : Nat
  stressThresholdFraction : ℚ

def defaultBudgetConfig : EffectKind → BudgetConfig
  | .release                            => ⟨0, 20, 600000000, 20, 0⟩
  | .forceReservation                   => ⟨2 / 100, 20, 300000000, 10, 1 / 2⟩
  | .advisory                           => ⟨5 / 100, 30, 120000000, 5, 1 / 2⟩
  | .probe | .noAction                  => ⟨1, 0, 0, 0, 1⟩
  | .routingSuggestion | .backpressure  => ⟨10 / 100, 20, 120000000, 5, 1 / 2⟩

structure BudgetState where
  config                : BudgetConfig
  health                : BudgetHealth
  totalActions          : Nat
  falseActions          : Nat
  correctStreak         : Nat
  cooldownStartedMicros : Int

structure AdmissibilityResult where
  permitted               : Bool
  health                  : BudgetHealth
  reason                  : String
  falseActionRate         : ℚ
  budgetRemainingFraction : ℚ

namespace BudgetState

def new (effectKind : EffectKind) : BudgetState where
  config                := defaultBudgetConfig effectKind
  health                := healthy
  totalActions          := 0
  falseActions          := 0
  correctStreak         := 0
  cooldownStartedMicros := 0

variable (s : BudgetState)

def falseActionRate : ℚ :=
  if s.totalActions = 0 then 0 else s.falseActions / s.totalActions

def hasSufficientData : Bool :=
  s.config.minObservations ≤ s.totalActions

-- The first violation begins the cooldown. What is left after it is settled by the streak.
def computeHealth (nowMicros : Int) : BudgetHealth :=
  if s.config.maxFalseActionRate ≥ 1 then
    healthy
  else if ¬s.hasSufficientData then
    s.health
  else
    match s.health with
    | coolingDown =>
      if I64.saturatingSub nowMicros s.cooldownStartedMicros < s.config.cooldownMicros then
        coolingDown
      else if s.correctStreak ≥ s.config.recoveryStreak then
        healthy
      else
        blocking
    | blocking => if s.correctStreak ≥ s.config.recoveryStreak then healthy else blocking
    | _        =>
      if s.falseActionRate > s.config.maxFalseActionRate then
        coolingDown
      else if s.falseActionRate > s.config.maxFalseActionRate *
        s.config.stressThresholdFraction then
        stressed
      else
        healthy

-- The totals are 64 bits wide, the streak is 32 bits wide.
def count (falseAction : Bool) : BudgetState :=
  {
    s with
    totalActions  := (s.totalActions + 1) % 2 ^ 64
    falseActions  := if falseAction then (s.falseActions + 1) % 2 ^ 64 else s.falseActions
    correctStreak := if falseAction then 0 else (s.correctStreak + 1) % 2 ^ 32
  }

def recordOutcome (falseAction : Bool) (nowMicros : Int) : BudgetState :=
  let s := s.count falseAction
  let newHealth := s.computeHealth nowMicros
  {
    s with
    health                := newHealth
    cooldownStartedMicros :=
      if newHealth = coolingDown ∧ s.health ≠ coolingDown then nowMicros
        else s.cooldownStartedMicros
  }

def remainingFraction : ℚ :=
  if s.config.maxFalseActionRate > 0 then
    1 - min (s.falseActionRate / s.config.maxFalseActionRate) 1
  else if s.falseActions > 0 then
    0
  else
    1

def checkAdmissibility (nowMicros : Int) : AdmissibilityResult :=
  if s.config.maxFalseActionRate ≥ 1 then
    ⟨true, healthy, "action type has unlimited budget", s.falseActionRate, 1⟩
  else
    let health := s.computeHealth nowMicros
    ⟨health.allowsAction, health, health.reason, s.falseActionRate, s.remainingFraction⟩

end BudgetState

structure StratumKey where
  effectKind : EffectKind
  riskTier   : Nat
  deriving DecidableEq

abbrev RiskBudgetTable : Type :=
  Table (Prod.fst : StratumKey × BudgetState → StratumKey)

namespace RiskBudgetTable

variable (t : RiskBudgetTable)

-- A stratum without enough data is permitted whatever its budget says.
def checkAdmissibility (key : StratumKey) (nowMicros : Int) : AdmissibilityResult :=
  match (t.get? key).filter (·.2.hasSufficientData) with
  | some (_, budget) => budget.checkAdmissibility nowMicros
  | none             =>
    if (defaultBudgetConfig key.effectKind).maxFalseActionRate ≥ 1 then
      ⟨true, healthy, "action type has unlimited budget", 0, 1⟩
    else
      ⟨true, healthy, "insufficient data, using conservative fallback", 0, 1⟩

def recordOutcome (key : StratumKey) (falseAction : Bool) (nowMicros : Int) : RiskBudgetTable :=
  t.modifyOrInsert (Prod.map id (·.recordOutcome falseAction nowMicros))
    (fun _ => rfl) (key, (BudgetState.new key.effectKind).recordOutcome falseAction nowMicros)

end RiskBudgetTable

inductive Call
  | recordOutcome (falseAction : Bool) (nowMicros : Int)
  | checkAdmissibility (nowMicros : Int)

namespace Call

def time : Call → Int
  | recordOutcome _ nowMicros | checkAdmissibility nowMicros => nowMicros

def isFalseAction : Call → Bool
  | recordOutcome falseAction _ => falseAction
  | checkAdmissibility _        => false

-- The clock does not go back.
def Clocked (calls : List Call) : Prop :=
  (calls.map time).Pairwise (· ≤ ·)

instance {calls : List Call} : Decidable (Clocked calls) :=
  inferInstanceAs (Decidable (List.Pairwise _ _))

end Call

namespace BudgetState

variable (s : BudgetState)

def step : Call → BudgetState
  | .recordOutcome falseAction nowMicros => s.recordOutcome falseAction nowMicros
  | .checkAdmissibility _                => s

-- The health that a call returns.
def report : Call → BudgetHealth
  | .recordOutcome falseAction nowMicros => (s.recordOutcome falseAction nowMicros).health
  | .checkAdmissibility nowMicros        => (s.checkAdmissibility nowMicros).health

def after (calls : List Call) : BudgetState :=
  calls.foldl step s

def reports (s : BudgetState) : List Call → List BudgetHealth
  | []            => []
  | call :: calls => s.report call :: (s.step call).reports calls

-- The budget blocks, and the next call finds it recovered.
structure Recovering (nowMicros : Int) : Prop where
  sufficient : s.config.minObservations ≤ s.totalActions
  streak     : s.config.recoveryStreak ≤ s.correctStreak
  blocked    : s.health = blocking ∨
    s.health = coolingDown ∧
      s.config.cooldownMicros ≤ I64.saturatingSub nowMicros s.cooldownStartedMicros

instance {s : BudgetState} {nowMicros : Int} : Decidable (s.Recovering nowMicros) :=
  decidable_of_iff (s.config.minObservations ≤ s.totalActions ∧
    s.config.recoveryStreak ≤ s.correctStreak ∧ (s.health = blocking ∨
      s.health = coolingDown ∧
        s.config.cooldownMicros ≤ I64.saturatingSub nowMicros s.cooldownStartedMicros))
    ⟨fun ⟨hs, hk, hb⟩ => ⟨hs, hk, hb⟩, fun ⟨hs, hk, hb⟩ => ⟨hs, hk, hb⟩⟩

-- `s` has come to `s.after calls`, and is asked at `now`.
structure Lawful (calls : List Call) (now : Int) : Prop where
  cooldown  : ∀ pre falseAction t₀ mid, calls = pre ++ .recordOutcome falseAction t₀ :: mid →
    (s.after pre).health ≠ coolingDown →
    ((s.after pre).recordOutcome falseAction t₀).health = coolingDown →
    now < t₀ + s.config.cooldownMicros → ¬((s.after calls).checkAdmissibility now).permitted
  earned    : ∀ pre mid call, calls = pre ++ mid → ¬(s.after pre).health.allowsAction →
    (∀ health ∈ (s.after pre).reports mid, ¬health.allowsAction) →
      ((s.after calls).report call).allowsAction →
    s.config.recoveryStreak ≤ ((s.after calls).step call).correctStreak
  exhausted : s.config.maxFalseActionRate < (s.after calls).falseActionRate →
    s.config.minObservations ≤ (s.after calls).totalActions →
    (s.after calls).correctStreak < s.config.recoveryStreak →
    ¬((s.after calls).checkAdmissibility now).permitted
  lasting   : ∀ pre mid t later, calls = pre ++ (mid ++ .checkAdmissibility t :: later) →
    ¬(s.after pre).health.allowsAction →
    ((s.after (pre ++ mid)).checkAdmissibility t).health = healthy →
    (∀ call ∈ later, ¬call.isFalseAction) →
    ∀ health ∈ (s.after (pre ++ mid)).reports (later ++ [.checkAdmissibility now]),
      health.allowsAction

-- No counter overflows.
structure Counts (falseAction : Bool) : Prop where
  total  : s.totalActions + 1 < 2 ^ 64
  falses : falseAction → s.falseActions + 1 < 2 ^ 64
  streak : ¬falseAction → s.correctStreak + 1 < 2 ^ 32

instance {s : BudgetState} {falseAction : Bool} : Decidable (s.Counts falseAction) :=
  decidable_of_iff (s.totalActions + 1 < 2 ^ 64 ∧ (falseAction → s.falseActions + 1 < 2 ^ 64) ∧
    (¬falseAction → s.correctStreak + 1 < 2 ^ 32))
    ⟨fun ⟨ht, hf, hs⟩ => ⟨ht, hf, hs⟩, fun ⟨ht, hf, hs⟩ => ⟨ht, hf, hs⟩⟩

-- A check that finds the budget recovered finds that the false actions that are counted for life do
-- not block it again.
def Meets : Call → Prop
  | .recordOutcome falseAction _   => s.Counts falseAction
  | .checkAdmissibility nowMicros =>
    s.Recovering nowMicros → s.falseActions ≤ s.config.maxFalseActionRate * (s.totalActions + 1)

instance decidableMeets {s : BudgetState} : ∀ call, Decidable (s.Meets call)
  | .recordOutcome falseAction _  => inferInstanceAs (Decidable (s.Counts falseAction))
  | .checkAdmissibility nowMicros => inferInstanceAs (Decidable (s.Recovering nowMicros → _ ≤ _))

-- Every call of the run meets the condition in the state that it finds.
def Guarded (calls : List Call) : Prop :=
  Along (fun s call => some (s.step call)) Meets s calls

instance {s : BudgetState} {calls : List Call} : Decidable (s.Guarded calls) :=
  decidableAlong s calls

end BudgetState

end RiskBudget
