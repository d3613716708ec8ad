import AgentMail.Experience.Basic
import AgentMail.Lib.Saturating
import Mathlib.Data.Char
import Mathlib.Data.List.Lex

open Pattern (Str)
open Experience (EffectKind)

namespace Fairness

inductive ActionTier
  | lowRisk
  | mediumRisk
  | highRisk

def ActionTier.fromEffectKind : EffectKind → ActionTier
  | .advisory | .routingSuggestion | .noAction => lowRisk
  | .probe | .backpressure                     => mediumRisk
  | .release | .forceReservation               => highRisk

inductive FairnessScope
  | agent
  | project
  | program
  | cohort
  deriving DecidableEq

inductive FairnessMetric
  | interventionFrequency
  | falseActionExposure
  | suppressionExposure
  | unresolvedBacklogBurden
  | probeBurden
  | operatorNoiseBurden
  deriving DecidableEq

structure FairnessTarget where
  scope : FairnessScope
  id    : Str
  deriving DecidableEq

structure FairnessBudget where
  scope                   : FairnessScope
  metric                  : FairnessMetric
  softLimitPoints         : Nat
  hardLimitPoints         : Nat
  maxConcentrationShareBp : Nat
  starvationWindowMicros  : Option Int

inductive FairnessEventKind
  | intervention (effectKind : EffectKind)
  | falseAction (effectKind : EffectKind)
  | suppression (effectKind : EffectKind)
  | unresolvedBacklog (openItems : Nat)
  | probe
  | operatorNoise (units : Nat)
  | needDetected

structure FairnessEvent where
  target           : FairnessTarget
  kind             : FairnessEventKind
  observedTsMicros : Int

def burdenUnit : Nat :=
  100

def interventionPoints : EffectKind → Nat
  | .noAction => 0
  | _         => burdenUnit

def falseActionPoints (effectKind : EffectKind) : Nat :=
  match ActionTier.fromEffectKind effectKind with
  | .lowRisk    => burdenUnit
  | .mediumRisk => burdenUnit * 2
  | .highRisk   => burdenUnit * 4

def suppressionPoints (effectKind : EffectKind) : Nat :=
  match ActionTier.fromEffectKind effectKind with
  | .lowRisk    => burdenUnit
  | .mediumRisk => burdenUnit + 50
  | .highRisk   => burdenUnit + 150

namespace FairnessEventKind

def recordsAction : FairnessEventKind → Bool
  | intervention _ | falseAction _ | probe => true
  | _                                      => false

def recordsNeed : FairnessEventKind → Bool
  | suppression _ | unresolvedBacklog _ | needDetected => true
  | _                                                  => false

-- The counts of 16 bits that come with an event do not exceed 32 bits here.
def burdenPoints : FairnessEventKind → FairnessMetric → Nat
  | intervention effectKind, .interventionFrequency      => interventionPoints effectKind
  | falseAction effectKind, .falseActionExposure         => falseActionPoints effectKind
  | suppression effectKind, .suppressionExposure         => suppressionPoints effectKind
  | unresolvedBacklog openItems, .unresolvedBacklogBurden => openItems * burdenUnit
  | probe, .probeBurden                                  => burdenUnit
  | operatorNoise units, .operatorNoiseBurden            => units * burdenUnit
  | _, _                                                 => 0

end FairnessEventKind

structure TargetFairnessState where
  burdenPoints       : Nat
  eventCount         : Nat
  lastEventTsMicros  : Int
  lastNeedTsMicros   : Option Int
  lastActionTsMicros : Option Int

namespace TargetFairnessState

def new (nowMicros : Int) : TargetFairnessState where
  burdenPoints       := 0
  eventCount         := 0
  lastEventTsMicros  := nowMicros
  lastNeedTsMicros   := none
  lastActionTsMicros := none

def record (state : TargetFairnessState) (kind : FairnessEventKind) (points : Nat) (now : Int) :
    TargetFairnessState where
  burdenPoints       := U64.saturate (state.burdenPoints + points)
  eventCount         := U64.saturate (state.eventCount + 1)
  lastEventTsMicros  := now
  lastNeedTsMicros   := if kind.recordsNeed then some now else state.lastNeedTsMicros
  lastActionTsMicros := if kind.recordsAction then some now else state.lastActionTsMicros

def discount (state : TargetFairnessState) (discountBp : Nat) : TargetFairnessState :=
  { state with burdenPoints := U64.saturate (state.burdenPoints * discountBp) / 10000 }

end TargetFairnessState

abbrev Targets : Type :=
  Table (Prod.fst : Str × TargetFairnessState → Str)

structure FairnessSnapshot where
  scope             : FairnessScope
  metric            : FairnessMetric
  activeRegimeId    : Nat
  totalBurdenPoints : Nat
  targets           : Targets

structure ImpactedTarget where
  target               : FairnessTarget
  burdenPoints         : Nat
  concentrationShareBp : Nat
  fairnessDebtPoints   : Nat

structure StarvedTarget where
  target           : FairnessTarget
  waitedMicros     : Int
  lastNeedTsMicros : Int

inductive FairnessDisposition
  | allow
  | warn
  | veto
  deriving DecidableEq

inductive FairnessViolationCode
  | snapshotContractMismatch
  | softBudgetExceeded
  | hardBudgetExceeded
  | concentrationExceeded
  | targetWasStarved
  | otherTargetStarved
  deriving DecidableEq

inductive TradeoffWinner
  | utility
  | fairnessSoftGuard
  | fairnessHardGuard

structure UtilityTradeoff where
  rawExpectedUtilityBp : Int
  fairnessPenaltyBp    : Int
  netExpectedUtilityBp : Int
  winner               : TradeoffWinner
  vetoed               : Bool

structure FairnessAssessment where
  disposition                   : FairnessDisposition
  violations                    : List FairnessViolationCode
  projectedBurdenPoints         : Nat
  projectedConcentrationShareBp : Nat
  fairnessDebtPoints            : Nat
  mostImpactedTargets           : List ImpactedTarget
  starvedTargets                : List StarvedTarget
  tradeoff                      : UtilityTradeoff

def shareBp (numerator denominator : Nat) : Nat :=
  if numerator = 0 ∨ denominator = 0 then 0 else min (numerator * 10000 / denominator) 10000

namespace FairnessSnapshot

def new (scope : FairnessScope) (metric : FairnessMetric) (activeRegimeId : Nat) :
    FairnessSnapshot where
  scope             := scope
  metric            := metric
  activeRegimeId    := activeRegimeId
  totalBurdenPoints := 0
  targets           := .empty

variable (s : FairnessSnapshot)

def record (event : FairnessEvent) : FairnessSnapshot :=
  if event.target.scope ≠ s.scope then
    s
  else
    let now    := event.observedTsMicros
    let points := event.kind.burdenPoints s.metric
    let note   := fun state : TargetFairnessState => state.record event.kind points now
    {
      s with
      totalBurdenPoints := U64.saturate (s.totalBurdenPoints + points)
      targets           :=
        s.targets.modifyOrInsert (Prod.map id note) (fun _ => rfl)
          (event.target.id, note (.new now))
    }

def applyRegimeShift (newRegimeId discountBp : Nat) : FairnessSnapshot :=
  if newRegimeId = s.activeRegimeId then
    s
  else
    let targets := s.targets.update (fun _ => true) (Prod.map id (·.discount discountBp)) fun _ =>
      rfl
    {
      s with
      activeRegimeId    := newRegimeId
      totalBurdenPoints :=
        targets.rows.foldl (fun total row => U64.saturate (total + row.2.burdenPoints)) 0
      targets           := targets
    }

def impactedLe (left right : ImpactedTarget) : Bool :=
  if left.burdenPoints ≠ right.burdenPoints then
    right.burdenPoints < left.burdenPoints
  else if left.concentrationShareBp ≠ right.concentrationShareBp then
    right.concentrationShareBp < left.concentrationShareBp
  else
    left.target.id ≤ right.target.id

def mostImpactedTargets (limit : Nat) (budget : FairnessBudget) : List ImpactedTarget :=
  let impacted := s.targets.rows.map fun row => {
    target               := ⟨s.scope, row.1⟩
    burdenPoints         := row.2.burdenPoints
    concentrationShareBp := shareBp row.2.burdenPoints s.totalBurdenPoints
    fairnessDebtPoints   := row.2.burdenPoints - budget.softLimitPoints
  }
  (impacted.mergeSort impactedLe).take limit

def starvedLe (left right : StarvedTarget) : Bool :=
  if left.waitedMicros ≠ right.waitedMicros then
    right.waitedMicros < left.waitedMicros
  else
    left.target.id ≤ right.target.id

-- A need that was last signaled before the last action does not count.
def starvedTarget (window nowMicros : Int) (row : Str × TargetFairnessState) :
    Option StarvedTarget :=
  match row.2.lastNeedTsMicros with
  | none          => none
  | some lastNeed =>
    if row.2.lastActionTsMicros.any (lastNeed ≤ ·) then
      none
    else
      let waited := I64.saturatingSub nowMicros lastNeed
      if window ≤ waited then some ⟨⟨s.scope, row.1⟩, waited, lastNeed⟩ else none

def starvedTargets (budget : FairnessBudget) (nowMicros : Int) : List StarvedTarget :=
  match budget.starvationWindowMicros with
  | none        => []
  | some window => (s.targets.rows.filterMap (s.starvedTarget window nowMicros)).mergeSort starvedLe

-- The points of a target that is not known yet.
def burdenOf (id : Str) : Nat :=
  ((s.targets.get? id).map (·.2.burdenPoints)).getD 0

def populatedTargets : Nat :=
  s.targets.rows.countP (0 < ·.2.burdenPoints)

def mismatched (rawExpectedUtilityBp : Int) : FairnessAssessment where
  disposition                   := .veto
  violations                    := [.snapshotContractMismatch]
  projectedBurdenPoints         := 0
  projectedConcentrationShareBp := 0
  fairnessDebtPoints            := 0
  mostImpactedTargets           := []
  starvedTargets                := []
  tradeoff                      :=
    ⟨rawExpectedUtilityBp, 0, rawExpectedUtilityBp, .fairnessHardGuard, true⟩

def projectedBurden (target : FairnessTarget) (additionalBurdenPoints : Nat) : Nat :=
  U64.saturate (s.burdenOf target.id + additionalBurdenPoints)

def projectedShareBp (target : FairnessTarget) (additionalBurdenPoints : Nat) : Nat :=
  shareBp (s.projectedBurden target additionalBurdenPoints)
    (U64.saturate (s.totalBurdenPoints + additionalBurdenPoints))

def projectedPopulated (target : FairnessTarget) (additionalBurdenPoints : Nat) : Nat :=
  if additionalBurdenPoints = 0 ∨ 0 < s.burdenOf target.id then s.populatedTargets
    else s.populatedTargets + 1

def violations (budget : FairnessBudget) (target : FairnessTarget) (additionalBurdenPoints : Nat)
    (nowMicros : Int) : List FairnessViolationCode :=
  let projected := s.projectedBurden target additionalBurdenPoints
  let starved   := s.starvedTargets budget nowMicros
  let limits    :=
    if projected > budget.hardLimitPoints then
      [.hardBudgetExceeded]
    else if projected - budget.softLimitPoints > 0 then
      [.softBudgetExceeded]
    else
      []
  let concentration :=
    if s.projectedPopulated target additionalBurdenPoints ≥ 2 ∧
        s.projectedShareBp target additionalBurdenPoints > budget.maxConcentrationShareBp then
      [.concentrationExceeded]
    else
      []
  limits ++ concentration ++ (if starved.any (·.target = target) then
    [.targetWasStarved] else []) ++
    (if starved.any (·.target ≠ target) then [.otherTargetStarved] else [])

def isVeto : FairnessViolationCode → Bool
  | .hardBudgetExceeded | .concentrationExceeded | .otherTargetStarved => true
  | _                                                                  => false

def assessCandidate (budget : FairnessBudget) (target : FairnessTarget)
    (additionalBurdenPoints : Nat) (rawExpectedUtilityBp nowMicros : Int) : FairnessAssessment :=
  if budget.scope ≠ s.scope ∨ budget.metric ≠ s.metric ∨ target.scope ≠ s.scope then
    mismatched rawExpectedUtilityBp
  else
    let projected  := s.projectedBurden target additionalBurdenPoints
    let debt       := projected - budget.softLimitPoints
    let violations := s.violations budget target additionalBurdenPoints nowMicros
    let vetoed     := violations.any isVeto
    let penalty    := I32.saturate (if vetoed then max debt additionalBurdenPoints else debt : Nat)
    {
      disposition                   := if vetoed then .veto else if penalty > 0 then .warn
        else .allow
      violations                    := violations
      projectedBurdenPoints         := projected
      projectedConcentrationShareBp := s.projectedShareBp target additionalBurdenPoints
      fairnessDebtPoints            := debt
      mostImpactedTargets           := s.mostImpactedTargets 3 budget
      starvedTargets                := s.starvedTargets budget nowMicros
      tradeoff := {
        rawExpectedUtilityBp := rawExpectedUtilityBp
        fairnessPenaltyBp    := penalty
        netExpectedUtilityBp := I32.saturate (rawExpectedUtilityBp - penalty)
        winner               :=
          if vetoed then .fairnessHardGuard else if penalty > 0 then .fairnessSoftGuard
            else .utility
        vetoed               := vetoed
      }
    }

end FairnessSnapshot

inductive FairnessStep
  | record (event : FairnessEvent)
  | applyRegimeShift (newRegimeId discountBp : Nat)

def FairnessStep.ts? : FairnessStep → Option Int
  | record event        => some event.observedTsMicros
  | applyRegimeShift .. => none

namespace FairnessSnapshot

def step (s : FairnessSnapshot) : FairnessStep → FairnessSnapshot
  | .record event                          => s.record event
  | .applyRegimeShift newRegimeId discountBp => s.applyRegimeShift newRegimeId discountBp

def after (s : FairnessSnapshot) (steps : List FairnessStep) : FairnessSnapshot :=
  steps.foldl step s

end FairnessSnapshot

section History

variable (records : FairnessEventKind → Bool) (scope : FairnessScope) (steps : List FairnessStep)
  (id : Str) (t : Int)

def Notes : Prop :=
  ∃ event, .record event ∈ steps ∧ event.target = ⟨scope, id⟩ ∧ records event.kind ∧
    event.observedTsMicros = t

abbrev Signals : Prop :=
  Notes FairnessEventKind.recordsNeed scope steps id t

abbrev Acts : Prop :=
  Notes FairnessEventKind.recordsAction scope steps id t

-- A need that no action at its time or later has answered.
def Neglects : Prop :=
  Signals scope steps id t ∧ ∀ t', Acts scope steps id t' → t' < t

-- The target has waited since `deadline` or longer.
def Starves (deadline : Int) : Prop :=
  ∃ t ≤ deadline, Neglects scope steps id t

end History

-- What the runs are like: no point is lost at the upper bound of the counters.
structure Regular (s : FairnessSnapshot) (steps : List FairnessStep) : Prop where
  ordered   : (steps.filterMap FairnessStep.ts?).Pairwise (· ≤ ·)
  discounts : ∀ newRegimeId discountBp, .applyRegimeShift newRegimeId discountBp ∈ steps →
    discountBp ≤ 10000
  fits      : ∀ pre event, pre ++ [.record event] <+: steps →
    (s.after pre).totalBurdenPoints + event.kind.burdenPoints s.metric < 2 ^ 64

variable (s : FairnessSnapshot) (steps : List FairnessStep) (budget : FairnessBudget)
  (now deadline : Int)

def Limited (violations : List FairnessViolationCode) : Prop :=
  .hardBudgetExceeded ∈ violations ∨ .concentrationExceeded ∈ violations

-- `s` is the snapshot that the steps have led to.
structure Fair : Prop where
  total   : s.totalBurdenPoints = (s.targets.rows.map (·.2.burdenPoints)).sum
  starved : ∀ target, (∃ entry ∈ s.starvedTargets budget now, entry.target = target) ↔
    target.scope = s.scope ∧ Starves s.scope steps target.id deadline
  exempt  : ∀ id points utility, Starves s.scope steps id deadline →
    .otherTargetStarved ∉ (s.assessCandidate budget ⟨s.scope, id⟩ points utility now).violations
  served  : ∀ points utility, (∃ id, Starves s.scope steps id deadline) →
    (∀ target, ¬Limited (s.assessCandidate budget target points utility now).violations) →
    ∃ target, (s.assessCandidate budget target points utility now).disposition ≠ .veto

-- No starving target has signaled its need again since, none starves beside another, and the budget
-- is the right one.
structure Attended : Prop where
  quiet   : ∀ id t, Starves s.scope steps id deadline → Signals s.scope steps id t → t ≤ deadline
  alone   : ∀ id id', Starves s.scope steps id deadline → Starves s.scope steps id' deadline →
    id = id'
  matched : ∀ id, Starves s.scope steps id deadline → budget.scope = s.scope ∧
    budget.metric = s.metric

namespace FairnessSnapshot

def Starved (target : FairnessTarget) : Prop :=
  ∃ entry ∈ s.starvedTargets budget now, entry.target = target

-- Two targets of the snapshot, of which the first one does not carry more burden.
structure Ordered (a b : Str) : Prop where
  le    : s.burdenOf a ≤ s.burdenOf b
  left  : ¬s.Starved budget now ⟨s.scope, a⟩
  right : ¬s.Starved budget now ⟨s.scope, b⟩

-- With `a` there would be a second target that carries burden, and too much of it.
structure Second (a b : Str) (points : Nat) : Prop where
  free    : s.burdenOf a = 0
  only    : 0 < s.burdenOf b ∧ s.populatedTargets = 1
  exceeds : budget.maxConcentrationShareBp < s.projectedShareBp ⟨s.scope, a⟩ points

structure Favors (a b : Str) (points : Nat) (utility : Int) : Prop where
  admits  : (s.assessCandidate budget ⟨s.scope, b⟩ points utility now).disposition ≠ .veto →
    (s.assessCandidate budget ⟨s.scope, a⟩ points utility now).disposition ≠ .veto
  penalty : (s.assessCandidate budget ⟨s.scope, a⟩ points utility now).tradeoff.fairnessPenaltyBp ≤
    (s.assessCandidate budget ⟨s.scope, b⟩ points utility now).tradeoff.fairnessPenaltyBp

end FairnessSnapshot

end Fairness
