import AgentMail.Experience.Basic
import AgentMail.Lib.Saturating

namespace Experience

open ExperienceState

inductive CensorReason
  | windowExpired
  | subjectDeparted
  | overlappingInterventions (interventionCount : Nat)
  | exogenousRecovery
  | concurrentOperatorChange (changeDescription : String)
  | ambiguousResult (description : String)
  | insufficientEvidence (expected observed : Nat)

inductive OutcomeLabel
  | success (realizedLoss confidence : Float64)
  | failure (realizedLoss confidence : Float64) (reason : String)
  | correct (realizedLoss : Float64)
  | incorrect (realizedLoss : Float64) (falsePositive : Bool)
  | censored (reason : CensorReason)
  | nonExecution (inactionCorrect : Bool) (realizedLoss : Float64)

def OutcomeLabel.hasLearningSignal : OutcomeLabel → Bool
  | censored _ => false
  | _          => true

structure AttributionWindow where
  maxWindowMicros            : Int
  minDelayMicros             : Int
  maxConcurrentInterventions : Nat
  censorOnExogenousRecovery  : Bool

def attributionWindow : EffectKind → AttributionWindow
  | .probe                       => ⟨60000000, 0, 0, false⟩
  | .advisory                    => ⟨300000000, 5000000, 1, true⟩
  | .release | .forceReservation => ⟨120000000, 0, 0, false⟩
  | .routingSuggestion           => ⟨300000000, 10000000, 1, true⟩
  | .backpressure                => ⟨120000000, 5000000, 1, true⟩
  | .noAction                    => ⟨300000000, 30000000, 0, false⟩

inductive SituationChange
  | improved
  | unchanged
  | worsened
  deriving DecidableEq

structure ExecutionEvidence where
  observedTsMicros  : Int
  effectAchieved    : Bool
  situationChange   : SituationChange
  exogenousRecovery : Bool
  realizedLoss      : Float64

structure LabelingInput where
  state                       : ExperienceState
  effectKind                  : EffectKind
  createdTsMicros             : Int
  executedTsMicros            : Option Int
  nowMicros                   : Int
  nonExecutionReason          : Option NonExecutionReason
  concurrentInterventionCount : Nat
  subjectDeparted             : Bool
  operatorChange              : Option String
  executionEvidence           : Option ExecutionEvidence

structure LabelingResult where
  label    : OutcomeLabel
  newState : ExperienceState
  ruleId   : String

namespace LabelingResult

def censored (reason : CensorReason) (newState : ExperienceState) (ruleId : String) :
    LabelingResult :=
  ⟨.censored reason, newState, ruleId⟩

def resolved (label : OutcomeLabel) (ruleId : String) : LabelingResult :=
  ⟨label, .resolved, ruleId⟩

end LabelingResult

section

open LabelingResult (censored resolved)

def censorPreAnchorEvidence (anchorMicros : Int) (evidence : ExecutionEvidence) :
    Option LabelingResult :=
  if evidence.observedTsMicros < anchorMicros then
    some (censored (.ambiguousResult "evidence observed before attribution anchor") .censored
      "evidence_before_anchor")
  else
    none

def validateEvidenceTiming (anchorMicros : Int) (window : AttributionWindow)
    (evidence : ExecutionEvidence) : Option LabelingResult :=
  match censorPreAnchorEvidence anchorMicros evidence with
  | some result => some result
  | none        =>
    let evidenceDelay := I64.saturatingSub evidence.observedTsMicros anchorMicros
    if evidenceDelay > window.maxWindowMicros then
      some (censored .windowExpired .expired "evidence_after_window")
    else if evidenceDelay < window.minDelayMicros then
      some (censored (.ambiguousResult "evidence arrived before minimum delay") .censored
        "evidence_too_early")
    else
      none

def censorExogenousRecovery (window : AttributionWindow) (evidence : ExecutionEvidence) :
    Option LabelingResult :=
  if evidence.exogenousRecovery ∧ window.censorOnExogenousRecovery then
    some (censored .exogenousRecovery .censored "exogenous_recovery")
  else
    none

section Families

variable (evidence : ExecutionEvidence)

def labelProbe : LabelingResult :=
  if evidence.effectAchieved then
    resolved (.correct evidence.realizedLoss) "probe_responded"
  else
    resolved (.correct evidence.realizedLoss) "probe_no_response"

-- The confidences are 0.8, 0.6 and 0.7.
def labelAdvisory : LabelingResult :=
  match evidence.situationChange with
  | .improved  => resolved (.success evidence.realizedLoss ⟨0x3FE999999999999A⟩) "advisory_improved"
  | .unchanged =>
    resolved
      (.failure evidence.realizedLoss ⟨0x3FE3333333333333⟩
        "no observable behavior change after advisory")
      "advisory_unchanged"
  | .worsened =>
    resolved (.failure evidence.realizedLoss
      ⟨0x3FE6666666666666⟩ "situation worsened after advisory")
      "advisory_worsened"

def labelRelease : LabelingResult :=
  if evidence.effectAchieved then
    resolved (.correct evidence.realizedLoss) "release_correct"
  else
    resolved (.incorrect evidence.realizedLoss true) "release_false_positive"

def labelForceReservation : LabelingResult :=
  match evidence.situationChange with
  | .improved  => resolved (.correct evidence.realizedLoss) "force_reservation_resolved"
  | .unchanged => resolved (.incorrect evidence.realizedLoss true) "force_reservation_unnecessary"
  | .worsened  => resolved (.incorrect evidence.realizedLoss true) "force_reservation_harmful"

-- The confidences are 0.7, 0.5 and 0.8.
def labelRouting : LabelingResult :=
  match evidence.situationChange with
  | .improved  => resolved (.success evidence.realizedLoss ⟨0x3FE6666666666666⟩) "routing_improved"
  | .unchanged =>
    resolved
      (.failure evidence.realizedLoss ⟨0x3FE0000000000000⟩
        "load distribution unchanged after routing suggestion")
      "routing_unchanged"
  | .worsened =>
    resolved (.failure evidence.realizedLoss
      ⟨0x3FE999999999999A⟩ "load worsened after routing suggestion")
      "routing_worsened"

-- The confidences are 0.8, 0.6 and 0.9.
def labelBackpressure : LabelingResult :=
  match evidence.situationChange with
  | .improved  =>
    resolved (.success evidence.realizedLoss ⟨0x3FE999999999999A⟩) "backpressure_improved"
  | .unchanged =>
    resolved (.failure evidence.realizedLoss
      ⟨0x3FE3333333333333⟩ "queue depth unchanged after backpressure")
      "backpressure_unchanged"
  | .worsened =>
    resolved (.failure evidence.realizedLoss
      ⟨0x3FECCCCCCCCCCCCD⟩ "queue depth worsened after backpressure signal")
      "backpressure_worsened"

def labelNoAction : LabelingResult :=
  match evidence.situationChange with
  | .improved | .unchanged => resolved (.nonExecution true evidence.realizedLoss) "no_action_stable"
  | .worsened              =>
    resolved (.nonExecution false evidence.realizedLoss) "no_action_worsened"

def labelFromEvidence : EffectKind → LabelingResult
  | .probe             => labelProbe evidence
  | .advisory          => labelAdvisory evidence
  | .release           => labelRelease evidence
  | .forceReservation  => labelForceReservation evidence
  | .routingSuggestion => labelRouting evidence
  | .backpressure      => labelBackpressure evidence
  | .noAction          => labelNoAction evidence

end Families

namespace LabelingInput

def window (input : LabelingInput) : AttributionWindow :=
  attributionWindow input.effectKind

-- The checks that both groups of states begin with.
def confounded (input : LabelingInput) : Option LabelingResult :=
  if input.subjectDeparted then
    some (censored .subjectDeparted .censored "subject_departed")
  else
    match input.operatorChange with
    | some change => some (censored (.concurrentOperatorChange change) .censored "operator_change")
    | none        =>
      if input.concurrentInterventionCount > input.window.maxConcurrentInterventions then
        some
          (censored (.overlappingInterventions input.concurrentInterventionCount) .censored
            "overlapping_interventions")
      else
        none

def withEvidence (input : LabelingInput) (anchor : Int) (evidence : ExecutionEvidence)
    (labeled : LabelingResult) : LabelingResult :=
  match validateEvidenceTiming anchor input.window evidence with
  | some result => result
  | none        => (censorExogenousRecovery input.window evidence).getD labeled

def withoutEvidence (input : LabelingInput) (anchor : Int) (expiredRule awaitingRule : String) :
    LabelingResult :=
  let elapsed := I64.saturatingSub input.nowMicros anchor
  if elapsed > input.window.maxWindowMicros then
    censored .windowExpired .expired expiredRule
  else
    censored (.insufficientEvidence 1 0) input.state awaitingRule

def labelOpenOrExecuted (input : LabelingInput) : LabelingResult :=
  let anchor := input.executedTsMicros.getD input.createdTsMicros
  match input.confounded with
  | some result => result
  | none        =>
    match input.executionEvidence with
    | some evidence =>
      input.withEvidence anchor evidence (labelFromEvidence evidence input.effectKind)
    | none          => input.withoutEvidence anchor "window_expired" "awaiting_evidence"

def labelInaction (reason : NonExecutionReason) (evidence : ExecutionEvidence) : LabelingResult :=
  let notWorsened := evidence.situationChange ≠ .worsened
  match reason with
  | .deliberateInaction .. =>
    let inactionCorrect :=
      evidence.situationChange = .improved ∨ evidence.situationChange = .unchanged
    resolved (.nonExecution inactionCorrect evidence.realizedLoss) "deliberate_inaction_resolved"
  | .safetyGate ..          =>
    resolved (.nonExecution notWorsened evidence.realizedLoss) "safety_gate_resolved"
  | .budgetExhausted ..     =>
    resolved (.nonExecution notWorsened evidence.realizedLoss) "budget_exhausted_resolved"
  | .calibrationFallback .. =>
    resolved (.nonExecution notWorsened evidence.realizedLoss) "calibration_fallback_resolved"

def labelNonExecution (input : LabelingInput) : LabelingResult :=
  let anchor := input.createdTsMicros
  match input.confounded with
  | some result => result
  | none        =>
    match input.nonExecutionReason, input.executionEvidence with
    | some reason, some evidence =>
      input.withEvidence anchor evidence (labelInaction reason evidence)
    | none, _                    =>
      censored (.ambiguousResult "non-execution state without reason") .censored
        "missing_non_execution_reason"
    | some _, none =>
      input.withoutEvidence anchor "non_execution_window_expired" "non_execution_awaiting_evidence"

def labelExperience (input : LabelingInput) : LabelingResult :=
  if input.state.isNonExecution then
    input.labelNonExecution
  else
    match input.state with
    | .planned | .dispatched => censored (.insufficientEvidence 1 0) input.state "pre_execution"
    | .failed =>
      censored (.ambiguousResult "dispatch or execution failed (infra error)") .failed
        "failed_dispatch"
    | .executed | .opened => input.labelOpenOrExecuted
    | state =>
      censored (.ambiguousResult s!"already in terminal state: {state}") state "already_terminal"

end LabelingInput

end

structure ExperienceRow.Lifecycle (row : ExperienceRow) : Prop where
  reason_iff  : row.nonExecutionReason.isSome ↔ row.state.isNonExecution
  outcome_iff : row.outcome.isSome ↔ row.state = resolved

-- What a transaction may do to a row.
structure ExperienceRow.Follows (row row' : ExperienceRow) : Prop where
  transition : validateTransition row.state row'.state = .ok ()
  terminal   : row.state.isTerminal → row'.state = row.state
  dispatched : ∀ ts, row.dispatchedTsMicros = some ts → row'.dispatchedTsMicros = some ts
  executed   : ∀ ts, row.executedTsMicros = some ts → row'.executedTsMicros = some ts
  resolved   : ∀ ts, row.resolvedTsMicros = some ts → row'.resolvedTsMicros = some ts

variable (d : Decoder) (id : Nat)

structure StepHolds (store : Store) (e : Event) : Prop where
  follows     : ∀ store' row row', step d store e = some store' → store.get? id = some row →
    store'.get? id = some row' → row.Follows row' ∧ row'.Lifecycle
  resolve_ok  : ∀ store' outcome, e.experienceId = id → e.call = .resolve outcome →
    transaction d store e = .ok store' → ∃ row, store'.get? id = some row ∧ row.state = resolved
  err_same    : ∀ error store', transaction d store e = .error error →
    step d store e = some store' → store' = store

-- The lifecycle holds of the row at the start of the run and of every transaction in it.
def Holds (store : Store) (events : List Event) : Prop :=
  (∀ row, store.get? id = some row → row.Lifecycle) ∧ Along (step d) (StepHolds d id) store events

def Faults.None (faults : Faults) (statements : List Statement) : Prop :=
  ∀ s ∈ statements, faults s = none

-- The call asks to resolve an open row without an outcome, and nothing keeps it from that.
def ResolvesBare (store : Store) (e : Event) : Prop :=
  ∃ row decoded req, e.call = .transition req ∧ store.get? id = some row ∧ row.state = opened ∧
    req.newState = resolved ∧
    req.nonExecutionReason = none ∧ id < 2 ^ 63 ∧
    e.faults.None [.connect, .begin, .select, .update, .commit] ∧
    d.decode row = .ok decoded ∧
    (∃ context, mergeContextPatch decoded.context req.contextPatch = .ok context)

-- The outcome is for a row that it is not stored in, or takes the place of another time of
-- resolution.
def ResolvesAside (store : Store) (e : Event) : Prop :=
  ∃ row outcome, e.call = .resolve outcome ∧ store.get? id = some row ∧ id < 2 ^ 63 ∧
    e.faults.None [.connect, .begin, .update, .commit] ∧
    (row.state ≠ opened ∧ row.state ≠ resolved ∨
      row.state = opened ∧ ∃ ts, row.resolvedTsMicros = some ts ∧ ts ≠ outcome.observedTsMicros)

def Meets (store : Store) (e : Event) : Prop :=
  e.experienceId = id → ¬ResolvesBare d id store e ∧ ¬ResolvesAside id store e

namespace LabelingInput

structure RespectsLifecycle (input : LabelingInput) : Prop where
  accepted : validateTransition input.state input.labelExperience.newState = .ok ()
  signal   : input.labelExperience.label.hasLearningSignal ↔
    input.labelExperience.newState = resolved
  ageless  : input.executionEvidence.isSome →
    ∀ now, { input with nowMicros := now }.labelExperience = input.labelExperience
  expired  : input.executionEvidence = none → input.labelExperience.newState = expired →
    ∀ now ≥ input.nowMicros, { input with nowMicros := now }.labelExperience = input.labelExperience

-- Nothing has been observed yet, and the window is still open.
structure Undecided (input : LabelingInput) (anchor : Int) : Prop where
  subject     : input.subjectDeparted = false
  operator    : input.operatorChange = none
  concurrent  : input.concurrentInterventionCount ≤ input.window.maxConcurrentInterventions
  evidence    : input.executionEvidence = none
  open_window : I64.saturatingSub input.nowMicros anchor ≤ input.window.maxWindowMicros

-- The states that no decision may be stored from have none to store.
structure Storable (input : LabelingInput) : Prop where
  unresolved   : input.state ≠ resolved
  executed     : input.state = executed →
    input.Undecided (input.executedTsMicros.getD input.createdTsMicros)
  nonExecution : input.state.isNonExecution → input.nonExecutionReason.isSome ∧
    input.Undecided input.createdTsMicros

end LabelingInput

end Experience
