import AgentMail.Lib.Float64
import AgentMail.Lib.Json
import AgentMail.Lib.Run
import AgentMail.Lib.Table
import AgentMail.Pattern.Basic

open Pattern (Str)

namespace Experience

inductive ExperienceState
  | planned
  | dispatched
  | executed
  | failed
  | throttled
  | suppressed
  | skipped
  | opened
  | resolved
  | censored
  | expired
  deriving DecidableEq

namespace ExperienceState

def isTerminal : ExperienceState → Bool
  | failed | throttled | suppressed | skipped | resolved | censored | expired => true
  | _                                                                         => false

def isNonExecution : ExperienceState → Bool
  | skipped | throttled | suppressed => true
  | _                                => false

def toString : ExperienceState → String
  | planned    => "planned"
  | dispatched => "dispatched"
  | executed   => "executed"
  | failed     => "failed"
  | throttled  => "throttled"
  | suppressed => "suppressed"
  | skipped    => "skipped"
  | opened     => "open"
  | resolved   => "resolved"
  | censored   => "censored"
  | expired    => "expired"

instance : ToString ExperienceState :=
  ⟨toString⟩

end ExperienceState

open ExperienceState

def validateTransition (src dst : ExperienceState) : Except String Unit :=
  if src = dst then
    .ok ()
  else
    match src, dst with
    | planned, dispatched => .ok ()
    | dispatched, executed | dispatched, failed | dispatched, throttled | dispatched,
      suppressed | dispatched, skipped =>
      .ok ()
    | executed, opened => .ok ()
    | opened, resolved | opened, censored | opened, expired => .ok ()
    | _, _ => .error "invalid experience state transition"

inductive EffectKind
  | advisory
  | probe
  | release
  | forceReservation
  | routingSuggestion
  | backpressure
  | noAction
  deriving DecidableEq

inductive NonExecutionReason
  | budgetExhausted (budgetName : Str) (current threshold : Float64)
  | safetyGate (gateName : Str) (riskScore gateThreshold : Float64)
  | deliberateInaction (noActionLoss bestActionLoss : Float64)
  | calibrationFallback (reason : Str)

structure ExperienceOutcome where
  observedTsMicros : Int
  label            : Str
  correct          : Bool
  actualLoss       : Option Float64
  regret           : Option Float64
  evidence         : Option Json

-- The columns that the lifecycle writes.
structure ExperienceRow where
  experienceId       : Nat
  state              : ExperienceState
  nonExecutionReason : Option NonExecutionReason
  outcome            : Option ExperienceOutcome
  dispatchedTsMicros : Option Int
  executedTsMicros   : Option Int
  resolvedTsMicros   : Option Int
  context            : Option Json

inductive DbError
  | sqlite (message : String)
  | notFound (entity : String) (identifier : String)
  | invalidArgument (field : String) (message : String)
  | internal (message : String)

mutual

def mergeJsonObject (existing : List (Str × Json)) : List (Str × Json) → List (Str × Json)
  | []                  => existing
  | (key, value) :: patch =>
    let merged := mergeJsonValue ((existing.find? (·.fst = key)).map Prod.snd) value
    let existing :=
      if existing.any (·.fst = key) then
        existing.map fun field => if field.fst = key then (key, merged) else field
      else
        existing ++ [(key, merged)]
    mergeJsonObject existing patch

def mergeJsonValue (existing : Option Json) : Json → Json
  | .object patch =>
    match existing with
    | some (.object fields) => .object (mergeJsonObject fields patch)
    | _                     => .object patch
  | value => value

end

def mergeContextPatch (existing : Option Json) : Option Json → Except DbError (Option Json)
  | none                => .ok existing
  | some (.object patch) =>
    let merged :=
      match existing with
      | some (.object fields) => fields
      | some other            => [("base_context".toList, other)]
      | none                  => []
    .ok (some (.object (mergeJsonObject merged patch)))
  | some _ =>
    .error (.invalidArgument "context_patch" "execution context patch must be a JSON object")

-- Reading a row back, where JSON that was written may not be readable or change. The lifecycle
-- columns do not.
structure Decoder where
  decode    : ExperienceRow → Except DbError ExperienceRow
  lifecycle : ∀ {stored row}, decode stored = .ok row →
    row.state = stored.state ∧ row.nonExecutionReason.isSome = stored.nonExecutionReason.isSome ∧
    row.dispatchedTsMicros = stored.dispatchedTsMicros ∧
    row.executedTsMicros = stored.executedTsMicros ∧ row.resolvedTsMicros = stored.resolvedTsMicros

abbrev Store : Type :=
  Table ExperienceRow.experienceId

structure TransitionRequest where
  newState           : ExperienceState
  tsMicros           : Int
  nonExecutionReason : Option NonExecutionReason
  contextPatch       : Option Json

namespace ExperienceRow

def transitionTo (row : ExperienceRow) (newState : ExperienceState) : Except String ExperienceRow :=
  (validateTransition row.state newState).map fun _ => { row with state := newState }

def stamp (row : ExperienceRow) (newState : ExperienceState) (tsMicros : Int) : ExperienceRow :=
  match newState with
  | planned | opened => row
  | dispatched => { row with dispatchedTsMicros := row.dispatchedTsMicros.or tsMicros }
  | executed | failed | throttled | suppressed | skipped =>
    { row with executedTsMicros := row.executedTsMicros.or tsMicros }
  | resolved | censored | expired =>
    { row with resolvedTsMicros := row.resolvedTsMicros.or tsMicros }

def setReason (row : ExperienceRow) (req : TransitionRequest) : ExperienceRow :=
  if req.newState.isNonExecution then
    { row with nonExecutionReason := req.nonExecutionReason.or row.nonExecutionReason }
  else
    { row with nonExecutionReason := none }

def transition (row : ExperienceRow) (id : Nat) (req : TransitionRequest) :
    Except DbError ExperienceRow := do
  if row.state ≠ req.newState then
    if let .error reason := validateTransition row.state req.newState then
      throw (.invalidArgument "state"
        s!"experience {id} cannot transition from {row.state} to {req.newState}: {reason}")
  if req.nonExecutionReason.isSome ∧ ¬req.newState.isNonExecution then
    throw (.invalidArgument "non_execution_reason"
      s!"non_execution_reason is only valid for throttled/suppressed/skipped states, got {req.newState}")
  if req.newState.isNonExecution ∧ row.state ≠ req.newState ∧ req.nonExecutionReason.isNone then
    throw (.invalidArgument "non_execution_reason"
      s!"non_execution_reason is required when transitioning to {req.newState}")
  match row.transitionTo req.newState with
  | .error reason =>
    throw (.invalidArgument "state" s!"experience {id} transition rejected: {reason}")
  | .ok row       =>
    let row := (row.stamp req.newState req.tsMicros).setReason req
    let context ← mergeContextPatch row.context req.contextPatch
    return { row with context := context }

-- The columns that `transition_atc_experience` writes.
def write (row : ExperienceRow) (stored : ExperienceRow) : ExperienceRow :=
  {
    stored with
    state              := row.state
    nonExecutionReason := row.nonExecutionReason
    dispatchedTsMicros := row.dispatchedTsMicros
    executedTsMicros   := row.executedTsMicros
    resolvedTsMicros   := row.resolvedTsMicros
    context            := row.context
  }

theorem experienceId_write (row stored : ExperienceRow) :
    (row.write stored).experienceId = stored.experienceId :=
  rfl

def resolveWith (outcome : ExperienceOutcome) (stored : ExperienceRow) : ExperienceRow :=
  {
    stored with
    state            := resolved
    resolvedTsMicros := some outcome.observedTsMicros
    outcome          := some outcome
  }

theorem experienceId_resolveWith (outcome : ExperienceOutcome) (stored : ExperienceRow) :
    (resolveWith outcome stored).experienceId = stored.experienceId :=
  rfl

end ExperienceRow

inductive Statement
  | connect
  | begin
  | select
  | update
  | commit

-- The statements that fail, with their errors.
abbrev Faults : Type :=
  Statement → Option String

def Faults.check (faults : Faults) (statement : Statement) : Except DbError Unit :=
  match faults statement with
  | some message => .error (.sqlite message)
  | none         => .ok ()

def sqlId (id : Nat) : Except DbError Unit :=
  if id < 2 ^ 63 then .ok ()
    else .error (.internal s!"experience_id exceeds SQLite INTEGER range: {id}")

def transitionAtcExperience (d : Decoder) (store : Store) (id : Nat) (req : TransitionRequest)
    (faults : Faults) : Except DbError Store := do
  sqlId id
  faults.check .connect
  faults.check .begin
  faults.check .select
  match store.get? id with
  | none        => throw (.notFound "AtcExperience" s!"{id}")
  | some stored =>
    let row ← d.decode stored
    let row ← row.transition id req
    faults.check .update
    faults.check .commit
    return store.update (·.experienceId = id) row.write row.experienceId_write

def resolveAtcExperience (store : Store) (id : Nat) (outcome : ExperienceOutcome)
    (faults : Faults) : Except DbError Store := do
  sqlId id
  faults.check .connect
  faults.check .begin
  faults.check .update
  faults.check .commit
  return store.update (fun row => row.experienceId = id ∧ row.state = opened) (.resolveWith outcome)
    (ExperienceRow.experienceId_resolveWith outcome)

inductive Call
  | transition (req : TransitionRequest)
  | resolve (outcome : ExperienceOutcome)

structure Event where
  experienceId : Nat
  call         : Call
  faults       : Faults

def transaction (d : Decoder) (store : Store) (e : Event) : Except DbError Store :=
  match e.call with
  | .transition req  => transitionAtcExperience d store e.experienceId req e.faults
  | .resolve outcome => resolveAtcExperience store e.experienceId outcome e.faults

-- A transaction that fails is rolled back.
def step (d : Decoder) (store : Store) (e : Event) : Option Store :=
  match transaction d store e with
  | .ok store => some store
  | .error _  => some store

end Experience
