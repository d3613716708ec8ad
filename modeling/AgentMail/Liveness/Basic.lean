import AgentMail.Lib.Heap
import AgentMail.Lib.Saturating
import AgentMail.Lib.Table
import AgentMail.Pattern.Basic
import Mathlib.Data.Char
import Mathlib.Data.List.Lex
import Mathlib.Data.Prod.Lex

open Pattern (Str)

namespace Liveness

inductive LivenessState
  | alive
  | flaky
  | dead
  deriving DecidableEq

inductive LivenessAction
  | declareAlive
  | suspect
  | releaseReservations
  deriving DecidableEq

structure AgentLivenessEntry where
  name             : Str
  state            : LivenessState
  lastActivityTs   : Int
  suspectSince     : Int
  probeSentAt      : Int
  scheduleVersion  : Nat
  nextReviewMicros : Int
  deriving DecidableEq

structure ScheduledAgentReview where
  reviewAtMicros  : Int
  scheduleVersion : Nat
  agent           : Str
  deriving DecidableEq

-- The order of the fields.
def ScheduledAgentReview.key (next : ScheduledAgentReview) : Int ×ₗ Nat ×ₗ Str :=
  toLex (next.reviewAtMicros, toLex (next.scheduleVersion, next.agent))

theorem ScheduledAgentReview.key_injective : Function.Injective key := by
  intro ⟨t, v, a⟩ ⟨t', v', a'⟩ h
  simp only [key, EmbeddingLike.apply_eq_iff_eq, Prod.mk.injEq] at h
  simpa using h

instance : LinearOrder ScheduledAgentReview :=
  .lift' ScheduledAgentReview.key ScheduledAgentReview.key_injective

def maxMicros : Int := 2 ^ 63 - 1

-- What the policies make of the rhythm of an agent: after how much silence it is suspicious to the
-- incumbent, and to the candidate if there is one.
structure Thresholds where
  incumbent : Str → Int
  candidate : Option (Str → Int)

structure AtcEngine where
  probeIntervalMicros : Int
  agents              : Table AgentLivenessEntry.name
  livenessSchedule    : Heap ScheduledAgentReview
  dirtyAgents         : List Str

def atcAgentName : Str := "AirTrafficControl".toList

namespace AtcEngine

def new (probeIntervalMicros : Int) : AtcEngine where
  probeIntervalMicros
  agents              := .empty
  livenessSchedule    := .empty
  dirtyAgents         := []

variable (engine : AtcEngine)

def markAgentsDirty : AtcEngine :=
  { engine with dirtyAgents := engine.dirtyAgents ∪ engine.agents.rows.map (·.name) }

def scheduledAgentCount : Nat :=
  (engine.agents.rows.filter (·.nextReviewMicros < maxMicros)).length

def compactLivenessScheduleIfNeeded : AtcEngine :=
  let maxHeapEntries := max (U64.saturate (engine.scheduledAgentCount * 4)) 64
  if engine.livenessSchedule.length ≤ maxHeapEntries then
    engine
  else
    let scheduled := engine.agents.rows.filter (·.nextReviewMicros ≠ maxMicros)
    { engine with livenessSchedule := .ofList (scheduled.map fun entry =>
      ⟨entry.nextReviewMicros, entry.scheduleVersion, entry.name⟩) }

def scheduleEntryForPush (agent : Str) (reviewAtMicros : Int) : AtcEngine :=
  match engine.agents.get? agent with
  | none       => engine
  | some entry =>
    let scheduleVersion := U64.saturate (entry.scheduleVersion + 1)
    let agents := engine.agents.update (·.name = agent)
      (fun entry => { entry with scheduleVersion, nextReviewMicros := reviewAtMicros }) fun _ => rfl
    if reviewAtMicros < maxMicros then
      let livenessSchedule := engine.livenessSchedule.push ⟨reviewAtMicros, scheduleVersion, agent⟩
      { engine with agents, livenessSchedule }.compactLivenessScheduleIfNeeded
    else
      { engine with agents }

-- The threshold is at least a microsecond.
def nextReviewTimeForPolicy (entry : AgentLivenessEntry) (threshold nowMicros : Int) : Int :=
  if entry.state = .dead ∨ entry.lastActivityTs ≤ 0 then
    maxMicros
  else
    let soon (since : Int) :=
      I64.saturatingAdd since (max (engine.probeIntervalMicros.tdiv 2) 250000)
    let nextReview := I64.saturatingAdd entry.lastActivityTs (max threshold 1)
    let nextReview := if entry.state = .flaky then min nextReview (soon nowMicros) else nextReview
    if entry.probeSentAt > 0 then min nextReview (soon entry.probeSentAt) else nextReview

def rescheduleAgent (agent : Str) (nowMicros : Int) (thresholds : Thresholds) : AtcEngine :=
  match engine.agents.get? agent with
  | none       => engine
  | some entry =>
    let incumbentReview :=
      engine.nextReviewTimeForPolicy entry (thresholds.incumbent agent) nowMicros
    let candidateReview := thresholds.candidate.elim maxMicros fun threshold =>
      engine.nextReviewTimeForPolicy entry (threshold agent) nowMicros
    engine.scheduleEntryForPush agent (min incumbentReview candidateReview)

def isCurrent (next : ScheduledAgentReview) : Bool :=
  (engine.agents.get? next.agent).any fun entry =>
    entry.scheduleVersion = next.scheduleVersion && entry.nextReviewMicros = next.reviewAtMicros

-- `if seen.insert(agent) { due.push(agent) }`
def pushDue (due : List Str) (agent : Str) : List Str :=
  if agent ∈ due then due else due ++ [agent]

def popDueAgents (nowMicros : Int) : AtcEngine × List Str :=
  let (popped, livenessSchedule) := engine.livenessSchedule.popWhile (·.reviewAtMicros ≤ nowMicros)
  let due := ((popped.filter engine.isCurrent).map (·.agent)).foldl pushDue []
  ({ engine with livenessSchedule, dirtyAgents := [] }, engine.dirtyAgents.foldl pushDue due)

def nextScheduledReviewMicros : AtcEngine × Option Int :=
  let (_, livenessSchedule) := engine.livenessSchedule.popWhile (!engine.isCurrent ·)
  ({ engine with livenessSchedule }, livenessSchedule.peek.map (·.reviewAtMicros))

def updateEntry (agent : Str) (f : AgentLivenessEntry → AgentLivenessEntry)
    (hf : ∀ entry, (f entry).name = entry.name) : AtcEngine :=
  { engine with agents := engine.agents.update (·.name = agent) f hf }

def registerAgent (name : Str) (nowMicros : Int) (thresholds : Thresholds) : AtcEngine :=
  if name = atcAgentName then
    engine
  else
    let entry : AgentLivenessEntry := ⟨name, .alive, 0, 0, 0, 0, maxMicros⟩
    { engine with agents := engine.agents.insertOrIgnore entry }.rescheduleAgent name nowMicros
      thresholds

def observed (timestampMicros : Int) (entry : AgentLivenessEntry) : AgentLivenessEntry :=
  let lastActivityTs := max entry.lastActivityTs timestampMicros
  if entry.state = .alive then { entry with lastActivityTs }
  else { entry with lastActivityTs, state := .alive, suspectSince := 0, probeSentAt := 0 }

-- Feedback on an earlier action may change the mode of the calibration.
def observeActivity (agent : Str) (timestampMicros : Int) (recalibrated : Bool)
    (thresholds : Thresholds) : AtcEngine :=
  if agent = atcAgentName then
    engine
  else
    let engine := if recalibrated then engine.markAgentsDirty else engine
    let resurrected := (engine.agents.get? agent).any (·.state ≠ .alive)
    let engine := engine.updateEntry agent (observed timestampMicros) fun _ => by
      unfold observed; split <;> rfl
    let engine := engine.rescheduleAgent agent timestampMicros thresholds
    if resurrected then { engine with dirtyAgents := engine.dirtyAgents ∪ [agent] } else engine

def suspected (nowMicros : Int) (entry : AgentLivenessEntry) : AgentLivenessEntry :=
  if entry.state = .flaky then entry else { entry with state := .flaky, suspectSince := nowMicros }

-- The incumbent chooses an action for an agent that is suspicious to it.
def inspect (nowMicros : Int) (thresholds : Thresholds) (choose : Str → Option LivenessAction)
    (acc : AtcEngine × List (Str × LivenessAction)) (agent : Str) :
    AtcEngine × List (Str × LivenessAction) :=
  let (engine, actions) := acc
  match engine.agents.get? agent with
  | none       => acc
  | some entry =>
    if entry.state = .dead then
      (engine.updateEntry agent (fun entry => { entry with nextReviewMicros := maxMicros }) fun _ =>
        rfl, actions)
    else
      match if entry.lastActivityTs > 0 then choose agent else none with
      | some .suspect =>
        let engine := engine.updateEntry agent (suspected nowMicros) fun _ => by
          unfold suspected; split <;> rfl
        (engine.rescheduleAgent agent nowMicros thresholds, actions ++ [(agent, .suspect)])
      | some .releaseReservations =>
        let engine := engine.updateEntry agent (fun entry => { entry with state := .dead }) fun _ =>
          rfl
        (engine.rescheduleAgent agent nowMicros thresholds, actions ++
          [(agent, .releaseReservations)])
      | _ => (engine.rescheduleAgent agent nowMicros thresholds, actions)

def evaluateLiveness (nowMicros : Int) (thresholds : Thresholds)
    (choose : Str → Option LivenessAction) : AtcEngine × List (Str × LivenessAction) :=
  let (engine, due) := engine.popDueAgents nowMicros
  due.foldl (inspect nowMicros thresholds choose) (engine, [])

-- The tick sends a probe, and it takes back a release that is withheld.
def probeAgent (agent : Str) (nowMicros : Int) (thresholds : Thresholds) : AtcEngine :=
  (engine.updateEntry agent ({ · with probeSentAt := nowMicros }) fun _ => rfl).rescheduleAgent
    agent nowMicros thresholds

def revived (nowMicros : Int) (entry : AgentLivenessEntry) : AgentLivenessEntry :=
  if entry.state = .dead then
    { entry with state := .flaky, suspectSince := if entry.suspectSince = 0 then nowMicros
      else entry.suspectSince }
  else
    entry

def withholdRelease (agent : Str) (nowMicros : Int) (thresholds : Thresholds) : AtcEngine :=
  (engine.updateEntry agent (revived nowMicros) fun _ => by
    unfold revived; split <;> rfl).rescheduleAgent agent nowMicros thresholds

end AtcEngine

inductive Event
  | register (name : Str) (nowMicros : Int) (thresholds : Thresholds)
  | observe (agent : Str) (timestampMicros : Int) (recalibrated : Bool) (thresholds : Thresholds)
  | evaluate (nowMicros : Int) (thresholds : Thresholds) (choose : Str → Option LivenessAction)
  | probe (agent : Str) (nowMicros : Int) (thresholds : Thresholds)
  | withhold (agent : Str) (nowMicros : Int) (thresholds : Thresholds)
  | dirty
  | status

-- An event, and the actions that it asks for.
def AtcEngine.step (engine : AtcEngine) : Event → AtcEngine × List (Str × LivenessAction)
  | .register name now thresholds                  => (engine.registerAgent name now thresholds, [])
  | .observe agent timestamp recalibrated thresholds =>
    (engine.observeActivity agent timestamp recalibrated thresholds, [])
  | .evaluate now thresholds choose                => engine.evaluateLiveness now thresholds choose
  | .probe agent now thresholds                    => (engine.probeAgent agent now thresholds, [])
  | .withhold agent now thresholds                 => (engine.withholdRelease agent now thresholds,
    [])
  | .dirty                                         => (engine.markAgentsDirty, [])
  | .status                                        => (engine.nextScheduledReviewMicros.1, [])

def AtcEngine.steps (engine : AtcEngine) : List Event → AtcEngine × List (Str × LivenessAction)
  | []      => (engine, [])
  | e :: es =>
    let (engine, actions) := engine.step e
    let (engine, actions') := engine.steps es
    (engine, actions ++ actions')

end Liveness
