import AgentMail.Lib.Saturating
import AgentMail.Reservation.System
import Mathlib.Data.List.Sort

open Pattern

namespace Reservation.Cleanup

structure Config where
  inactivityUs : Int
  graceUs      : Int

structure AgentRow where
  reaperExempt : Int
  lastActiveTs : Int

-- What is read about a reservation when it is looked at. A lookup that fails returns nothing.
structure Activity where
  agent    : Option AgentRow
  lastMail : Option Int
  path     : Bool

def Activity.agentInactive (activity : Activity) (config : Config) (now : Int) : Bool :=
  match activity.agent with
  | some agent =>
    if agent.reaperExempt ≠ 0 then false
      else I64.saturatingSub now agent.lastActiveTs > config.inactivityUs
  | none => false

def Activity.recentMail (activity : Activity) (config : Config) (now : Int) : Bool :=
  activity.lastMail.any fun ts => I64.saturatingSub now ts ≤ config.graceUs

def normalizePathPatternKey (pathPattern : Str) : Str :=
  (trim pathPattern).dropWhile (· = '/')

-- The first answer for a key is kept.
def cached {κ : Type} [BEq κ] (cache : List (κ × Bool)) (key : κ) (computed : Bool) :
    Bool × List (κ × Bool) :=
  match cache.lookup key with
  | some answer => (answer, cache)
  | none        => (computed, (key, computed) :: cache)

structure Caches where
  inactiveAgent      : List (Int × Bool)
  recentMail         : List (Int × Bool)
  recentPathActivity : List (Str × Bool)

def Caches.empty : Caches where
  inactiveAgent      := []
  recentMail         := []
  recentPathActivity := []

-- Whether all checks of a reservation are negative. A check that is positive ends them.
def Caches.isStale (caches : Caches) (config : Config) (now : Int) (activity : Activity)
    (res : FileReservationRow) : Bool × Caches :=
  let (agentInactive, inactiveAgent) :=
    cached caches.inactiveAgent res.agentId (activity.agentInactive config now)
  let caches := { caches with inactiveAgent }
  if ¬agentInactive then
    (false, caches)
  else
    let (recentMail, recentMailCache) :=
      cached caches.recentMail res.agentId (activity.recentMail config now)
    let caches := { caches with recentMail := recentMailCache }
    if recentMail then
      (false, caches)
    else
      let key := normalizePathPatternKey res.pathPattern
      let (recentPath, recentPathActivity) := cached caches.recentPathActivity key activity.path
      (!recentPath, { caches with recentPathActivity })

-- Where the worker is in its cycle. The first phase is over once the worker detects stale
-- reservations.
inductive Phase
  | start
  | next
  | expiring (projectId now : Int)
  | releasingExpired (projectId now : Int) (ids : List Int)
  | detecting (projectId : Int)
  | listing (projectId now : Int)
  | probing (now : Int) (active todo : List FileReservationRow) (caches : Caches)
      (staleIds : List Int)
  | releasing (active : List FileReservationRow) (staleIds : List Int)
  | finished

section

variable (pf : Platform)

def projectIdsWithActiveReservations (db : Db) : List Int :=
  ((db.reservations.rows.filter (db.isActive pf)).map FileReservationRow.projectId).dedup

def listUnreleasedFileReservations (projectId : Int) (db : Db) : List FileReservationRow :=
  (db.reservations.rows.filter fun row => row.projectId = projectId &&
    db.isActive pf row).insertionSort (·.id ≤ ·.id)

def activeReservationsForStaleCleanup (projectId now : Int) (db : Db) : List FileReservationRow :=
  (listUnreleasedFileReservations pf projectId db).filter (·.expiresTs > now)

end

end Reservation.Cleanup

namespace Reservation

section

variable (pf : Platform)

-- The reservations whose expiry a call is about to extend.
def Call.extended (db : Db) : Call → List Int
  | renew now req =>
    ((renewable pf now req db).filter fun row => row.expiresTs < renewedExpiry now req row).map
      FileReservationRow.id
  | _ => []

-- A renewal does not shorten a reservation, and it is done before the new expiry.
def Call.Extends (clock : Int) (db : Db) : Call → Prop
  | renew now req => ∀ row ∈ renewable pf now req db,
    row.expiresTs ≤ renewedExpiry now req row ∧ clock < renewedExpiry now req row
  | create ..     => True
  | release ..    => True
  | selected ..   => True
  | byIds ..      => True
  | expired ..    => True

instance (clock : Int) (db : Db) : ∀ call, Decidable (Call.Extends pf clock db call)
  | .renew now req => inferInstanceAs (Decidable (∀ row ∈ renewable pf now req db, _))
  | .create ..     => isTrue trivial
  | .release ..    => isTrue trivial
  | .selected ..   => isTrue trivial
  | .byIds ..      => isTrue trivial
  | .expired ..    => isTrue trivial

end

open Reservation.Cleanup

-- One cycle of the worker next to the calls of the agents. What was renewed, as the expiry was
-- extended, since the worker has listed its rows is noted, and what the worker has released,
-- reported and taken back.
structure Cleanup where
  agents    : System
  todo      : List Int
  phase     : Phase
  renewed   : List Int
  performed : List Int
  reported  : List Int
  takenBack : List Int

namespace Cleanup

inductive Event
  | agent (e : Reservation.Event)
  | work (activity : Activity)
  | fail

def init (db : Db) (clock : Int) : Cleanup where
  agents    := .init db clock
  todo      := []
  phase     := .start
  renewed   := []
  performed := []
  reported  := []
  takenBack := []

variable (pf : Platform) (config : Config)

def extended (s : System) : Reservation.Event → List Int
  | .advance c => (s.calls c).elim [] (Call.extended pf s.db)
  | _          => []

variable (s : Cleanup)

-- The transaction that releases the ids, and what follows on it.
def release (constraint : ExpiryConstraint) (ids : List Int) (phase : Phase) : Cleanup :=
  let r := releaseByIds pf constraint ids s.agents.clock s.agents.db
  let performed := s.agents.db.transitions pf r.1
  { s with
    agents    := { s.agents with db := r.1 }
    phase     := phase
    performed := s.performed ++ performed
    reported  := s.reported ++ r.2.map ReleasedReservationMarker.id
    takenBack := s.takenBack ++ performed.filter (· ∈ s.renewed) }

def work (activity : Activity) : Option Cleanup :=
  let db := s.agents.db
  let clock := s.agents.clock
  match s.phase with
  | .start => some { s with todo := projectIdsWithActiveReservations pf db, phase := .next }
  | .next =>
    match s.todo with
    | []                => some { s with phase := .finished }
    | projectId :: todo => some { s with todo, phase := .expiring projectId clock }
  | .expiring projectId now =>
    let ids := expired pf now projectId db
    some { s with
      renewed := []
      phase   := if ids.isEmpty then .detecting projectId else .releasingExpired projectId now ids }
  | .releasingExpired projectId now ids =>
    some (s.release pf (.onOrBefore now) ids (.detecting projectId))
  | .detecting projectId => some { s with phase := .listing projectId clock }
  | .listing projectId now =>
    let active := activeReservationsForStaleCleanup pf projectId now db
    some { s with
      renewed := []
      phase   := if active.isEmpty then .next else .probing now active active .empty [] }
  | .probing now active (res :: todo) caches staleIds =>
    let (stale, caches) := caches.isStale config now activity res
    some { s with phase := .probing now active todo caches (if stale then staleIds ++ [res.id]
      else staleIds) }
  | .probing _ active [] _ staleIds =>
    some { s with phase := if staleIds.isEmpty then .next else .releasing active staleIds }
  | .releasing _ staleIds => some (s.release pf .any staleIds .next)
  | .finished => none

-- After an error the worker goes on with the second phase, or with the next project.
def afterError : Phase → Phase
  | .start                          => .finished
  | .expiring projectId _           => .detecting projectId
  | .releasingExpired projectId _ _ => .detecting projectId
  | .finished                       => .finished
  | _                               => .next

def step : Event → Option Cleanup
  | .agent e       => (s.agents.step pf e).map fun agents =>
    { s with agents, renewed := s.renewed ++ extended pf s.agents e }
  | .work activity => s.work pf config activity
  | .fail          => some { s with phase := afterError s.phase }

-- No renewal is taken back, and the worker reports what it has released.
structure Spares : Prop where
  renewals : s.takenBack = []
  reports  : s.reported.Perm s.performed

-- What is released as stale still has the expiry that was listed.
def Phase.Current (db : Db) : Phase → Prop
  | .releasing active staleIds => ∀ row ∈ active, row.id ∈ staleIds → db.hasActive pf row.id →
    isEligible pf (.exact row.expiresTs) db row.id
  | _ => True

instance (db : Db) : ∀ phase, Decidable (Phase.Current pf db phase)
  | .releasing active staleIds =>
    inferInstanceAs (Decidable (∀ row ∈ active, row.id ∈ staleIds → _ → _))
  | .start | .next | .expiring .. | .releasingExpired .. | .detecting .. | .listing .. | .probing
    .. | .finished =>
    isTrue trivial

def Undisturbed (s : Cleanup) : Event → Prop
  | .agent (.advance c) => ∀ call ∈ s.agents.calls c, call.Extends pf s.agents.clock s.agents.db
  | .work _             => s.phase.Current pf s.agents.db
  | _                   => True

instance (s : Cleanup) : ∀ e, Decidable (s.Undisturbed pf e)
  | .agent (.advance c) => inferInstanceAs (Decidable (∀ call ∈ s.agents.calls c, _))
  | .work _             => inferInstanceAs (Decidable (s.phase.Current pf s.agents.db))
  | .agent (.tick _) | .agent (.begin _) | .agent (.fail _) | .fail => isTrue trivial

end Cleanup

end Reservation
