import AgentMail.Reservation.Store
import Mathlib.Logic.Function.Basic

open Pattern

namespace Reservation

-- The calls, with their arguments.
inductive Request
  | create (req : CreateRequest)
  | renew (req : RenewRequest)
  | release (projectId agentId : Int) (filter : Filter)
  | releaseByIds (ids : List Int)
  | forceRelease (id : Int) (expectedExpiresTs : Option Int)
  | releaseExpired (projectId : Int)

-- A call between its transactions. The time is read when the call is made, except for the times of
-- releases, which are read in their transaction.
inductive Call
  | create (now : Int) (req : CreateRequest)
  | renew (now : Int) (req : RenewRequest)
  | release (projectId agentId : Int) (todo : List Filter) (released : List FileReservationRow)
  | selected (projectId agentId : Int) (reservations : List FileReservationRow) (todo : List Filter)
      (released : List FileReservationRow)
  | byIds (ids : List Int) (constraint : ExpiryConstraint)
  | expired (now projectId : Int)

def Request.call (now : Int) : Request → Call
  | create req                        => .create now req
  | renew req                         => .renew now req
  | release projectId agentId filter  => .release projectId agentId [filter] []
  | releaseByIds ids                  => .byIds ids .any
  | forceRelease id expectedExpiresTs =>
    .byIds [id] (expectedExpiresTs.elim .any .exact)
  | releaseExpired projectId          => .expired now projectId

-- A call goes on, or it returns and reports the ids that it has released.
inductive Progress
  | next (call : Call)
  | done (reported : List Int)

def Progress.call : Progress → Option Call
  | next call => some call
  | done _    => none

def Progress.reported : Progress → List Int
  | next _        => []
  | done reported => reported

-- The next transaction of a call. A panic ends the transaction without a commit.
def Call.advance (pf : Platform) (clock : Int) (db : Db) : Call → Option (Db × Progress)
  | create now req => (createFileReservations pf now req db).map fun r => (r.1, .done [])
  | renew now req  => some ((renewReservations pf now req db).1, .done [])
  | release _ _ [] released => some (db, .done (released.map FileReservationRow.id))
  | release projectId agentId (filter :: todo) released =>
    match filter.chunkPlan with
    | some (target, size) =>
      some (db, .next (.release projectId agentId (filter.split size target ++ todo) released))
    | none =>
      let reservations := releasable pf projectId agentId filter db
      if reservations.isEmpty then
        some (db, .next (.release projectId agentId todo released))
      else
        some (db, .next (.selected projectId agentId reservations todo released))
  | selected projectId agentId reservations todo released =>
    let r := Reservation.releaseByIds pf .any (reservations.map FileReservationRow.id) clock db
    some (r.1, .next
      (.release projectId agentId todo (released ++ applyReleaseMarkers reservations r.2)))
  | byIds ids constraint =>
    let r := Reservation.releaseByIds pf constraint ids clock db
    some (r.1, .done (r.2.map ReleasedReservationMarker.id))
  | expired now projectId =>
    some (db, .next (.byIds (Reservation.expired pf now projectId db) (.onOrBefore now)))

-- The ids that are active before but not after a transaction.
def Db.transitions (pf : Platform) (db db' : Db) : List Int :=
  (db.reservations.rows.map FileReservationRow.id).filter fun id =>
    db.hasActive pf id && !db'.hasActive pf id

-- The calls of all agents run at the same time. For every call there is a log of the releases that
-- its transactions performed, and of those that it reported.
structure System where
  db        : Db
  clock     : Int
  started   : Nat
  calls     : Nat → Option Call
  performed : List (Nat × Int)
  reported  : List (Nat × Int)

inductive Event
  | tick (clock : Int)
  | begin (request : Request)
  | advance (c : Nat)
  | fail (c : Nat)

namespace System

def init (db : Db) (clock : Int) : System where
  db        := db
  clock     := clock
  started   := 0
  calls     := fun _ => none
  performed := []
  reported  := []

-- The state after a transaction.
def after (pf : Platform) (s : System) (c : Nat) (db : Db) (progress : Progress) : System :=
  { s with
    db        := db
    calls     := Function.update s.calls c progress.call
    performed := s.performed ++ (s.db.transitions pf db).map (c, ·)
    reported  := s.reported ++ progress.reported.map (c, ·) }

def step (pf : Platform) (s : System) : Event → Option System
  | .tick clock    => if s.clock ≤ clock then some { s with clock } else none
  | .begin request => some { s with
      started := s.started + 1
      calls   := Function.update s.calls s.started (some (request.call s.clock)) }
  | .fail c        => some { s with calls := Function.update s.calls c none }
  | .advance c     => do
    let call ← s.calls c
    let (db, progress) ← call.advance pf s.clock s.db
    return s.after pf c db progress

end System

variable (pf : Platform)

-- `p.overlaps(q)` for the patterns of two paths.
def overlap (path path' : Str) : Prop :=
  (compiled pf path).overlaps pf.caseInsensitive (compiled pf path') = some true

instance (path path' : Str) : Decidable (overlap pf path path') :=
  inferInstanceAs (Decidable (_ = _))

-- If a requested path overlaps the reservation of a rival, then there is such an overlap that is
-- looked at.
def NoHiddenConflict (now : Int) (req : CreateRequest) (db : Db) : Prop :=
  (∃ path ∈ req.paths, ∃ row ∈ rivals pf now req db, overlap pf row.pathPattern path) →
    ∃ path ∈ req.paths, ∃ row ∈ rivals pf now req db,
      overlap pf row.pathPattern path ∧ Probed (compiled pf path) (compiled pf row.pathPattern)

instance (now : Int) (req : CreateRequest) (db : Db) : Decidable (NoHiddenConflict pf now req db) :=
  inferInstanceAs (Decidable (_ → _))

-- What is created has no hidden conflict, and what is renewed has not expired since the time was
-- read.
def Call.Guarded (clock : Int) (db : Db) : Call → Prop
  | create now req => NoHiddenConflict pf now req db
  | renew now req  => ∀ row ∈ renewable pf now req db, clock < row.expiresTs
  | release ..     => True
  | selected ..    => True
  | byIds ..       => True
  | expired ..     => True

instance (clock : Int) (db : Db) : ∀ call, Decidable (Call.Guarded pf clock db call)
  | .create now req => inferInstanceAs (Decidable (NoHiddenConflict pf now req db))
  | .renew now req  => inferInstanceAs (Decidable (∀ row ∈ renewable pf now req db, _))
  | .release ..     => isTrue trivial
  | .selected ..    => isTrue trivial
  | .byIds ..       => isTrue trivial
  | .expired ..     => isTrue trivial

namespace System

-- Unreleased and not yet expired.
def IsCurrent (s : System) (row : FileReservationRow) : Prop :=
  row ∈ s.db.reservations.rows ∧ s.db.isActive pf row ∧ s.clock < row.expiresTs

instance (s : System) (row : FileReservationRow) : Decidable (s.IsCurrent pf row) :=
  inferInstanceAs (Decidable (_ ∧ _ ∧ _))

-- No two agents of a project hold overlapping reservations at the same time, if one is exclusive.
def Exclusive (s : System) : Prop :=
  ∀ row row', s.IsCurrent pf row → s.IsCurrent pf row' → row.projectId = row'.projectId →
    row.agentId ≠ row'.agentId → row.exclusive = 1 ∨ row'.exclusive = 1 →
    ¬overlap pf row.pathPattern row'.pathPattern

def Guarded (s : System) : Event → Prop
  | .advance c => ∀ call ∈ s.calls c, call.Guarded pf s.clock s.db
  | .tick _    => True
  | .begin _   => True
  | .fail _    => True

instance (s : System) : ∀ e, Decidable (s.Guarded pf e)
  | .advance c => inferInstanceAs (Decidable (∀ call ∈ s.calls c, _))
  | .tick _    => isTrue trivial
  | .begin _   => isTrue trivial
  | .fail _    => isTrue trivial

end System

end Reservation
