import AgentMail.Lib.Chunks
import AgentMail.Lib.Run
import AgentMail.Lib.Table
import AgentMail.Reservation.ConflictIndex
import Mathlib.Algebra.Group.Int.Defs
import Mathlib.Algebra.Group.Nat.Defs
import Mathlib.Data.List.Nodup
import Mathlib.Data.Rat.Defs
import Mathlib.Order.Basic

open Pattern

namespace Reservation

-- Arithmetic of `i64`s that stops at the bounds.

def saturate (n : Int) : Int :=
  max (-2 ^ 63) (min n (2 ^ 63 - 1))

def saturatingAdd (a b : Int) : Int :=
  saturate (a + b)

def saturatingMul (a b : Int) : Int :=
  saturate (a * b)

-- What the code runs on: the glob engine, whether letter case is ignored, and the database's
-- `CAST(.. AS REAL)`.
structure Platform where
  globset         : Globset
  caseInsensitive : Bool
  castReal        : Str → Rat

-- The values that a column of type `INTEGER` may have nevertheless.
inductive SqlValue
  | null
  | integer (n : Int)
  | real (q : Rat)
  | text (s : Str)
  | blob
  deriving DecidableEq

structure FileReservationRow where
  id          : Int
  projectId   : Int
  agentId     : Int
  pathPattern : Str
  exclusive   : Int
  reason      : Str
  createdTs   : Int
  expiresTs   : Int
  releasedTs  : SqlValue
  deriving DecidableEq

-- The tables `file_reservations` and `file_reservation_releases`, and the last id that was
-- assigned.
structure Db where
  reservations : Table FileReservationRow.id
  releases     : Table (Prod.fst : Int × Int → Int)
  lastId       : Nat
  ids_le       : ∀ row ∈ reservations.rows, row.id ≤ lastId

namespace Db

def empty : Db where
  reservations := .empty
  releases     := .empty
  lastId       := 0
  ids_le       := nofun

def nextId (db : Db) : Int :=
  db.lastId + 1

theorem get?_nextId (db : Db) : db.reservations.get? db.nextId = none := by
  refine Table.get?_eq_none_iff.mpr fun row hr => ?_
  have := db.ids_le row hr
  simp only [nextId]
  omega

-- The ids are assigned by `AUTOINCREMENT`.
def insertRow (db : Db) (row : FileReservationRow) : Db where
  reservations := db.reservations.insert { row with id := db.nextId } db.get?_nextId
  releases     := db.releases
  lastId       := db.lastId + 1
  ids_le       := by
    intro r hr
    push_cast
    cases List.mem_append.mp hr
    case inl hr =>
      have := db.ids_le r hr
      omega
    case inr hr =>
      cases List.mem_singleton.mp hr
      exact Int.le_refl _

-- `UPDATE file_reservations SET .. WHERE id = ?`
def updateRow (db : Db) (id : Int) (f : FileReservationRow → FileReservationRow)
    (hf : ∀ row, (f row).id = row.id) : Db where
  reservations := db.reservations.update (·.id = id) f hf
  releases     := db.releases
  lastId       := db.lastId
  ids_le       := by
    intro row hr
    have ⟨r, hr, he⟩ := List.mem_map.mp hr
    have hid : row.id = r.id := by
      rw [← he]
      split
      case isTrue  => exact hf r
      case isFalse => rfl
    exact hid ▸ db.ids_le r hr

def setReleased (db : Db) (id releasedTs : Int) : Db :=
  db.updateRow id (fun row => { row with releasedTs := .integer releasedTs }) fun _ => rfl

def setExpires (db : Db) (id expiresTs : Int) : Db :=
  db.updateRow id (fun row => { row with expiresTs }) fun _ => rfl

-- `INSERT OR IGNORE INTO file_reservation_releases`
def insertRelease (db : Db) (id releasedTs : Int) : Db :=
  { db with releases := db.releases.insertOrIgnore (id, releasedTs) }

-- A release is recorded in both tables.
def release (db : Db) (id releasedTs : Int) : Db :=
  (db.setReleased id releasedTs).insertRelease id releasedTs

end Db

-- The SQL function `trim` only removes spaces.
def trimSpaces (s : Str) : Str :=
  s.dropWhile (· = ' ') |>.reverse.dropWhile (· = ' ') |>.reverse

section

variable (pf : Platform)

-- `ACTIVE_RESERVATION_LEGACY_PREDICATE`
def isUnreleased : SqlValue → Bool
  | .null      => true
  | .integer n => n ≤ 0
  | .real q    => q ≤ 0
  | .blob      => false
  | .text s    =>
    let t := trimSpaces s
    t.map Char.toLower ∈ ["".toList, "0".toList, "null".toList, "none".toList] ||
      (t.length > 0 && t.any Char.isDigit &&
        t.all (fun c => c.isDigit || c = '.' || c = '+' || c = '-') && pf.castReal t ≤ 0)

-- `ACTIVE_RESERVATION_PREDICATE`
def Db.isActive (db : Db) (row : FileReservationRow) : Bool :=
  isUnreleased pf row.releasedTs && (db.releases.get? row.id).isNone

def Db.hasActive (db : Db) (id : Int) : Bool :=
  db.reservations.rows.any fun row => row.id = id && db.isActive pf row

end

structure CreateRequest where
  projectId  : Int
  agentId    : Int
  paths      : List Str
  ttlSeconds : Int
  exclusive  : Bool
  reason     : Str

-- `AND id IN (..)` and `AND (path_pattern = ? OR ..)`, where an empty list matches nothing.
structure Filter where
  paths : Option (List Str)
  ids   : Option (List Int)

def Filter.accepts (filter : Filter) (row : FileReservationRow) : Bool :=
  filter.ids.all (row.id ∈ ·) && filter.paths.all (row.pathPattern ∈ ·)

structure RenewRequest where
  projectId     : Int
  agentId       : Int
  extendSeconds : Int
  filter        : Filter

inductive ExpiryConstraint
  | any
  | onOrBefore (cutoff : Int)
  | exact (expiresTs : Int)

def ExpiryConstraint.allows (row : FileReservationRow) : ExpiryConstraint → Bool
  | any               => true
  | onOrBefore cutoff => row.expiresTs ≤ cutoff
  | exact expiresTs   => row.expiresTs = expiresTs

structure ReleasedReservationMarker where
  id         : Int
  releasedTs : Int

section

variable (pf : Platform)

-- The active reservations of others that may be in conflict with a request.
def rivals (now : Int) (req : CreateRequest) (db : Db) : List FileReservationRow :=
  db.reservations.rows.filter fun row =>
    row.projectId = req.projectId && row.agentId ≠ req.agentId && db.isActive pf row &&
      row.expiresTs > now && (req.exclusive || row.exclusive = 1)

def compiled (path : Str) : CompiledPattern :=
  .new pf.globset pf.caseInsensitive path

-- The first requested path with a conflict. The search may panic.
def firstBusy (index : ReservationConflictIndex) : List Str →
    Option (Option (Str × CompiledPattern))
  | []            => some none
  | path :: paths => do
    match ← ReservationConflictIndex.firstConflict pf.caseInsensitive index (compiled pf path) with
    | some p => return some (path, p)
    | none   => firstBusy index paths

def busyMessage (path norm : Str) : Str :=
  "Reservation conflict: '".toList ++ path ++
    "' overlaps with active exclusive reservation '".toList ++ norm ++ "'".toList

def newRow (now : Int) (req : CreateRequest) (id : Int) (path : Str) : FileReservationRow where
  id          := id
  projectId   := req.projectId
  agentId     := req.agentId
  pathPattern := path
  exclusive   := if req.exclusive then 1 else 0
  reason      := req.reason
  createdTs   := now
  expiresTs   := saturatingAdd now (saturatingMul req.ttlSeconds 1000000)
  releasedTs  := .null

def insertRows (now : Int) (req : CreateRequest) : List Str → Db → Db × List FileReservationRow
  | [], db            => (db, [])
  | path :: paths, db =>
    let row       := newRow now req db.nextId path
    let (db, out) := insertRows now req paths (db.insertRow row)
    (db, row :: out)

def createFileReservations (now : Int) (req : CreateRequest) (db : Db) :
    Option (Db × Except Str (List FileReservationRow)) := do
  let activeIndex := ReservationConflictIndex.build pf.globset pf.caseInsensitive <|
    (rivals pf now req db).map FileReservationRow.pathPattern
  match ← firstBusy pf activeIndex req.paths with
  | some (path, activePat) => return (db, .error (busyMessage path activePat.norm))
  | none                   =>
    let (db, out) := insertRows now req req.paths db
    return (db, .ok out)

def renewable (now : Int) (req : RenewRequest) (db : Db) : List FileReservationRow :=
  db.reservations.rows.filter fun row =>
    row.projectId = req.projectId && row.agentId = req.agentId && db.isActive pf row &&
      row.expiresTs > now && req.filter.accepts row

def renewedExpiry (now : Int) (req : RenewRequest) (row : FileReservationRow) : Int :=
  saturatingAdd (max row.expiresTs now) (saturatingMul req.extendSeconds 1000000)

def renewReservations (now : Int) (req : RenewRequest) (db : Db) : Db × List FileReservationRow :=
  let reservations := renewable pf now req db
  (reservations.foldl (fun db row => db.setExpires row.id (renewedExpiry now req row)) db,
    reservations.map fun row => { row with expiresTs := renewedExpiry now req row })

def isEligible (constraint : ExpiryConstraint) (db : Db) (id : Int) : Bool :=
  db.reservations.rows.any fun row => row.id = id && db.isActive pf row && constraint.allows row

-- `release_reservations_by_ids_with_expiry_constraint`, from the time of the first release on.
def releaseByIds (constraint : ExpiryConstraint) :
    List Int → Int → Db → Db × List ReleasedReservationMarker
  | [], _, db        => (db, [])
  | id :: ids, ts, db =>
    if isEligible pf constraint db id then
      let (db, released) := releaseByIds constraint ids (saturatingAdd ts 1) (db.release id ts)
      (db, ⟨id, ts⟩ :: released)
    else
      releaseByIds constraint ids ts db

def releasable (projectId agentId : Int) (filter : Filter) (db : Db) : List FileReservationRow :=
  db.reservations.rows.filter fun row =>
    row.projectId = projectId && row.agentId = agentId && db.isActive pf row && filter.accepts row

def expired (now projectId : Int) (db : Db) : List Int :=
  (db.reservations.rows.filter fun row =>
    row.projectId = projectId && db.isActive pf row && row.expiresTs ≤
      now).map FileReservationRow.id

end

def applyReleaseMarkers (reservations : List FileReservationRow)
    (markers : List ReleasedReservationMarker) : List FileReservationRow :=
  reservations.filterMap fun row =>
    (markers.reverse.find? (·.id = row.id)).map fun marker =>
      { row with releasedTs := .integer marker.releasedTs }

inductive ReleaseReservationChunkTarget
  | reservationIds
  | paths

def maxReleaseReservationChunkItems : Nat :=
  128

-- `SQLITE_MAX_BIND_PARAMS - RELEASE_RESERVATION_BASE_BIND_PARAMS`
def maxReleaseReservationFilterItems : Nat :=
  999 - 3

def releaseReservationChunkPlan (pathCount reservationIdCount : Nat) :
    Option (ReleaseReservationChunkTarget × Nat) :=
  let limit (count : Nat) :=
    min maxReleaseReservationChunkItems (max (maxReleaseReservationFilterItems - count) 1)
  let idsLimit   := limit pathCount
  let pathsLimit := limit reservationIdCount
  match decide (reservationIdCount > idsLimit), decide (pathCount > pathsLimit) with
  | false, false => none
  | true, false  => some (.reservationIds, idsLimit)
  | false, true  => some (.paths, pathsLimit)
  | true, true   =>
    if reservationIdCount ≥ pathCount then some (.reservationIds, idsLimit)
      else some (.paths, pathsLimit)

def Filter.chunkPlan (filter : Filter) : Option (ReleaseReservationChunkTarget × Nat) :=
  releaseReservationChunkPlan (filter.paths.elim 0 List.length) (filter.ids.elim 0 List.length)

def Filter.split (filter : Filter) (size : Nat) : ReleaseReservationChunkTarget → List Filter
  | .reservationIds => (filter.ids.elim [] (chunks size)).map fun chunk =>
      { filter with ids := some chunk }
  | .paths          => (filter.paths.elim [] (chunks size)).map fun chunk =>
      { filter with paths := some chunk }

end Reservation
