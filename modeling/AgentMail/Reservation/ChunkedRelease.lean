import AgentMail.Reservation.Store

open Pattern

namespace Reservation

inductive BindValue
  | bigInt (n : Int)
  | text (s : Str)
  deriving DecidableEq

-- The statements of a release.
inductive Statement
  | begin
  | createTable
  | select (projectId agentId : Int) (filter : Filter)
  | check (id : Int)
  | update (releasedTs id : Int)
  | insert (id releasedTs : Int)
  | commit

-- `append_release_reservation_filters`, as far as it binds values
def Filter.params (filter : Filter) : List BindValue :=
  (filter.ids.getD []).map .bigInt ++ (filter.paths.getD []).map .text

def Statement.params : Statement → List BindValue
  | begin                           => []
  | createTable                     => []
  | select projectId agentId filter => [.bigInt projectId, .bigInt agentId] ++ filter.params
  | check id                        => [.bigInt id]
  | update releasedTs id            => [.bigInt releasedTs, .bigInt id]
  | insert id releasedTs            => [.bigInt id, .bigInt releasedTs]
  | commit                          => []

def sqliteMaxBindParams : Nat :=
  999

-- The clock may show any times.
structure Session where
  db     : Db
  clock  : Nat → Int
  reads  : Nat
  issued : List Statement

namespace Session

def issue (statement : Statement) (s : Session) : Session :=
  { s with issued := s.issued ++ [statement] }

def nowMicros (s : Session) : Session × Int :=
  ({ s with reads := s.reads + 1 }, s.clock s.reads)

end Session

section Split

variable {filter chunk : Filter} {target : ReleaseReservationChunkTarget} {size : Nat}

theorem releaseReservationChunkPlan_eq_some {pathCount reservationIdCount : Nat}
    (h : releaseReservationChunkPlan pathCount reservationIdCount = some (target, size)) :
    0 < size ∧
      match target with
      | .reservationIds => size < reservationIdCount
      | .paths          => size < pathCount := by
  have hpos (count : Nat) :
      0 < min maxReleaseReservationChunkItems (max (maxReleaseReservationFilterItems - count) 1) :=
    Nat.lt_min.mpr ⟨by decide, Nat.lt_of_lt_of_le Nat.one_pos (Nat.le_max_right ..)⟩
  simp only [releaseReservationChunkPlan] at h
  split at h
  case h_1       => cases h
  case h_2 hi _  => cases h; exact ⟨hpos _, of_decide_eq_true hi⟩
  case h_3 _ hp  => cases h; exact ⟨hpos _, of_decide_eq_true hp⟩
  case h_4 hi hp =>
    split at h
    case isTrue  => cases h; exact ⟨hpos _, of_decide_eq_true hi⟩
    case isFalse => cases h; exact ⟨hpos _, of_decide_eq_true hp⟩

theorem length_of_chunkPlan (h : filter.chunkPlan = some (target, size)) : 0 < size ∧
    match target with
    | .reservationIds => ∃ ids, filter.ids = some ids ∧ size < ids.length
    | .paths          => ∃ paths, filter.paths = some paths ∧ size < paths.length := by
  have of_elim {α : Type} {l : Option (List α)} (hl : size < l.elim 0 List.length) :
      ∃ l', l = some l' ∧ size < l'.length := by
    cases l
    case none   => exact absurd hl (Nat.not_lt_zero _)
    case some l => exact ⟨l, rfl, hl⟩
  have ⟨hs, hl⟩ := releaseReservationChunkPlan_eq_some h
  cases target
  case reservationIds => exact ⟨hs, of_elim hl⟩
  case paths          => exact ⟨hs, of_elim hl⟩

def Filter.items (filter : Filter) : Nat :=
  filter.paths.elim 0 List.length + filter.ids.elim 0 List.length

theorem items_lt_of_mem_split (h : filter.chunkPlan = some (target, size))
    (hc : chunk ∈ filter.split size target) : chunk.items < filter.items := by
  have ⟨_, hl⟩ := length_of_chunkPlan h
  cases target
  all_goals
    have ⟨l, he, hlt⟩ := hl
    simp only [Filter.split, he, Option.elim_some, List.mem_map] at hc
    have ⟨part, hp, hc⟩ := hc
    have := length_le_of_mem_chunks hp
    simp only [← hc, Filter.items, he, Option.elim_some]
    omega

end Split

section

variable (pf : Platform)

def releaseEach : List Int → Int → Session → Session × List ReleasedReservationMarker
  | [], _, s                      => (s, [])
  | id :: ids, releaseMarker, s =>
    let eligible := isEligible pf .any s.db id
    let s := s.issue (.check id)
    if eligible then
      let s := (s.issue (.update releaseMarker id)).issue (.insert id releaseMarker)
      let s := { s with db := s.db.release id releaseMarker }
      let (s, released) := releaseEach ids (saturatingAdd releaseMarker 1) s
      (s, ⟨id, releaseMarker⟩ :: released)
    else
      releaseEach ids releaseMarker s

def releaseReservationsByIds (ids : List Int) (s : Session) :
    Session × List ReleasedReservationMarker :=
  if ids.isEmpty then
    (s, [])
  else
    let (s, releaseMarker) := ((s.issue .begin).issue .createTable).nowMicros
    let (s, released) := releaseEach pf ids releaseMarker s
    (s.issue .commit, released)

variable (projectId agentId : Int)

-- The part of `release_reservations` behind the chunking.
def releaseUnchunked (filter : Filter) (s : Session) : Session × List FileReservationRow :=
  let s := (s.issue .begin).issue (.select projectId agentId filter)
  let reservations := releasable pf projectId agentId filter s.db
  let s := s.issue .commit
  if reservations.isEmpty then
    (s, [])
  else
    let (s, markers) := releaseReservationsByIds pf (reservations.map FileReservationRow.id) s
    (s, applyReleaseMarkers reservations markers)

def releaseReservations (filter : Filter) (s : Session) : Session × List FileReservationRow :=
  match h : filter.chunkPlan with
  | none                => releaseUnchunked pf projectId agentId filter s
  | some (target, size) =>
    (filter.split size target).attach.foldl (fun acc chunk =>
      have := items_lt_of_mem_split h chunk.prop
      let (s, rows) := releaseReservations chunk.val acc.fst
      (s, acc.snd ++ rows)) (s, [])
termination_by filter.items

end

section Exact

variable (pf : Platform) (p : FileReservationRow → Bool)

def Db.activeWhere (db : Db) : List FileReservationRow :=
  db.reservations.rows.filter fun row => db.isActive pf row && p row

-- The active rows with a property are released, each of them is returned once, and nothing else
-- changes.
structure ReleasesExactly (db db' : Db) (rows : List FileReservationRow) : Prop where
  returned : (rows.map FileReservationRow.id).Perm ((db.activeWhere pf p).map FileReservationRow.id)
  released : ∀ row ∈ rows, ∃ row' ∈ db.activeWhere pf p, ∃ ts,
    row = { row' with releasedTs := .integer ts }
  recorded : ∀ row ∈ rows, row ∈ db'.reservations.rows ∧ db'.isActive pf row = false
  frame    : ∀ id ∉ rows.map FileReservationRow.id,
    db'.reservations.get? id = db.reservations.get? id ∧ db'.releases.get? id = db.releases.get? id

def owned (projectId agentId : Int) (filter : Filter) (row : FileReservationRow) : Bool :=
  row.projectId = projectId && row.agentId = agentId && filter.accepts row

end Exact

end Reservation
