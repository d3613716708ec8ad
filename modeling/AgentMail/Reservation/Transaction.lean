import AgentMail.Lib.Transaction
import AgentMail.Reservation.System

open Pattern

namespace Reservation.Transaction

-- What `SELECT last_insert_rowid() AS id` returns.
inductive RowidAnswer
  | lastId
  | noRow
  | undecodable
  | invalid (id : Int) (h : id ≤ 0)

def RowidAnswer.rows (db : Db) : RowidAnswer → List (Option Int)
  | lastId       => [some db.lastId]
  | noRow        => []
  | undecodable  => [none]
  | invalid id _ => [some id]

-- What goes wrong, if anything does: no connection, or a statement of the transaction by its
-- number.
structure World where
  acquire   : Option Failure
  statement : Nat → Option Failure
  rowid     : Nat → RowidAnswer

def World.calm : World where
  acquire   := none
  statement := fun _ => none
  rowid     := fun _ => .lastId

inductive CreateError
  | failed (failure : Failure)
  | resourceBusy (message : Str)
  | internal (message : Str)
  | undecodable
  deriving DecidableEq

abbrev Created :=
  Option (Db × Except CreateError (List FileReservationRow))

def rowidMessage (req : CreateRequest) (path what : Str) : Str :=
  "file reservation insert succeeded but last_insert_rowid() returned ".toList ++ what ++
    " for project_id=".toList ++ (toString req.projectId).toList ++
    " agent_id=".toList ++ (toString req.agentId).toList ++ " path=".toList ++ path

section

variable (pf : Platform) (world : World) (now : Int) (req : CreateRequest)

def giveUp (error : CreateError) (c : Connection Db) : Created :=
  some (c.rollback.state, .error error)

def tryInTx : Connection Db × Option Failure → (Connection Db → Created) → Created :=
  Connection.tryInTx fun failure db => some (db, .error (.failed failure))

def insertEach : List Str → List FileReservationRow → Connection Db → Created
  | [], out, c            =>
    tryInTx (c.commit world.statement) fun c => some (c.state, .ok out)
  | path :: paths, out, c =>
    let row := newRow now req 0 path
    tryInTx (c.execute world.statement fun c => { c with state := c.state.insertRow row }) fun c =>
      tryInTx (c.execute world.statement id) fun c =>
        match (world.rowid c.count).rows c.state with
        | []           => giveUp (.internal (rowidMessage req path "no row".toList)) c
        | none :: _    => giveUp .undecodable c
        | some id :: _ =>
          if id ≤ 0 then
            giveUp (.internal
              (rowidMessage req path ("invalid id=".toList ++ (toString id).toList))) c
          else
            insertEach paths (out ++ [{ row with id }]) c

-- `create_file_reservations`. The search for conflicts may panic.
def createFileReservations (db : Db) : Created :=
  match world.acquire with
  | some failure => some (db, .error (.failed failure))
  | none         =>
    tryInTx (Connection.begin world.statement ⟨db, none, 0⟩) fun c =>
      tryInTx (c.execute world.statement id) fun c =>
        let activeIndex := ReservationConflictIndex.build pf.globset pf.caseInsensitive <|
          (rivals pf now req c.state).map FileReservationRow.pathPattern
        match firstBusy pf activeIndex req.paths with
        | none                          => none
        | some (some (path, activePat)) =>
          giveUp (.resourceBusy (busyMessage path activePat.norm)) c
        | some none                     => insertEach world now req req.paths [] c

end

section

variable (pf : Platform) (now : Int) (req : CreateRequest) (db : Db)

-- An active reservation of another agent of the project, which is exclusive or asked for
-- exclusively.
structure Opposes (row : FileReservationRow) : Prop where
  mem       : row ∈ db.reservations.rows
  project   : row.projectId = req.projectId
  agent     : row.agentId ≠ req.agentId
  active    : db.isActive pf row
  unexpired : now < row.expiresTs
  exclusive : req.exclusive ∨ row.exclusive = 1

def Conflict : Prop :=
  ∃ path ∈ req.paths, ∃ row, Opposes pf now req db row ∧ overlap pf row.pathPattern path

-- One new row for each path, in order, and nothing else.
structure Added (db' : Db) (rows : List FileReservationRow) : Prop where
  rows_eq  : db'.reservations.rows = db.reservations.rows ++ rows
  releases : db'.releases = db.releases
  paths    : rows.map FileReservationRow.pathPattern = req.paths
  ids      : rows.map FileReservationRow.id = (List.range req.paths.length).map fun i : Nat =>
    (db.lastId + 1 + i : Int)
  new      : ∀ row ∈ rows, row = newRow now req row.id row.pathPattern

structure AllOrNothing : Prop where
  granted : (∃ db' rows, createFileReservations pf .calm now req db = some (db', .ok rows)) ↔
    ¬Conflict pf now req db
  sound   : ∀ world db' rows, createFileReservations pf world now req db = some (db', .ok rows) →
    ¬Conflict pf now req db
  added   : ∀ world db' rows, createFileReservations pf world now req db = some (db', .ok rows) →
    Added now req db db' rows
  undone  : ∀ world db' error, createFileReservations pf world now req db =
    some (db', .error error) → db' = db

-- A requested path overlaps the reservation of a rival if and only if there is a rival that is
-- looked at for a requested path and that is not found to be disjoint.
def Detected : Prop :=
  (∃ path ∈ req.paths, ∃ row ∈ rivals pf now req db, overlap pf row.pathPattern path) ↔
    ∃ path ∈ req.paths, ∃ row ∈ rivals pf now req db,
      Probed (compiled pf path) (compiled pf row.pathPattern) ∧
        (compiled pf row.pathPattern).overlaps pf.caseInsensitive (compiled pf path) ≠ some false

instance : Decidable (Detected pf now req db) :=
  inferInstanceAs (Decidable (_ ↔ _))

end

end Reservation.Transaction
