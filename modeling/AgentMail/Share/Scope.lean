import Mathlib.Data.List.Sort
import AgentMail.Schema.References

open Pattern (Str trim)
open Schema

namespace Share

-- How the database behaves: whether it enforces foreign keys, which it does for each statement, and
-- how many parameters a statement may have.
structure Engine where
  foreignKeys       : Bool
  maxVariableNumber : Nat

inductive ShareError
  | scopeNoProjects
  | scopeIdentifierNotFound (identifier : Str)
  | sqlite
  deriving DecidableEq

structure RemainingCounts where
  projects                  : Nat
  agents                    : Nat
  messages                  : Nat
  recipients                : Nat
  fileReservations          : Nat
  agentLinks                : Nat
  projectSiblingSuggestions : Nat
  deriving DecidableEq

structure ProjectScopeResult where
  identifiers  : List Str
  projects     : List ProjectRow
  removedCount : Nat
  remaining    : RemainingCounts
  deriving DecidableEq

def countRemaining (db : Database) : RemainingCounts where
  projects                  := db.projects.rows.length
  agents                    := db.agents.rows.length
  messages                  := db.messages.rows.length
  recipients                := db.recipients.rows.length
  fileReservations          := db.reservations.rows.length
  agentLinks                := db.links.rows.length
  projectSiblingSuggestions := db.siblings.rows.length

def lookup (projects : List ProjectRow) : Str → Option ProjectRow :=
  projects.foldl
    (fun lookup p => Function.update (Function.update lookup (nocase p.slug) (some p))
      (nocase p.humanKey) (some p))
    fun _ => none

def matchIdentifiers (lookup : Str → Option ProjectRow) :
    List Str → List ProjectRow → Except ShareError (List ProjectRow)
  | [], matched                   => .ok matched
  | ident :: identifiers, matched =>
    let key := nocase (trim ident)
    if key = [] then matchIdentifiers lookup identifiers matched
    else
      match lookup key with
      | some p =>
        matchIdentifiers lookup identifiers (if p.id ∈ matched.map (·.id) then matched
          else matched ++ [p])
      | none   => .error (.scopeIdentifierNotFound ident)

section

variable (engine : Engine)

-- A statement that leads to the given state. It fails if a row that stays refers to one that does
-- not.
def exec (params : Nat) (db db' : Database) : Option Database :=
  if engine.maxVariableNumber < params then none
  else if engine.foreignKeys ∧ ∃ row ∈ db'.rows, ∃ key ∈ row.foreignKeys, db.Resolves key ∧
    ¬db'.Resolves key
    then none
  else some db'

def query (params : Nat) : Option Unit :=
  if engine.maxVariableNumber < params then none else some ()

def deleteLinks (ids : List Int) (db : Database) : Database :=
  { db with links := db.links.delete fun row => row.aProjectId ∉ ids ∨ row.bProjectId ∉ ids }

def deleteSiblings (ids : List Int) (db : Database) : Database :=
  { db with siblings := db.siblings.delete fun row => row.projectAId ∉ ids ∨ row.projectBId ∉ ids }

def deleteRecipients (msgIds : List Int) (db : Database) : Database :=
  { db with recipients := db.recipients.delete fun row => row.messageId ∈ msgIds }

def deleteMessages (ids : List Int) (db : Database) : Database :=
  { db with messages := db.messages.delete fun row => row.projectId ∉ ids }

def deleteReservations (ids : List Int) (db : Database) : Database :=
  { db with reservations := db.reservations.delete fun row => row.projectId ∉ ids }

def deleteReleases (db : Database) : Database :=
  { db with releases := db.releases.delete fun row => row.reservationId ∉
    db.reservations.rows.map (·.id) }

def deleteAgents (ids : List Int) (db : Database) : Database :=
  { db with agents := db.agents.delete fun row => row.projectId ∉ ids }

def deleteProjects (ids : List Int) (db : Database) : Database :=
  { db with projects := db.projects.delete fun row => row.id ∉ ids }

-- The messages of the projects that are removed.
def messageIds (ids : List Int) (db : Database) : List Int :=
  (db.messages.rows.filter (·.projectId ∉ ids)).map (·.id)

def execRecipients (msgIds : List Int) (db : Database) : Option Database :=
  if msgIds = [] then some db else exec engine msgIds.length db (deleteRecipients msgIds db)

-- The transaction.
def deleteOthers (ids : List Int) (db : Database) : Option Database := do
  let db ← exec engine (2 * ids.length) db (deleteLinks ids db)
  let db ← exec engine (2 * ids.length) db (deleteSiblings ids db)
  query engine ids.length
  let db ← execRecipients engine (messageIds ids db) db
  let db ← exec engine ids.length db (deleteMessages ids db)
  let db ← exec engine ids.length db (deleteReservations ids db)
  let db ← exec engine 0 db (deleteReleases db)
  let db ← exec engine ids.length db (deleteAgents ids db)
  exec engine ids.length db (deleteProjects ids db)

-- The database afterwards, and the result.
def applyProjectScope (db : Database) (identifiers : List Str) :
    Database × Except ShareError ProjectScopeResult :=
  let allProjects := db.projects.rows.insertionSort (·.id ≤ ·.id)
  if allProjects = [] then (db, .error .scopeNoProjects)
  else if identifiers = [] then (db, .ok ⟨[], allProjects, 0, countRemaining db⟩)
  else
    match matchIdentifiers (lookup allProjects) identifiers [] with
    | .error e => (db, .error e)
    | .ok matched =>
      if matched = [] then (db, .ok ⟨identifiers, allProjects, 0, countRemaining db⟩)
      else
        let ids := matched.map (·.id)
        let disallowed := allProjects.filter (·.id ∉ ids)
        if disallowed = [] then (db, .ok ⟨identifiers, matched, 0, countRemaining db⟩)
        else
          match deleteOthers engine ids db with
          | none     => (db, .error .sqlite)
          | some db' => (db', .ok ⟨identifiers, matched, disallowed.length, countRemaining db'⟩)

end

section

variable (db : Database) (identifiers : List Str)

-- The identifiers are those of projects, or blank.
def Identifies : Prop :=
  ∀ ident ∈ identifiers, trim ident ≠ [] →
    ∃ p ∈ db.projects.rows, p.slug = trim ident ∨ p.humanKey = trim ident

instance : Decidable (Identifies db identifiers) :=
  inferInstanceAs (Decidable (∀ ident ∈ identifiers, trim ident ≠ [] →
    ∃ p ∈ db.projects.rows, p.slug = trim ident ∨ p.humanKey = trim ident))

structure Scoped (db' : Database) : Prop where
  kept : ∀ ident ∈ identifiers, trim ident ≠ [] → ∀ p ∈ db.projects.rows,
    p.slug = trim ident ∨ p.humanKey = trim ident → p ∈ db'.projects.rows
  rows : ∀ row, row ∈ db'.rows ↔
    row ∈ db.rows ∧ ∀ id ∈ db.mentions row, ∃ p ∈ db'.projects.rows, p.id = id

-- What is expected of a call.
structure KeepsSelected (engine : Engine) : Prop where
  selected : ∃ result, (applyProjectScope engine db identifiers).2 = .ok result ∧
    Scoped db identifiers (applyProjectScope engine db identifiers).1
  failed   : ∀ e, (applyProjectScope engine db identifiers).2 = .error e →
    (applyProjectScope engine db identifiers).1 = db

def SameKey (p : ProjectRow) (ident : Str) : Prop :=
  nocase p.slug = nocase (trim ident) ∨ nocase p.humanKey = nocase (trim ident)

-- The project is the newest one with the slug or path of one of the identifiers, up to case.
def Selected (id : Int) : Prop :=
  ∃ ident ∈ identifiers, trim ident ≠ [] ∧ ∃ p ∈ db.projects.rows, p.id = id ∧ SameKey p ident ∧
    ∀ q ∈ db.projects.rows, SameKey q ident → q.id ≤ p.id

-- The columns by which the rows are chosen.
def checkedKeys : Row → List ForeignKey
  | .project _       => []
  | .productLink _   => []
  | .agent row       => [.project row.projectId]
  | .message row     => [.project row.projectId]
  | .recipient row   => [.message row.messageId]
  | .reservation row => [.project row.projectId]
  | .release row     => [.reservation row.reservationId]
  | .link row        => [.project row.aProjectId, .project row.bProjectId]
  | .sibling row     => [.project row.projectAId, .project row.projectBId]
  | .inboxStats _    => []

def Within (keep : Int → Prop) (key : ForeignKey) : Prop :=
  ∀ id, db.projectOf key = some id → keep id

-- A row that is chosen refers only to projects that are kept. If foreign keys are enforced, no
-- release is of a reservation that is removed. The projects that are kept, and the messages that
-- are removed, are not too many.
structure Separate (engine : Engine) (keep : Int → Prop) : Prop where
  rows     : ∀ row ∈ db.rows, (∀ key ∈ checkedKeys row, Within db keep key) →
    ∀ key ∈ row.foreignKeys, Within db keep key
  releases : engine.foreignKeys → ∀ row ∈ db.releases.rows,
    Within db keep (.reservation row.reservationId)
  projects : ∀ ids : List Int, ids.Nodup → (∀ id ∈ ids, keep id) →
    2 * ids.length ≤ engine.maxVariableNumber
  messages : ∀ rows : List MessageRow, rows.Nodup →
    (∀ row ∈ rows, row ∈ db.messages.rows ∧ ¬keep row.projectId) →
    rows.length ≤ engine.maxVariableNumber

-- Every project that has an identifier is selected, and if only some are selected, they are
-- separate.
structure Selectable (engine : Engine) : Prop where
  nonempty    : db.projects.rows ≠ []
  unambiguous : ∀ ident ∈ identifiers, trim ident ≠ [] → ∀ p ∈ db.projects.rows,
    p.slug = trim ident ∨ p.humanKey = trim ident → Selected db identifiers p.id
  separate    : (∃ ident ∈ identifiers, trim ident ≠ []) →
    (∃ p ∈ db.projects.rows, ¬Selected db identifiers p.id) →
      Separate db engine (Selected db identifiers)

end

end Share
