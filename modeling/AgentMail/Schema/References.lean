import AgentMail.Schema.Basic

namespace Schema

inductive Row
  | project (row : ProjectRow)
  | productLink (row : ProductProjectLinkRow)
  | agent (row : AgentRow)
  | message (row : MessageRow)
  | recipient (row : MessageRecipientRow)
  | reservation (row : FileReservationRow)
  | release (row : FileReservationReleaseRow)
  | link (row : AgentLinkRow)
  | sibling (row : ProjectSiblingSuggestionRow)
  | inboxStats (row : InboxStatsRow)
  deriving DecidableEq

def Database.rows (db : Database) : List Row :=
  db.projects.rows.map .project ++ db.productLinks.rows.map .productLink ++
    db.agents.rows.map .agent ++
    db.messages.rows.map .message ++ db.recipients.rows.map .recipient ++
    db.reservations.rows.map .reservation ++ db.releases.rows.map .release ++
      db.links.rows.map .link ++
    db.siblings.rows.map .sibling ++ db.inboxStats.rows.map .inboxStats

-- `REFERENCES projects(id)` and so on.
inductive ForeignKey
  | project (id : Int)
  | agent (id : Int)
  | message (id : Int)
  | reservation (id : Int)
  deriving DecidableEq

def Row.foreignKeys : Row → List ForeignKey
  | .project _       => []
  | .productLink row => [.project row.projectId]
  | .agent row       => [.project row.projectId]
  | .message row     => [.project row.projectId, .agent row.senderId]
  | .recipient row   => [.message row.messageId, .agent row.agentId]
  | .reservation row => [.project row.projectId, .agent row.agentId]
  | .release row     => [.reservation row.reservationId]
  | .link row        =>
    [.project row.aProjectId, .agent row.aAgentId, .project row.bProjectId, .agent row.bAgentId]
  | .sibling row     => [.project row.projectAId, .project row.projectBId]
  | .inboxStats row  => [.agent row.agentId]

-- The project of the row that is referred to.
def Database.projectOf (db : Database) : ForeignKey → Option Int
  | .project id     => (db.projects.get? id).map (·.id)
  | .agent id       => (db.agents.get? id).map (·.projectId)
  | .message id     => (db.messages.get? id).map (·.projectId)
  | .reservation id => (db.reservations.get? id).map (·.projectId)

def Database.Resolves (db : Database) (key : ForeignKey) : Prop :=
  (db.projectOf key).isSome

instance (db : Database) (key : ForeignKey) : Decidable (db.Resolves key) :=
  inferInstanceAs (Decidable (_ = true))

-- All declared references are to existing rows.
def Database.Consistent (db : Database) : Prop :=
  ∀ row ∈ db.rows, ∀ key ∈ row.foreignKeys, db.Resolves key

instance (db : Database) : Decidable db.Consistent :=
  inferInstanceAs (Decidable (∀ row ∈ db.rows, ∀ key ∈ row.foreignKeys, db.Resolves key))

-- The projects that a row mentions, directly or through another row.
def Database.mentions (db : Database) : Row → List Int
  | .project row => [row.id]
  | row          => row.foreignKeys.filterMap db.projectOf

-- A group of `GROUP BY project_id, name COLLATE NOCASE`.
def SameName (a b : AgentRow) : Prop :=
  a.projectId = b.projectId ∧ nocase a.name = nocase b.name

instance (a b : AgentRow) : Decidable (SameName a b) :=
  inferInstanceAs (Decidable (_ ∧ _))

-- `MIN(id)` of the group of an agent.
def minId (agents : List AgentRow) (a : AgentRow) : Int :=
  (agents.filter (SameName a ·)).foldl (fun id b => min id b.id) a.id

def UniqueNames (agents : Table AgentRow.id) : Prop :=
  ∀ a ∈ agents.rows, ∀ b ∈ agents.rows, SameName a b → a = b

instance (agents : Table AgentRow.id) : Decidable (UniqueNames agents) :=
  inferInstanceAs (Decidable (∀ a ∈ agents.rows, ∀ b ∈ agents.rows, SameName a b → a = b))

-- A database with or without `idx_agents_project_name_nocase`.
structure Indexed extends Database where
  nocaseIndex : Bool
  unique      : nocaseIndex → UniqueNames agents

-- `v10a_dedup_agents_case_insensitive`. Foreign keys are not enforced.
def dedupAgents (db : Indexed) : Indexed where
  toDatabase  := { db.toDatabase with
    agents := db.agents.delete fun a => a.id ∉ db.agents.rows.map (minId db.agents.rows) }
  nocaseIndex := db.nocaseIndex
  unique      := fun h a ha b hb =>
    db.unique h a (List.mem_of_mem_filter ha) b (List.mem_of_mem_filter hb)

-- `v10b_idx_agents_project_name_nocase`, which fails if there are duplicates.
def createNocaseIndex (db : Indexed) : Option Indexed :=
  if h : UniqueNames db.agents then some { db with nocaseIndex := true, unique := fun _ => h }
    else none

def migrateAgents (db : Indexed) : Option Indexed :=
  createNocaseIndex (dedupAgents db)

-- The columns that refer to an agent.
inductive Reference (db : Database) : Int → Prop
  | sender {row : MessageRow} (h : row ∈ db.messages.rows)              : Reference db row.senderId
  | recipient {row : MessageRecipientRow} (h : row ∈ db.recipients.rows) : Reference db row.agentId
  | reservation {row : FileReservationRow} (h : row ∈ db.reservations.rows) :
    Reference db row.agentId
  | linkA {row : AgentLinkRow} (h : row ∈ db.links.rows)                : Reference db row.aAgentId
  | linkB {row : AgentLinkRow} (h : row ∈ db.links.rows)                : Reference db row.bAgentId

-- All references are to existing agents.
def Resolved (db : Database) : Prop :=
  ∀ id, Reference db id → (db.agents.get? id).isSome

-- A row that was attributed to an agent is still there, and attributed to an agent of that name.
def KeepsRows {ρ : Type} (before after : Table AgentRow.id) (rows rows' : List ρ)
    (agentId : ρ → Int) : Prop :=
  ∀ row ∈ rows, ∀ a, before.get? (agentId row) = some a →
    row ∈ rows' ∧ ∃ a', after.get? (agentId row) = some a' ∧ SameName a a'

-- `messages m JOIN agents a ON a.id = m.sender_id`
def sentMessages (db : Database) : List MessageRow :=
  db.messages.rows.filter fun m => (db.agents.get? m.senderId).isSome

-- `message_recipients r JOIN agents a ON a.id = r.agent_id JOIN messages m ON m.id = r.message_id`
def receivedMessages (db : Database) : List (MessageRecipientRow × MessageRow) :=
  db.recipients.rows.filterMap fun r =>
    if (db.agents.get? r.agentId).isSome then (db.messages.get? r.messageId).map (r, ·) else none

structure LosesNoMail (before after : Database) : Prop where
  unique       : UniqueNames after.agents
  messages     : KeepsRows before.agents after.agents before.messages.rows after.messages.rows
    MessageRow.senderId
  recipients   : KeepsRows before.agents after.agents before.recipients.rows after.recipients.rows
    MessageRecipientRow.agentId
  reservations :
    KeepsRows before.agents after.agents before.reservations.rows after.reservations.rows
    FileReservationRow.agentId
  linksA       : KeepsRows before.agents after.agents before.links.rows after.links.rows
    AgentLinkRow.aAgentId
  linksB       : KeepsRows before.agents after.agents before.links.rows after.links.rows
    AgentLinkRow.bAgentId
  sent         : sentMessages after = sentMessages before
  received     : receivedMessages after = receivedMessages before

-- The agent has no older duplicate.
def Oldest (agents : Table AgentRow.id) (a : AgentRow) : Prop :=
  ∀ b ∈ agents.rows, SameName a b → a.id ≤ b.id

def OldestReferenced (db : Database) : Prop :=
  ∀ id, Reference db id → ∀ a ∈ db.agents.rows, a.id = id → Oldest db.agents a

end Schema
