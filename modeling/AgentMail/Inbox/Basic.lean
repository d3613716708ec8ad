import AgentMail.Lib.Chunks
import AgentMail.Lib.Table
import AgentMail.Pattern.Basic
import Mathlib.Data.List.Sort

open Pattern

namespace Inbox

structure MessageRow where
  id          : Int
  projectId   : Int
  ackRequired : Int
  createdTs   : Int
  deriving DecidableEq

structure MessageRecipientRow where
  messageId : Int
  agentId   : Int
  kind      : Str
  readTs    : Option Int
  ackTs     : Option Int
  deriving DecidableEq

def MessageRecipientRow.key (row : MessageRecipientRow) : Int × Int :=
  (row.messageId, row.agentId)

structure InboxStatsRow where
  agentId         : Int
  totalCount      : Int
  unreadCount     : Int
  ackPendingCount : Int
  lastMessageTs   : Option Int
  deriving DecidableEq

-- The tables `messages`, `message_recipients` and `inbox_stats`, the last id that was assigned to a
-- message, and whether the triggers for `inbox_stats` are installed.
structure Db where
  messages   : Table MessageRow.id
  recipients : Table MessageRecipientRow.key
  inboxStats : Table InboxStatsRow.agentId
  lastId     : Nat
  ids_le     : ∀ row ∈ messages.rows, row.id ≤ lastId
  triggers   : Bool

inductive DbError
  | notFound (entity identifier : Str)
  | constraint
  deriving DecidableEq

namespace Db

def empty (triggers : Bool) : Db where
  messages   := .empty
  recipients := .empty
  inboxStats := .empty
  lastId     := 0
  ids_le     := nofun
  triggers   := triggers

def nextId (db : Db) : Int :=
  db.lastId + 1

theorem get?_nextId (db : Db) : db.messages.get? db.nextId = none := by
  refine Table.get?_eq_none_iff.mpr fun row hr => ?_
  have := db.ids_le row hr
  simp only [nextId]
  omega

-- The ids are assigned by `AUTOINCREMENT`.
def insertMessage (db : Db) (row : MessageRow) : Db where
  messages   := db.messages.insert { row with id := db.nextId } db.get?_nextId
  recipients := db.recipients
  inboxStats := db.inboxStats
  lastId     := db.lastId + 1
  triggers   := db.triggers
  ids_le     := by
    intro r hr
    push_cast
    cases List.mem_append.mp hr
    case inl hr =>
      have := db.ids_le r hr
      omega
    case inr hr =>
      cases List.mem_singleton.mp hr
      exact Int.le_refl _

-- `trg_inbox_stats_insert`
def onInsert (db : Db) (row : MessageRecipientRow) (stats : Table InboxStatsRow.agentId) :
    Table InboxStatsRow.agentId :=
  let message := db.messages.get? row.messageId
  (stats.insertOrIgnore ⟨row.agentId, 0, 0, 0, message.map MessageRow.createdTs⟩).update
    (·.agentId = row.agentId)
    (fun s => { s with
      totalCount      := s.totalCount + 1
      unreadCount     := s.unreadCount + 1
      ackPendingCount := s.ackPendingCount + message.elim 0 MessageRow.ackRequired
      lastMessageTs   :=
        some (max (s.lastMessageTs.getD 0) (message.elim 0 MessageRow.createdTs)) })
    fun _ => rfl

-- `INSERT INTO message_recipients`, which violates the primary key if there is such a row.
def insertRecipient (db : Db) (row : MessageRecipientRow) : Option Db :=
  if h : db.recipients.get? row.key = none then
    some { db with
      recipients := db.recipients.insert row h
      inboxStats := if db.triggers then db.onInsert row db.inboxStats else db.inboxStats }
  else
    none

-- `trg_inbox_stats_mark_read`
def onMarkRead (old new : MessageRecipientRow) (stats : Table InboxStatsRow.agentId) :
    Table InboxStatsRow.agentId :=
  if old.readTs.isNone && new.readTs.isSome then
    stats.update (·.agentId = new.agentId)
      (fun s => { s with unreadCount := max 0 (s.unreadCount - 1) }) fun _ => rfl
  else
    stats

-- `trg_inbox_stats_ack`
def onAck (old new : MessageRecipientRow) (stats : Table InboxStatsRow.agentId) :
    Table InboxStatsRow.agentId :=
  if old.ackTs.isNone && new.ackTs.isSome then
    stats.update (·.agentId = new.agentId)
      (fun s => { s with ackPendingCount := max 0 (s.ackPendingCount - 1) }) fun _ => rfl
  else
    stats

-- `UPDATE message_recipients SET .. WHERE ..`
def updateRecipients (db : Db) (p : MessageRecipientRow → Bool)
    (f : MessageRecipientRow → MessageRecipientRow) (hf : ∀ row, (f row).key = row.key) : Db :=
  { db with
    recipients := db.recipients.update p f hf
    inboxStats :=
      if db.triggers then
        (db.recipients.rows.filter p).foldl (fun t row =>
          onAck row (f row) (onMarkRead row (f row) t))
          db.inboxStats
      else
        db.inboxStats }

-- `FROM message_recipients r JOIN messages m ON m.id = r.message_id WHERE r.agent_id = ?`
def inbox (db : Db) (agentId : Int) : List (MessageRecipientRow × MessageRow) :=
  (db.recipients.rows.filter (·.agentId = agentId)).filterMap fun row =>
    (db.messages.get? row.messageId).map (row, ·)

-- The group of an agent, if there is one.
def aggregate (db : Db) (agentId : Int) : Option InboxStatsRow :=
  let inbox := db.inbox agentId
  if inbox.isEmpty then none else some {
    agentId         := agentId
    totalCount      := inbox.length
    unreadCount     := inbox.countP (·.1.readTs.isNone)
    ackPendingCount := inbox.countP fun x => x.2.ackRequired = 1 && x.1.ackTs.isNone
    lastMessageTs   := (inbox.map (·.2.createdTs)).max? }

def maxInClauseItems : Nat :=
  500

-- The groups are those of different agents, whose rows were just deleted, so that no row is
-- ignored.
def rebuildChunk (db : Db) (chunk : List Int) : Db :=
  { db with
    inboxStats := (chunk.filterMap db.aggregate).foldl Table.insertOrIgnore
      (db.inboxStats.delete (·.agentId ∈ chunk)) }

def rebuildAgentsInboxStats (db : Db) (agentIds : List Int) : Db :=
  (chunks maxInClauseItems (agentIds.insertionSort (· ≤ ·)).dedup).foldl rebuildChunk db

-- `(SELECT m.ack_required FROM messages m WHERE m.id = message_recipients.message_id) = 1`
def isAckRequired (db : Db) (messageId : Int) : Bool :=
  (db.messages.get? messageId).any (·.ackRequired = 1)

-- `CASE WHEN ack_ts IS NOT NULL THEN ack_ts WHEN .. = 1 THEN ? ELSE ack_ts END`
def autoAck (db : Db) (now : Int) (row : MessageRecipientRow) : Option Int :=
  match row.ackTs with
  | some ts => some ts
  | none    => if db.isAckRequired row.messageId then some now else none

def coalesce (ts : Option Int) (now : Int) : Option Int :=
  some (ts.getD now)

-- `SET read_ts = COALESCE(read_ts, ?), ack_ts = CASE .. END`
def readRow (db : Db) (now : Int) (row : MessageRecipientRow) : MessageRecipientRow :=
  { row with readTs := coalesce row.readTs now, ackTs := db.autoAck now row }

theorem key_readRow (db : Db) (now : Int) (row : MessageRecipientRow) :
    (db.readRow now row).key = row.key :=
  rfl

-- `SET read_ts = COALESCE(read_ts, ?), ack_ts = COALESCE(ack_ts, ?)`
def ackRow (now : Int) (row : MessageRecipientRow) : MessageRecipientRow :=
  { row with readTs := coalesce row.readTs now, ackTs := coalesce row.ackTs now }

theorem key_ackRow (now : Int) (row : MessageRecipientRow) : (ackRow now row).key = row.key :=
  rfl

end Db

-- `WHERE agent_id = ? AND message_id = ?`
def isFor (agentId messageId : Int) (row : MessageRecipientRow) : Bool :=
  row.agentId = agentId && row.messageId = messageId

def notFound (agentId messageId : Int) : DbError :=
  .notFound "MessageRecipient".toList
    ((toString agentId).toList ++ ":".toList ++ (toString messageId).toList)

-- The transactions. An error is returned after a `ROLLBACK`.

def markMessageRead (now agentId messageId : Int) (db : Db) : Db × Except DbError Int :=
  let db' := db.updateRecipients (isFor agentId messageId) (db.readRow now) (db.key_readRow now)
  let db' := db'.rebuildAgentsInboxStats [agentId]
  match db'.recipients.get? (messageId, agentId) with
  | none     => (db, .error (notFound agentId messageId))
  | some row => (db', .ok (row.readTs.getD now))

def markChunkRead (now agentId : Int) (db : Db) (chunk : List Int) : Db :=
  db.updateRecipients
    (fun row => row.agentId = agentId && row.messageId ∈ chunk) (db.readRow now)
      (db.key_readRow now)

def markMessagesReadBatch (now agentId : Int) (messageIds : List Int) (db : Db) : Db :=
  if messageIds.isEmpty then
    db
  else
    ((chunks Db.maxInClauseItems messageIds).foldl (markChunkRead now agentId) db)
      |>.rebuildAgentsInboxStats [agentId]

def markAllMessagesReadInProject (now projectId agentId : Int) (db : Db) : Db × Nat :=
  let inProject (messageId : Int) := (db.messages.get? messageId).any (·.projectId = projectId)
  let count := (db.recipients.rows.filter fun row =>
    row.agentId = agentId && row.readTs.isNone && inProject row.messageId).length
  if count > 0 then
    let db' := db.updateRecipients
      (fun row => row.agentId = agentId && row.readTs.isNone && inProject row.messageId)
      (fun row => { row with readTs := some now, ackTs := db.autoAck now row })
      fun _ => rfl
    (db'.rebuildAgentsInboxStats [agentId], count)
  else
    (db, count)

def acknowledgeMessage (now agentId messageId : Int) (db : Db) : Db × Except DbError (Int × Int) :=
  let db' := db.updateRecipients (isFor agentId messageId) (Db.ackRow now) (Db.key_ackRow now)
  let db' := db'.rebuildAgentsInboxStats [agentId]
  match db'.recipients.get? (messageId, agentId) with
  | none     => (db, .error (notFound agentId messageId))
  | some row => (db', .ok (row.readTs.getD now, row.ackTs.getD now))

structure CreateMessageRequest where
  projectId   : Int
  ackRequired : Bool
  recipients  : List (Int × Str)

def insertRecipients (messageId : Int) : List (Int × Str) → Db → Option Db
  | [], db                 => some db
  | (agentId, kind) :: recipients, db => do
    let db ← db.insertRecipient ⟨messageId, agentId, kind, none, none⟩
    insertRecipients messageId recipients db

def createMessageWithRecipients (now : Int) (req : CreateMessageRequest) (db : Db) :
    Db × Except DbError MessageRow :=
  let row : MessageRow := ⟨db.nextId, req.projectId, if req.ackRequired then 1 else 0, now⟩
  match insertRecipients row.id req.recipients (db.insertMessage row) with
  | none     => (db, .error .constraint)
  | some db' => (db'.rebuildAgentsInboxStats (req.recipients.map Prod.fst), .ok row)

-- `cleanup_committed_message_after_consistency_failure`, with the agents whose inboxes are rebuilt.
def cleanupCommittedMessage (projectId messageId : Int) (recipientAgentIds : List Int) (db : Db) :
    Db × List Int :=
  let found := (db.recipients.rows.filter (·.messageId = messageId)).map MessageRecipientRow.agentId
  let affected := (recipientAgentIds ++ found).reverse.dedup.reverse
  let db' := { db with
    recipients := db.recipients.delete (·.messageId = messageId)
    messages   := db.messages.delete fun row => row.id = messageId && row.projectId = projectId
    ids_le     := fun row hr => db.ids_le row (List.mem_of_mem_filter hr) }
  (db'.rebuildAgentsInboxStats affected, affected)

-- The calls that write to the inbox of an agent.
inductive Op
  | markRead (agentId messageId : Int)
  | markReadBatch (agentId : Int) (messageIds : List Int)
  | markAllRead (projectId agentId : Int)
  | acknowledge (agentId messageId : Int)
  | create (req : CreateMessageRequest)

-- The transaction of a call that has read the time, and whether it succeeds.
def Op.exec (now : Int) (db : Db) : Op → Db × Bool
  | markRead agentId messageId       =>
    let r := markMessageRead now agentId messageId db
    (r.1, r.2.isOk)
  | markReadBatch agentId messageIds => (markMessagesReadBatch now agentId messageIds db, true)
  | markAllRead projectId agentId    =>
    ((markAllMessagesReadInProject now projectId agentId db).1, true)
  | acknowledge agentId messageId    =>
    let r := acknowledgeMessage now agentId messageId db
    (r.1, r.2.isOk)
  | create req                       =>
    let r := createMessageWithRecipients now req db
    (r.1, r.2.isOk)

-- Every call has read its own time before its transaction, in any order.
def Db.step (db : Db) (event : Int × Op) : Option Db :=
  some (event.2.exec event.1 db).1

-- The transaction of `add_recipients`, which is rolled back if a recipient is there already.
def addRecipients (messageId : Int) (recipients : List (Int × Str)) (db : Db) :
    Db × Except DbError Unit :=
  match insertRecipients messageId recipients db with
  | none     => (db, .error .constraint)
  | some db' => (db', .ok ())

-- `GROUP BY r.agent_id`
def groupedAgents (db : Db) : List Int :=
  ((db.recipients.rows.filter fun row => (db.messages.get? row.messageId).isSome).map
    MessageRecipientRow.agentId).dedup

-- The table is empty before the groups are inserted, and these are of different agents.
def rebuildAllInboxStats (db : Db) : Db :=
  { db with
    inboxStats := ((groupedAgents db).filterMap db.aggregate).foldl Table.insertOrIgnore .empty }

inductive StatsOp
  | write (op : Op)
  | addRecipients (messageId : Int) (recipients : List (Int × Str))
  | rebuildAll

def StatsOp.exec (now : Int) (db : Db) : StatsOp → Db
  | write op                           => (op.exec now db).1
  | addRecipients messageId recipients => (Inbox.addRecipients messageId recipients db).1
  | rebuildAll                         => rebuildAllInboxStats db

namespace Db

def statsStep (db : Db) (event : Int × StatsOp) : Option Db :=
  some (event.2.exec event.1 db)

-- The row of an agent is what is counted in its inbox, where no row and a row of zeros say the
-- same.
def Exact (db : Db) : Prop :=
  ∀ agentId, db.inboxStats.get? agentId = db.aggregate agentId ∨
    db.aggregate agentId = none ∧ db.inboxStats.get? agentId = some ⟨agentId, 0, 0, 0, none⟩

-- Some recipient has the message already, or is listed twice.
def Repeats (db : Db) (messageId : Int) (recipients : List (Int × Str)) : Prop :=
  ¬(recipients.map Prod.fst).Nodup ∨ ∃ recipient ∈ recipients,
    (db.recipients.get? (messageId, recipient.1)).isSome

instance (db : Db) (messageId : Int) (recipients : List (Int × Str)) :
    Decidable (db.Repeats messageId recipients) :=
  inferInstanceAs (Decidable (_ ∨ ∃ recipient ∈ recipients, _))

-- Recipients are only added to messages that exist, and with the triggers installed.
def Counted (db : Db) : Int × StatsOp → Prop
  | (_, .addRecipients messageId recipients) =>
    recipients = [] ∨ db.Repeats messageId recipients ∨ db.triggers ∧
      (db.messages.get? messageId).isSome
  | (_, .write _)    => True
  | (_, .rebuildAll) => True

instance (db : Db) : ∀ e, Decidable (db.Counted e)
  | (_, .addRecipients _ _) => inferInstanceAs (Decidable (_ ∨ _ ∨ _ ∧ _))
  | (_, .write _)           => isTrue trivial
  | (_, .rebuildAll)        => isTrue trivial

end Db

end Inbox
