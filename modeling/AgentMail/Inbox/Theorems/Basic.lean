import AgentMail.Inbox.Basic
import AgentMail.Lib.Run

open Pattern

namespace Inbox

variable {db db' : Db} {row row' : MessageRecipientRow} {now agentId messageId : Int}

namespace Db

-- `inbox_stats` is the only table that is rebuilt.
theorem rebuildAgentsInboxStats_eq (db : Db) (agentIds : List Int) :
    db.rebuildAgentsInboxStats agentIds =
      { db with inboxStats := (db.rebuildAgentsInboxStats agentIds).inboxStats } := by
  unfold rebuildAgentsInboxStats
  generalize chunks maxInClauseItems _ = cs
  induction cs generalizing db
  case nil => rfl
  case cons chunk cs hi => exact hi _

@[simp]
theorem recipients_rebuild (db : Db) (agentIds : List Int) :
    (db.rebuildAgentsInboxStats agentIds).recipients = db.recipients := by
  rw [rebuildAgentsInboxStats_eq]

@[simp]
theorem messages_rebuild (db : Db) (agentIds : List Int) :
    (db.rebuildAgentsInboxStats agentIds).messages = db.messages := by
  rw [rebuildAgentsInboxStats_eq]

@[simp]
theorem lastId_rebuild (db : Db) (agentIds : List Int) :
    (db.rebuildAgentsInboxStats agentIds).lastId = db.lastId := by
  rw [rebuildAgentsInboxStats_eq]

-- What becomes of a row that is marked as read or acknowledged.
structure Stamps (db : Db) (now : Int) (row row' : MessageRecipientRow) : Prop where
  readTs   : row'.readTs = some (row.readTs.getD now)
  ackTs    : ∀ ts, row.ackTs = some ts → row'.ackTs = some ts
  required : db.isAckRequired row.messageId → row'.ackTs.isSome

theorem autoAck_of_some {ts : Int} (h : row.ackTs = some ts) : db.autoAck now row = some ts := by
  rw [autoAck, h]

theorem isSome_autoAck (h : db.isAckRequired row.messageId) : (db.autoAck now row).isSome := by
  unfold autoAck
  split
  case h_1 => rfl
  case h_2 => rw [if_pos h]; rfl

-- A transaction that only marks rows as read or acknowledged.
structure Marks (now : Int) (db db' : Db) : Prop where
  messages   : db'.messages = db.messages
  lastId     : db'.lastId = db.lastId
  recipients : ∃ p f hf, db'.recipients = db.recipients.update p f hf ∧
    ∀ row, p row → db.Stamps now row (f row)

theorem Marks.refl (now : Int) (db : Db) : db.Marks now db :=
  ⟨rfl, rfl, fun _ => false, id, fun _ => rfl, (Table.update_eq_self (by simp)).symm, nofun⟩

theorem Marks.of_updateRecipients {p : MessageRecipientRow → Bool}
    {f : MessageRecipientRow → MessageRecipientRow} {hf : ∀ row, (f row).key = row.key}
    (h : ∀ row, p row → db.Stamps now row (f row)) (agentIds : List Int) :
    db.Marks now ((db.updateRecipients p f hf).rebuildAgentsInboxStats agentIds) :=
  ⟨messages_rebuild .., lastId_rebuild .., p, f, hf, recipients_rebuild .., h⟩

theorem readRow_stamps (db : Db) (now : Int) (row : MessageRecipientRow) :
    db.Stamps now row (db.readRow now row) :=
  ⟨rfl, fun _ => autoAck_of_some, isSome_autoAck⟩

theorem ackRow_stamps (db : Db) (now : Int) (row : MessageRecipientRow) :
    db.Stamps now row (ackRow now row) :=
  ⟨rfl, fun ts h => by simp [ackRow, coalesce, h], fun _ => rfl⟩

theorem readRow_readRow (db : Db) (now : Int) (row : MessageRecipientRow) :
    db.readRow now (db.readRow now row) = db.readRow now row := by
  have h : db.autoAck now (db.readRow now row) = db.autoAck now row := by
    simp only [autoAck, readRow]
    cases row.ackTs
    case some => rfl
    case none => split <;> simp_all
  simp only [readRow, coalesce, Option.getD_some] at h ⊢
  rw [h]

theorem readRow_congr (h : db'.messages = db.messages) : db'.readRow now = db.readRow now := by
  have hr : db'.isAckRequired = db.isAckRequired := by
    funext messageId
    rw [isAckRequired, h, isAckRequired]
  funext row
  simp only [readRow, autoAck, hr]

end Db

theorem isFor_iff : isFor agentId messageId row ↔ row.key = (messageId, agentId) := by
  simp [isFor, MessageRecipientRow.key, and_comm]

theorem get?_updateRecipients {f : MessageRecipientRow → MessageRecipientRow}
    (hf : ∀ row, (f row).key = row.key) (agentIds : List Int) :
    ((db.updateRecipients (isFor agentId messageId) f hf).rebuildAgentsInboxStats
      agentIds).recipients.get? (messageId, agentId) =
      (db.recipients.get? (messageId, agentId)).map f := by
  rw [Db.recipients_rebuild, Db.updateRecipients, Table.get?_update hf]
  refine Option.map_congr fun row hr => if_pos ?_
  exact isFor_iff.mpr (Table.get?_eq_some_iff.mp hr).right

theorem markMessageRead_of_none (h : db.recipients.get? (messageId, agentId) = none) :
    markMessageRead now agentId messageId db = (db, .error (notFound agentId messageId)) := by
  simp only [markMessageRead]
  rw [get?_updateRecipients, h]
  rfl

theorem markMessageRead_of_some (h : db.recipients.get? (messageId, agentId) = some row) :
    markMessageRead now agentId messageId db =
      ((db.updateRecipients (isFor agentId messageId) (db.readRow now)
        (db.key_readRow now)).rebuildAgentsInboxStats [agentId], .ok (row.readTs.getD now)) := by
  simp only [markMessageRead]
  rw [get?_updateRecipients, h]
  rfl

theorem acknowledgeMessage_of_none (h : db.recipients.get? (messageId, agentId) = none) :
    acknowledgeMessage now agentId messageId db = (db, .error (notFound agentId messageId)) := by
  simp only [acknowledgeMessage]
  rw [get?_updateRecipients, h]
  rfl

theorem acknowledgeMessage_of_some (h : db.recipients.get? (messageId, agentId) = some row) :
    acknowledgeMessage now agentId messageId db =
      ((db.updateRecipients (isFor agentId messageId) (Db.ackRow now)
        (Db.key_ackRow now)).rebuildAgentsInboxStats [agentId],
        .ok (row.readTs.getD now, row.ackTs.getD now)) := by
  simp only [acknowledgeMessage]
  rw [get?_updateRecipients, h]
  rfl

-- What is left when the row of a recipient is stamped: without the row, all is as before.
structure Db.StampsRow (now agentId messageId : Int) (db db' : Db) : Prop where
  absent  : db.recipients.get? (messageId, agentId) = none → db' = db
  present : db.recipients.get? (messageId, agentId) ≠ none →
    ∃ f hf, (∀ row, db.Stamps now row (f row)) ∧
      db' = (db.updateRecipients (isFor agentId messageId) f hf).rebuildAgentsInboxStats [agentId]

theorem markMessageRead_stampsRow (now agentId messageId : Int) (db : Db) :
    db.StampsRow now agentId messageId (markMessageRead now agentId messageId db).1 where
  absent h  := by rw [markMessageRead_of_none h]
  present h := by
    have ⟨row, hr⟩ := Option.ne_none_iff_exists'.mp h
    exact ⟨_, _, db.readRow_stamps now, by rw [markMessageRead_of_some hr]⟩

theorem acknowledgeMessage_stampsRow (now agentId messageId : Int) (db : Db) :
    db.StampsRow now agentId messageId (acknowledgeMessage now agentId messageId db).1 where
  absent h  := by rw [acknowledgeMessage_of_none h]
  present h := by
    have ⟨row, hr⟩ := Option.ne_none_iff_exists'.mp h
    exact ⟨_, _, db.ackRow_stamps now, by rw [acknowledgeMessage_of_some hr]⟩

theorem Db.StampsRow.marks (h : db.StampsRow now agentId messageId db') : db.Marks now db' := by
  by_cases hn : db.recipients.get? (messageId, agentId) = none
  case pos => exact h.absent hn ▸ .refl now db
  case neg =>
    obtain ⟨f, hf, hs, rfl⟩ := h.present hn
    exact .of_updateRecipients (fun row _ => hs row) [agentId]

theorem markAllMessagesReadInProject_marks (now projectId agentId : Int) (db : Db) :
    db.Marks now (markAllMessagesReadInProject now projectId agentId db).1 := by
  simp only [markAllMessagesReadInProject]
  split
  case isFalse => exact .refl now db
  case isTrue  =>
    refine .of_updateRecipients (fun row hp => ⟨?_, fun _ => Db.autoAck_of_some, Db.isSome_autoAck⟩)
      _
    -- Rows that have been read are left out.
    have hn : row.readTs = none := by
      simp only [Bool.and_eq_true, Option.isNone_iff_eq_none] at hp
      exact hp.left.right
    rw [hn, Option.getD_none]

-- Marking one chunk after another marks the whole list.
theorem recipients_markChunkRead (now agentId : Int) (chunks : List (List Int)) (db : Db) :
    (chunks.foldl (markChunkRead now agentId) db).recipients =
        db.recipients.update (fun row => row.agentId = agentId && row.messageId ∈ chunks.flatten)
          (db.readRow now) (db.key_readRow now) ∧
      (chunks.foldl (markChunkRead now agentId) db).messages = db.messages ∧
      (chunks.foldl (markChunkRead now agentId) db).lastId = db.lastId := by
  induction chunks generalizing db
  case nil => exact ⟨(Table.update_eq_self (by simp)).symm, rfl, rfl⟩
  case cons chunk chunks hi =>
    have ⟨hr, hm, hl⟩ := hi (markChunkRead now agentId db chunk)
    refine ⟨?_, hm, hl⟩
    have hc : (markChunkRead now agentId db chunk).readRow now = db.readRow now :=
      Db.readRow_congr rfl
    simp only [hc] at hr
    refine hr.trans ((Table.update_update (db.readRow_readRow now)).trans (Table.update_congr ?_))
    intro row
    simp [Bool.and_or_distrib_left]

theorem markMessagesReadBatch_eq (now agentId : Int) (messageIds : List Int) (db : Db) :
    (markMessagesReadBatch now agentId messageIds db).recipients =
        db.recipients.update (fun row => row.agentId = agentId && row.messageId ∈ messageIds)
          (db.readRow now) (db.key_readRow now) ∧
      (markMessagesReadBatch now agentId messageIds db).messages = db.messages ∧
      (markMessagesReadBatch now agentId messageIds db).lastId = db.lastId := by
  simp only [markMessagesReadBatch]
  split
  case isTrue h =>
    rw [List.isEmpty_iff.mp h]
    exact ⟨(Table.update_eq_self (by simp)).symm, rfl, rfl⟩
  case isFalse =>
    rw [Db.recipients_rebuild, Db.messages_rebuild, Db.lastId_rebuild]
    have h := recipients_markChunkRead now agentId (chunks Db.maxInClauseItems messageIds) db
    rwa [flatten_chunks (by decide)] at h

theorem markMessagesReadBatch_marks (now agentId : Int) (messageIds : List Int) (db : Db) :
    db.Marks now (markMessagesReadBatch now agentId messageIds db) := by
  have ⟨hr, hm, hl⟩ := markMessagesReadBatch_eq now agentId messageIds db
  exact ⟨hm, hl, _, _, _, hr, fun row _ => db.readRow_stamps now row⟩

theorem recipients_markMessageRead (now agentId messageId : Int) (db : Db) :
    (markMessageRead now agentId messageId db).1.recipients =
      db.recipients.update (isFor agentId messageId) (db.readRow now) (db.key_readRow now) := by
  cases h : db.recipients.get? (messageId, agentId)
  case some row =>
    rw [markMessageRead_of_some h, Db.recipients_rebuild]
    rfl
  case none =>
    rw [markMessageRead_of_none h, Table.update_eq_self]
    intro row hr hp
    exact Table.get?_eq_none_iff.mp h row hr (isFor_iff.mp hp)

theorem foldl_markMessageRead (now agentId : Int) (messageIds : List Int) (db : Db) :
    (messageIds.foldl (fun db id => (markMessageRead now agentId id db).1) db).recipients =
      db.recipients.update (fun row => row.agentId = agentId && row.messageId ∈ messageIds)
        (db.readRow now) (db.key_readRow now) := by
  induction messageIds generalizing db
  case nil => exact (Table.update_eq_self (by simp)).symm
  case cons messageId messageIds hi =>
    have hc : (markMessageRead now agentId messageId db).1.readRow now = db.readRow now :=
      Db.readRow_congr (markMessageRead_stampsRow now agentId messageId db).marks.messages
    have h := hi (markMessageRead now agentId messageId db).1
    simp only [hc, recipients_markMessageRead] at h
    refine h.trans ((Table.update_update (db.readRow_readRow now)).trans (Table.update_congr ?_))
    intro row
    simp [isFor, Bool.and_or_distrib_left]

namespace Db

-- The state of a row is one of those that are possible, and its message has been created.
structure Consistent (db : Db) (row : MessageRecipientRow) : Prop where
  read_of_ack : row.ackTs.isSome → row.readTs.isSome
  ack_of_read : db.isAckRequired row.messageId → row.readTs.isSome → row.ackTs.isSome
  id_le       : row.messageId ≤ db.lastId

-- No row is lost, and the times that have been written do not change.
def Keeps (db db' : Db) : Prop :=
  ∀ key row, db.recipients.get? key = some row → ∃ row', db'.recipients.get? key = some row' ∧
    (∀ ts, row.readTs = some ts → row'.readTs = some ts) ∧
    (∀ ts, row.ackTs = some ts → row'.ackTs = some ts)

theorem Keeps.refl (db : Db) : db.Keeps db :=
  fun _ row hr => ⟨row, hr, fun _ => id, fun _ => id⟩

theorem Keeps.trans {db'' : Db} (h : db.Keeps db') (h' : db'.Keeps db'') : db.Keeps db'' := by
  intro key row hr
  have ⟨row', hr', hread, hack⟩ := h key row hr
  have ⟨row'', hr'', hread', hack'⟩ := h' key row' hr'
  exact ⟨row'', hr'', fun ts hts => hread' ts (hread ts hts), fun ts hts => hack' ts (hack ts hts)⟩

theorem Stamps.keeps (h : db.Stamps now row row') :
    (∀ ts, row.readTs = some ts → row'.readTs = some ts) ∧
      ∀ ts, row.ackTs = some ts → row'.ackTs = some ts :=
  ⟨fun ts hts => by rw [h.readTs, hts, Option.getD_some], h.ackTs⟩

theorem Marks.keeps (h : db.Marks now db') : db.Keeps db' := by
  intro key row hr
  have ⟨p, f, hf, hrec, hst⟩ := h.recipients
  refine ⟨_, by rw [hrec, Table.get?_update hf, hr, Option.map_some], ?_⟩
  split
  case isTrue hp => exact (hst row hp).keeps
  case isFalse   => exact ⟨fun _ => id, fun _ => id⟩

theorem Marks.consistent (h : db.Marks now db')
    (hc : ∀ row ∈ db.recipients.rows, db.Consistent row) :
    ∀ row ∈ db'.recipients.rows, db'.Consistent row := by
  intro row' hr'
  have ⟨p, f, hf, hrec, hst⟩ := h.recipients
  rw [hrec] at hr'
  have ⟨row, hr, he⟩ := List.mem_map.mp hr'
  have hc := hc row hr
  have hreq : db'.isAckRequired = db.isAckRequired := by
    funext messageId
    rw [isAckRequired, h.messages, isAckRequired]
  subst he
  split
  case isFalse => exact ⟨hc.read_of_ack, hreq ▸ hc.ack_of_read, h.lastId ▸ hc.id_le⟩
  case isTrue hp =>
    have hid : (f row).messageId = row.messageId := congrArg Prod.fst (hf row)
    refine ⟨fun _ => ?_, fun hr _ => ?_, ?_⟩
    · rw [(hst row hp).readTs]
      rfl
    · rw [hreq, hid] at hr
      exact (hst row hp).required hr
    · rw [h.lastId, hid]
      exact hc.id_le

theorem insertRecipient_eq (h : db.insertRecipient row = some db') :
    db'.messages = db.messages ∧ db'.lastId = db.lastId ∧
      ∃ hn, db'.recipients = db.recipients.insert row hn := by
  simp only [insertRecipient] at h
  split at h
  case isTrue hn => cases h; exact ⟨rfl, rfl, hn, rfl⟩
  case isFalse   => cases h

-- A transaction that adds the rows of a message.
structure Adds (messageId : Int) (db db' : Db) : Prop where
  messages : db'.messages = db.messages
  lastId   : db'.lastId = db.lastId
  keeps    : db.Keeps db'
  rows     : ∀ row ∈ db'.recipients.rows,
    row ∈ db.recipients.rows ∨ row.messageId = messageId ∧ row.readTs = none ∧ row.ackTs = none

theorem insertRecipients_adds {recipients : List (Int × Str)}
    (h : insertRecipients messageId recipients db = some db') : db.Adds messageId db' := by
  induction recipients generalizing db
  case nil =>
    cases h
    exact ⟨rfl, rfl, .refl _, fun _ => .inl⟩
  case cons recipient recipients hi =>
    have ⟨db₁, h₁, h⟩ := Option.bind_eq_some_iff.mp h
    have ⟨hm, hl, hn, hr⟩ := insertRecipient_eq h₁
    have ha := hi h
    refine ⟨ha.messages.trans hm, ha.lastId.trans hl, .trans ?_ ha.keeps, fun row hrow => ?_⟩
    · intro key row hrow
      have hne : (MessageRecipientRow.key ⟨messageId, recipient.1, recipient.2, none, none⟩) ≠
          key := by
        rintro rfl
        cases hn.symm.trans hrow
      refine ⟨row, ?_, fun _ => id, fun _ => id⟩
      rw [hr, Table.get?_insert, if_neg hne, hrow]
    · cases ha.rows row hrow
      case inr hrow => exact .inr hrow
      case inl hrow =>
        rw [hr] at hrow
        cases List.mem_append.mp hrow
        case inl hrow => exact .inl hrow
        case inr hrow =>
          cases List.mem_singleton.mp hrow
          exact .inr ⟨rfl, rfl, rfl⟩

theorem isAckRequired_insertMessage {message : MessageRow} {id : Int} (h : id ≤ db.lastId) :
    (db.insertMessage message).isAckRequired id = db.isAckRequired id := by
  have hne : db.nextId ≠ id := by
    simp only [nextId]
    omega
  simp only [isAckRequired, insertMessage]
  rw [Table.get?_insert, if_neg hne]

end Db

section

variable {req : CreateMessageRequest}

theorem createMessageWithRecipients_keeps (now : Int) (req : CreateMessageRequest) (db : Db) :
    db.Keeps (createMessageWithRecipients now req db).1 := by
  simp only [createMessageWithRecipients]
  split
  case h_1 => exact .refl db
  case h_2 db' h =>
    have hk := (Db.insertRecipients_adds h).keeps
    simp only [Db.Keeps, Db.recipients_rebuild] at hk ⊢
    exact hk

theorem createMessageWithRecipients_consistent
    (hc : ∀ row ∈ db.recipients.rows, db.Consistent row) :
    ∀ row ∈ (createMessageWithRecipients now req db).1.recipients.rows,
      (createMessageWithRecipients now req db).1.Consistent row := by
  simp only [createMessageWithRecipients]
  split
  case h_1 => exact hc
  case h_2 db' h =>
    have ha := Db.insertRecipients_adds h
    intro row hr
    rw [Db.recipients_rebuild] at hr
    cases ha.rows row hr
    case inr hr =>
      have ⟨hid, hread, hack⟩ := hr
      refine ⟨by simp [hack], by simp [hread], ?_⟩
      rw [Db.lastId_rebuild, ha.lastId, hid]
      exact Int.le_refl _
    case inl hr =>
      have hc := hc row hr
      refine ⟨hc.read_of_ack, ?_, ?_⟩
      · rw [Db.isAckRequired, Db.messages_rebuild, ha.messages]
        intro hreq
        exact hc.ack_of_read ((Db.isAckRequired_insertMessage hc.id_le).symm.trans hreq)
      · rw [Db.lastId_rebuild, ha.lastId]
        have := hc.id_le
        simp only [Db.insertMessage]
        omega

end

section

variable {e : Int × Op}

theorem step_cases (h : db.step e = some db') : db.Marks e.1 db' ∨
    ∃ req, db' = (createMessageWithRecipients e.1 req db).1 := by
  have ⟨now, op⟩ := e
  cases op <;> cases h
  case markRead agentId messageId       => exact .inl (markMessageRead_stampsRow ..).marks
  case markReadBatch agentId messageIds =>
    exact .inl (markMessagesReadBatch_marks now agentId messageIds db)
  case markAllRead projectId agentId    =>
    exact .inl (markAllMessagesReadInProject_marks now projectId agentId db)
  case acknowledge agentId messageId    =>
    exact .inl (acknowledgeMessage_stampsRow ..).marks
  case create req                       => exact .inr ⟨req, rfl⟩

theorem step_keeps (h : db.step e = some db') : db.Keeps db' := by
  cases step_cases h
  case inl h => exact h.keeps
  case inr h =>
    have ⟨req, he⟩ := h
    exact he ▸ createMessageWithRecipients_keeps e.1 req db

theorem step_consistent (hc : ∀ row ∈ db.recipients.rows, db.Consistent row)
    (h : db.step e = some db') : ∀ row ∈ db'.recipients.rows, db'.Consistent row := by
  cases step_cases h
  case inl h => exact h.consistent hc
  case inr h =>
    have ⟨req, he⟩ := h
    exact he ▸ createMessageWithRecipients_consistent hc

theorem run_keeps {es : List (Int × Op)} (h : run Db.step db es = some db') : db.Keeps db' :=
  Run.preserves (I := fun _ => True) Db.Keeps.refl Db.Keeps.trans (fun _ _ => trivial)
    (fun _ h => step_keeps h) trivial h

end

-- A call that has returned a time has found it in the table, where it stays.
theorem readTs_of_markMessageRead {ts : Int}
    (h : markMessageRead now agentId messageId db = (db', .ok ts)) :
    ∃ row, db'.recipients.get? (messageId, agentId) = some row ∧ row.readTs = some ts := by
  cases hr : db.recipients.get? (messageId, agentId)
  case none =>
    rw [markMessageRead_of_none hr] at h
    cases h
  case some row =>
    rw [markMessageRead_of_some hr] at h
    cases h
    exact ⟨_, by rw [get?_updateRecipients, hr, Option.map_some], rfl⟩

theorem ts_of_acknowledgeMessage {ts ts' : Int}
    (h : acknowledgeMessage now agentId messageId db = (db', .ok (ts, ts'))) :
    ∃ row, db'.recipients.get? (messageId, agentId) = some row ∧ row.readTs = some ts ∧
      row.ackTs = some ts' := by
  cases hr : db.recipients.get? (messageId, agentId)
  case none =>
    rw [acknowledgeMessage_of_none hr] at h
    cases h
  case some row =>
    rw [acknowledgeMessage_of_some hr] at h
    cases h
    exact ⟨_, by rw [get?_updateRecipients, hr, Option.map_some], rfl, rfl⟩

theorem run_receipts {triggers : Bool} {es : List (Int × Op)}
    (h : run Db.step (.empty triggers) es = some db) :
    (∀ row ∈ db.recipients.rows, (row.ackTs.isSome → row.readTs.isSome) ∧
      (db.isAckRequired row.messageId → row.readTs.isSome → row.ackTs.isSome)) ∧
    (∀ es' db', run Db.step db es' = some db' → ∀ key row, db.recipients.get? key = some row →
      ∃ row', db'.recipients.get? key = some row' ∧
        (∀ ts, row.readTs = some ts → row'.readTs = some ts) ∧
        (∀ ts, row.ackTs = some ts → row'.ackTs = some ts)) ∧
    (∀ now agentId messageId db₁ ts, markMessageRead now agentId messageId db = (db₁, .ok ts) →
      (∃ row, db₁.recipients.get? (messageId, agentId) = some row ∧ row.readTs = some ts) ∧
      ∀ es' db' now', run Db.step db₁ es' = some db' →
        (markMessageRead now' agentId messageId db').2 = .ok ts) ∧
    (∀ now agentId messageId db₁ ts ts',
      acknowledgeMessage now agentId messageId db = (db₁, .ok (ts, ts')) →
      (∃ row, db₁.recipients.get? (messageId, agentId) = some row ∧ row.readTs = some ts ∧
        row.ackTs = some ts') ∧
      ∀ es' db' now', run Db.step db₁ es' = some db' →
        (acknowledgeMessage now' agentId messageId db').2 = .ok (ts, ts')) ∧
    (∀ now agentId messageId, db.recipients.get? (messageId, agentId) = none →
      markMessageRead now agentId messageId db = (db, .error (notFound agentId messageId)) ∧
      acknowledgeMessage now agentId messageId db = (db, .error (notFound agentId messageId))) ∧
    (∀ now agentId (messageIds order : List Int), (∀ id, id ∈ order ↔ id ∈ messageIds) →
      (markMessagesReadBatch now agentId messageIds db).recipients =
        (order.foldl (fun db id => (markMessageRead now agentId id db).1) db).recipients) := by
  have hc : ∀ row ∈ db.recipients.rows, db.Consistent row :=
    Run.invariant (I := fun db => ∀ row ∈ db.recipients.rows, db.Consistent row) step_consistent
      nofun h
  refine ⟨fun row hr => ⟨(hc row hr).read_of_ack, (hc row hr).ack_of_read⟩,
    fun es' db' h' => run_keeps h', ?_, ?_, fun now agentId messageId hn =>
      ⟨markMessageRead_of_none hn, acknowledgeMessage_of_none hn⟩, ?_⟩
  · intro now agentId messageId db₁ ts hm
    have ⟨row, hr, hts⟩ := readTs_of_markMessageRead hm
    refine ⟨⟨row, hr, hts⟩, fun es' db' now' h' => ?_⟩
    have ⟨row', hr', hread, _⟩ := run_keeps h' _ row hr
    rw [markMessageRead_of_some hr', hread ts hts, Option.getD_some]
  · intro now agentId messageId db₁ ts ts' hm
    have ⟨row, hr, hts, hts'⟩ := ts_of_acknowledgeMessage hm
    refine ⟨⟨row, hr, hts, hts'⟩, fun es' db' now' h' => ?_⟩
    have ⟨row', hr', hread, hack⟩ := run_keeps h' _ row hr
    rw [acknowledgeMessage_of_some hr', hread ts hts, hack ts' hts', Option.getD_some,
      Option.getD_some]
  · intro now agentId messageIds order ho
    rw [(markMessagesReadBatch_eq now agentId messageIds db).left, foldl_markMessageRead]
    apply Table.update_congr
    intro row
    rw [decide_eq_decide.mpr (ho row.messageId)]

-- Two messages are sent to agent 7, where the first one has to be acknowledged. It is read first,
-- and then acknowledged again.
theorem run_receipts_acknowledged :
    ∃ db db₁, run Db.step (.empty true)
        [(5, .create ⟨1, true, [(7, "to".toList)]⟩), (6, .create ⟨1, false, [(7, "cc".toList)]⟩),
          (9, .markRead 7 1)] = some db ∧
      acknowledgeMessage 20 7 1 db = (db₁, .ok (9, 9)) ∧
      (acknowledgeMessage 30 7 1 db₁).2 = .ok (9, 9) ∧
      (markMessageRead 30 7 3 db).2 = .error (notFound 7 3) := by
  have hrun : ((run Db.step (.empty true)
      [(5, .create ⟨1, true, [(7, "to".toList)]⟩), (6, .create ⟨1, false, [(7, "cc".toList)]⟩),
        (9, .markRead 7 1)]).map fun db =>
      (db.recipients.rows, db.recipients.get? (1, 7))) = some
        ([⟨1, 7, "to".toList, some 9, some 9⟩, ⟨2, 7, "cc".toList, none, none⟩],
          some ⟨1, 7, "to".toList, some 9, some 9⟩) := by
    decide +kernel
  obtain ⟨db, h, hdb⟩ := Option.map_eq_some_iff.mp hrun
  simp only [Prod.mk.injEq] at hdb
  have hn : db.recipients.get? (3, 7) = none := by
    rw [Table.get?, hdb.left]
    decide +kernel
  have hack : acknowledgeMessage 20 7 1 db = ((acknowledgeMessage 20 7 1 db).1, .ok (9, 9)) := by
    rw [acknowledgeMessage_of_some hdb.right]
    rfl
  obtain ⟨_, _, _, hacks, hnone, _⟩ := run_receipts h
  refine ⟨db, _, h, hack, ?_, ?_⟩
  · exact (hacks 20 7 1 _ 9 9 hack).right [] _ 30 rfl
  · exact congrArg Prod.snd (hnone 30 7 3 hn).left

end Inbox
