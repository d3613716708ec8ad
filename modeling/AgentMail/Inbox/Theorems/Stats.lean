import AgentMail.Inbox.Basic
import AgentMail.Inbox.Theorems.Basic
import Mathlib.Data.List.Dedup

open Pattern

namespace Inbox

namespace Db

variable {db db' db'' : Db} {row : MessageRecipientRow} {agentId a : Int} {agentIds : List Int}

theorem agentId_of_aggregate {stats : InboxStatsRow} (h : db.aggregate a = some stats) :
    stats.agentId = a := by
  simp only [aggregate] at h
  split at h <;> cases h
  rfl

theorem aggregate_of_nil (h : db.inbox a = []) : db.aggregate a = none := by
  simp only [aggregate, h]
  rfl

theorem aggregate_congr (h : db'.inbox a = db.inbox a) : db'.aggregate a = db.aggregate a := by
  simp only [aggregate, h]

theorem aggregate_rebuild : (db.rebuildAgentsInboxStats agentIds).aggregate a = db.aggregate a := by
  rw [rebuildAgentsInboxStats_eq]
  rfl

-- The groups of the agents, of which there is at most one for each.
theorem find?_filterMap_aggregate (agentIds : List Int) :
    (agentIds.filterMap db.aggregate).find? (·.agentId = a) = if a ∈ agentIds then db.aggregate a
      else none := by
  induction agentIds
  case nil => rfl
  case cons agentId agentIds hi =>
    cases hg : db.aggregate agentId
    case none =>
      rw [List.filterMap_cons_none hg, hi]
      by_cases he : a = agentId
      case pos => simp [he, hg]
      case neg => simp [he]
    case some stats =>
      rw [List.filterMap_cons_some hg, List.find?_cons, hi, agentId_of_aggregate hg]
      by_cases he : a = agentId
      case pos => simp [he, hg]
      case neg => simp [he, Ne.symm he]

theorem get?_rebuildChunk (chunk : List Int) : (db.rebuildChunk chunk).inboxStats.get? a =
    if a ∈ chunk then db.aggregate a else db.inboxStats.get? a := by
  rw [rebuildChunk, Table.get?_foldl_insertOrIgnore, find?_filterMap_aggregate,
    Table.get?_delete_key (q := (· ∈ chunk))]
  by_cases hm : a ∈ chunk <;> simp [hm]

theorem get?_foldl_rebuildChunk (cs : List (List Int)) :
    (cs.foldl rebuildChunk db).inboxStats.get? a =
      if a ∈ cs.flatten then db.aggregate a else db.inboxStats.get? a := by
  induction cs generalizing db
  case nil => rfl
  case cons chunk cs hi =>
    have ha : (db.rebuildChunk chunk).aggregate a = db.aggregate a := rfl
    rw [List.foldl_cons, hi, ha, get?_rebuildChunk, List.flatten_cons]
    by_cases hm : a ∈ chunk <;> simp [hm]

-- What is rebuilt is what is counted.
theorem get?_rebuildAgentsInboxStats : (db.rebuildAgentsInboxStats agentIds).inboxStats.get? a =
    if a ∈ agentIds then db.aggregate a else db.inboxStats.get? a := by
  rw [rebuildAgentsInboxStats, get?_foldl_rebuildChunk, flatten_chunks (by decide)]
  simp only [List.mem_dedup, List.mem_insertionSort]

theorem get?_rebuildAllInboxStats :
    (rebuildAllInboxStats db).inboxStats.get? a = db.aggregate a := by
  rw [rebuildAllInboxStats, Table.get?_foldl_insertOrIgnore, find?_filterMap_aggregate]
  split
  case isTrue  => rfl
  case isFalse hm =>
    symm
    apply aggregate_of_nil
    rw [inbox, List.filterMap_eq_nil_iff]
    intro row hr
    obtain ⟨hr, ha⟩ := List.mem_filter.mp hr
    rw [Option.map_eq_none_iff]
    by_contra hn
    refine hm (List.mem_dedup.mpr (List.mem_map.mpr ⟨row, List.mem_filter.mpr ⟨hr, ?_⟩,
      of_decide_eq_true ha⟩))
    exact Option.isSome_iff_ne_none.mpr hn

-- A transaction changes nothing but the inboxes and the statistics of the given agents.
structure Confines (agentIds : List Int) (db db' : Db) : Prop where
  inbox : ∀ {a}, a ∉ agentIds → db'.inbox a = db.inbox a
  stats : ∀ {a}, a ∉ agentIds → db'.inboxStats.get? a = db.inboxStats.get? a

theorem Confines.refl : Confines agentIds db db :=
  ⟨fun _ => rfl, fun _ => rfl⟩

theorem Confines.trans (h : Confines agentIds db db') (h' : Confines agentIds db' db'') :
    Confines agentIds db db'' :=
  ⟨fun hm => (h'.inbox hm).trans (h.inbox hm), fun hm => (h'.stats hm).trans (h.stats hm)⟩

theorem Confines.mono {agentIds' : List Int} (h : Confines agentIds db db')
    (hs : agentIds ⊆ agentIds') : Confines agentIds' db db' :=
  ⟨fun hm => h.inbox fun ha => hm (hs ha), fun hm => h.stats fun ha => hm (hs ha)⟩

-- Once the statistics of these agents are rebuilt, all of them are what is counted.
theorem Confines.rebuild (h : Confines agentIds db db')
    (he : ∀ a, db.inboxStats.get? a = db.aggregate a) :
    (db'.rebuildAgentsInboxStats agentIds).inboxStats.get? a =
      (db'.rebuildAgentsInboxStats agentIds).aggregate a := by
  rw [get?_rebuildAgentsInboxStats, aggregate_rebuild]
  split
  case isTrue     => rfl
  case isFalse hm => rw [h.stats hm, he, aggregate_congr (h.inbox hm)]

theorem get?_update_of_ne {agentId : Int} {f : InboxStatsRow → InboxStatsRow}
    {stats : Table InboxStatsRow.agentId} (hf : ∀ s, (f s).agentId = s.agentId) (h : agentId ≠ a) :
    (stats.update (·.agentId = agentId) f hf).get? a = stats.get? a := by
  rw [Table.get?_update]
  cases hs : stats.get? a
  case none   => rfl
  case some s =>
    have hk := (Table.get?_eq_some_iff.mp hs).right
    simp [hk, h.symm]

theorem get?_onMarkRead {old new : MessageRecipientRow} {stats : Table InboxStatsRow.agentId}
    (h : new.agentId ≠ a) : (onMarkRead old new stats).get? a = stats.get? a := by
  rw [onMarkRead]
  split
  case isTrue  => exact get?_update_of_ne _ h
  case isFalse => rfl

theorem get?_onAck {old new : MessageRecipientRow} {stats : Table InboxStatsRow.agentId}
    (h : new.agentId ≠ a) : (onAck old new stats).get? a = stats.get? a := by
  rw [onAck]
  split
  case isTrue  => exact get?_update_of_ne _ h
  case isFalse => rfl

theorem get?_onInsert {stats : Table InboxStatsRow.agentId} : (db.onInsert row stats).get? a =
    if row.agentId = a then
      some {
        agentId         := a
        totalCount      := ((stats.get? a).elim 0 InboxStatsRow.totalCount) + 1
        unreadCount     := ((stats.get? a).elim 0 InboxStatsRow.unreadCount) + 1
        ackPendingCount := ((stats.get? a).elim 0 InboxStatsRow.ackPendingCount) +
          (db.messages.get? row.messageId).elim 0 MessageRow.ackRequired
        lastMessageTs   := some (max
          (((stats.get? a).elim ((db.messages.get? row.messageId).map MessageRow.createdTs)
            InboxStatsRow.lastMessageTs).getD 0)
          ((db.messages.get? row.messageId).elim 0 MessageRow.createdTs)) }
    else
      stats.get? a := by
  rw [onInsert, Table.get?_update, Table.get?_insertOrIgnore]
  by_cases hk : row.agentId = a
  case pos =>
    cases hs : stats.get? a
    case none   => simp [hk]
    case some s =>
      have hk' := (Table.get?_eq_some_iff.mp hs).right
      simp [hk, hk']
  case neg =>
    rw [if_neg hk, if_neg hk]
    cases hs : stats.get? a
    case none   => rfl
    case some s =>
      have hk' := (Table.get?_eq_some_iff.mp hs).right
      simp [hk', Ne.symm hk]

-- The rows that are updated are in the inbox of one agent.
theorem Confines.of_updateRecipients {p : MessageRecipientRow → Bool}
    {f : MessageRecipientRow → MessageRecipientRow} {hf : ∀ row, (f row).key = row.key}
    (h : ∀ row, p row → row.agentId = agentId) :
    Confines [agentId] db (db.updateRecipients p f hf) := by
  have hfa (row : MessageRecipientRow) : (f row).agentId = row.agentId := congrArg Prod.snd (hf row)
  constructor
  case inbox =>
    intro a hm
    have hne : a ≠ agentId := fun he => hm (List.mem_singleton.mpr he)
    rw [Db.inbox, Db.inbox]
    refine congrArg (List.filterMap _) ?_
    simp only [updateRecipients, Table.update]
    rw [List.filter_map]
    have hc : ((fun row => decide (row.agentId = a)) ∘ fun row => if p row then f row else row) =
        fun row : MessageRecipientRow => decide (row.agentId = a) := by
      funext row
      simp only [Function.comp_apply]
      split
      case isTrue  => rw [hfa]
      case isFalse => rfl
    rw [hc]
    refine (List.map_congr_left fun row hr => if_neg fun hp => ?_).trans (List.map_id _)
    exact hne ((of_decide_eq_true (List.mem_filter.mp hr).right).symm.trans (h row hp))
  case stats =>
    intro a hm
    have hne : agentId ≠ a := fun he => hm (List.mem_singleton.mpr he.symm)
    simp only [updateRecipients]
    split
    case isFalse => rfl
    case isTrue  =>
      have hrows : ∀ row ∈ db.recipients.rows.filter p, (f row).agentId ≠ a := by
        intro row hr
        rw [hfa, h row (List.mem_filter.mp hr).right]
        exact hne
      generalize db.recipients.rows.filter p = rows at hrows
      generalize db.inboxStats = stats
      induction rows generalizing stats
      case nil => rfl
      case cons row rows hi =>
        rw [List.forall_mem_cons] at hrows
        rw [List.foldl_cons, hi hrows.right, get?_onAck hrows.left, get?_onMarkRead hrows.left]

theorem inbox_insertRecipient (h : db.insertRecipient row = some db') : db'.inbox a =
    if row.agentId = a then db.inbox a ++ ((db.messages.get? row.messageId).map (row, ·)).toList
      else db.inbox a := by
  obtain ⟨hm, _, _, hr⟩ := insertRecipient_eq h
  rw [inbox, hm, hr, Table.insert, List.filter_append, List.filterMap_append, inbox]
  by_cases hk : row.agentId = a
  case neg => simp [hk]
  case pos => cases hmsg : db.messages.get? row.messageId <;> simp [hk, hmsg]

theorem inboxStats_insertRecipient (h : db.insertRecipient row = some db') :
    db'.inboxStats = if db.triggers then db.onInsert row db.inboxStats else db.inboxStats := by
  simp only [insertRecipient] at h
  split at h <;> cases h
  rfl

theorem triggers_insertRecipient (h : db.insertRecipient row = some db') :
    db'.triggers = db.triggers := by
  simp only [insertRecipient] at h
  split at h <;> cases h
  rfl

theorem Confines.of_insertRecipient (h : db.insertRecipient row = some db') :
    Confines [row.agentId] db db' := by
  have hne {a : Int} (hm : a ∉ [row.agentId]) : row.agentId ≠ a := fun he =>
    hm (List.mem_singleton.mpr he.symm)
  constructor
  case inbox => exact fun hm => (inbox_insertRecipient h).trans (if_neg (hne hm))
  case stats =>
    intro a hm
    rw [inboxStats_insertRecipient h]
    split
    case isTrue  => rw [get?_onInsert, if_neg (hne hm)]
    case isFalse => rfl

theorem Confines.of_insertRecipients {messageId : Int} {recipients : List (Int × Str)}
    (h : insertRecipients messageId recipients db = some db') :
    Confines (recipients.map Prod.fst) db db' := by
  induction recipients generalizing db
  case nil =>
    cases h
    exact .refl
  case cons recipient recipients hi =>
    obtain ⟨db₁, h₁, h⟩ := Option.bind_eq_some_iff.mp h
    rw [List.map_cons]
    refine (Confines.of_insertRecipient h₁).mono ?_ |>.trans
      ((hi h).mono (List.subset_cons_self ..))
    exact List.cons_subset.mpr ⟨List.mem_cons_self, List.nil_subset _⟩

-- The statistics are what is counted, every recipient has a message, and a flag is 0 or 1.
structure Sound (db : Db) : Prop where
  exact  : ∀ a, db.inboxStats.get? a = db.aggregate a
  posted : ∀ row ∈ db.recipients.rows, (db.messages.get? row.messageId).isSome
  flags  : ∀ message ∈ db.messages.rows, message.ackRequired = 0 ∨ message.ackRequired = 1

theorem sound_empty (triggers : Bool) : (empty triggers).Sound where
  exact _  := rfl
  posted _ := fun hr => absurd hr List.not_mem_nil
  flags _  := fun hm => absurd hm List.not_mem_nil

theorem Sound.marks {now : Int} (h : db.Sound) (hm : db.Marks now db')
    (he : ∀ a, db'.inboxStats.get? a = db'.aggregate a) : db'.Sound where
  exact  := he
  flags  := hm.messages ▸ h.flags
  posted := by
    intro row' hr'
    obtain ⟨p, f, hf, hrec, _⟩ := hm.recipients
    rw [hrec] at hr'
    obtain ⟨row, hr, rfl⟩ := List.mem_map.mp hr'
    rw [hm.messages]
    split
    case isTrue  =>
      have hid : (f row).messageId = row.messageId := congrArg Prod.fst (hf row)
      exact hid ▸ h.posted row hr
    case isFalse => exact h.posted row hr

theorem inbox_insertMessage {message : MessageRow} (h : db.Sound) :
    (db.insertMessage message).inbox a = db.inbox a := by
  refine List.filterMap_congr fun row hr => ?_
  have hp := h.posted row (List.mem_of_mem_filter hr)
  have hne : db.nextId ≠ row.messageId := by
    intro he
    rw [← he, db.get?_nextId] at hp
    cases hp
  simp only [insertMessage]
  rw [Table.get?_insert, if_neg hne]

theorem Sound.insertMessage {message : MessageRow} (h : db.Sound)
    (hf : message.ackRequired = 0 ∨ message.ackRequired = 1) :
    (db.insertMessage message).Sound where
  exact a := (h.exact a).trans (aggregate_congr (inbox_insertMessage h)).symm
  posted row hr := by
    simp only [Db.insertMessage]
    rw [Table.get?_insert]
    split
    case isTrue  => rfl
    case isFalse => exact h.posted row hr
  flags row hr := by
    rcases List.mem_append.mp hr with hr | hr
    · exact h.flags row hr
    · cases List.mem_singleton.mp hr
      exact hf

-- What the trigger makes of the row of an agent is what is counted with the new recipient.
theorem Sound.get?_onInsert {message : MessageRow} (h : db.Sound)
    (hn : row.readTs = none ∧ row.ackTs = none) (hm : db.messages.get? row.messageId = some message)
    (hi : db'.inbox row.agentId = db.inbox row.agentId ++ [(row, message)]) :
    (db.onInsert row db.inboxStats).get? row.agentId = db'.aggregate row.agentId := by
  have hf := h.flags message (Table.get?_eq_some_iff.mp hm).left
  rw [Db.get?_onInsert, if_pos rfl, h.exact, aggregate, aggregate, hi, hm]
  cases hbox : db.inbox row.agentId
  case nil =>
    rcases hf with hf | hf <;> simp [hn, hf]
  case cons x inbox =>
    have hc (p : MessageRecipientRow × MessageRow → Bool) :
        (x :: (inbox ++ [(row, message)])).countP p =
          (x :: inbox).countP p + if p (row, message) then 1 else 0 := by
      rw [← List.cons_append, List.countP_append, List.countP_singleton]
    rcases hf with hf | hf <;> simp [hc, hn, hf, List.max?_cons', -List.max?_cons]

theorem Sound.insertRecipient {message : MessageRow} (h : db.Sound) (ht : db.triggers)
    (hn : row.readTs = none ∧ row.ackTs = none) (hm : db.messages.get? row.messageId = some message)
    (hr : db.insertRecipient row = some db') : db'.Sound := by
  obtain ⟨hmsg, _, _, hrec⟩ := insertRecipient_eq hr
  have hi (a : Int) : db'.inbox a = if row.agentId = a then db.inbox a ++ [(row, message)]
      else db.inbox a := by
    rw [inbox_insertRecipient hr, hm]
    rfl
  constructor
  case exact =>
    intro a
    by_cases hk : row.agentId = a
    case pos =>
      rw [inboxStats_insertRecipient hr, if_pos ht, ← hk]
      exact h.get?_onInsert hn hm ((hi row.agentId).trans (if_pos rfl))
    case neg =>
      have hne : a ∉ [row.agentId] := fun hm => hk (List.mem_singleton.mp hm).symm
      have hc := Confines.of_insertRecipient hr
      rw [hc.stats hne, h.exact, aggregate_congr (hc.inbox hne)]
  case posted =>
    intro row' hr'
    rw [hmsg]
    rw [hrec] at hr'
    rcases List.mem_append.mp hr' with hr' | hr'
    · exact h.posted row' hr'
    · rw [List.mem_singleton.mp hr', hm]
      rfl
  case flags => exact hmsg ▸ h.flags

theorem Sound.insertRecipients {messageId : Int} {message : MessageRow}
    {recipients : List (Int × Str)} (h : db.Sound) (ht : db.triggers)
    (hm : db.messages.get? messageId = some message)
    (hr : insertRecipients messageId recipients db = some db') : db'.Sound := by
  induction recipients generalizing db
  case nil =>
    cases hr
    exact h
  case cons recipient recipients hi =>
    obtain ⟨db₁, h₁, hr⟩ := Option.bind_eq_some_iff.mp hr
    refine hi (h.insertRecipient ht ⟨rfl, rfl⟩ hm h₁) ((triggers_insertRecipient h₁).trans ht) ?_ hr
    rw [(insertRecipient_eq h₁).left, hm]

-- What is inserted violates no primary key.
theorem not_repeats {messageId : Int} {recipients : List (Int × Str)}
    (h : insertRecipients messageId recipients db = some db') :
    ¬db.Repeats messageId recipients := by
  have hkey : (recipients.map Prod.fst).Nodup ∧
      ∀ recipient ∈ recipients, db.recipients.get? (messageId, recipient.1) = none := by
    induction recipients generalizing db
    case nil => exact ⟨.nil, fun _ hm => absurd hm List.not_mem_nil⟩
    case cons recipient recipients hi =>
      obtain ⟨db₁, h₁, h⟩ := Option.bind_eq_some_iff.mp h
      obtain ⟨_, _, hn, hr⟩ := insertRecipient_eq h₁
      obtain ⟨hnodup, hnone⟩ := hi h
      have hsplit {other : Int × Str} (hm : other ∈ recipients) :
          recipient.1 ≠ other.1 ∧ db.recipients.get? (messageId, other.1) = none := by
        have hg := hnone other hm
        rw [hr, Table.get?_insert] at hg
        split at hg
        case isTrue     => cases hg
        case isFalse hk => exact ⟨fun he => hk (Prod.ext rfl he), hg⟩
      constructor
      case left =>
        refine List.nodup_cons.mpr ⟨fun hm => ?_, hnodup⟩
        obtain ⟨other, hother, he⟩ := List.mem_map.mp hm
        exact (hsplit hother).left he.symm
      case right => exact List.forall_mem_cons.mpr ⟨hn, fun other hm => (hsplit hm).right⟩
  rintro (hn | ⟨recipient, hm, hs⟩)
  · exact hn hkey.left
  · rw [hkey.right recipient hm] at hs
    cases hs

theorem Sound.rebuildAll (h : db.Sound) : (rebuildAllInboxStats db).Sound where
  exact _ := get?_rebuildAllInboxStats
  posted  := h.posted
  flags   := h.flags

end Db

variable {db db' : Db}

theorem addRecipients_sound {messageId : Int} {recipients : List (Int × Str)} (h : db.Sound)
    (hc : recipients = [] ∨ db.Repeats messageId recipients ∨ db.triggers ∧
      (db.messages.get? messageId).isSome) :
    (addRecipients messageId recipients db).1.Sound := by
  rw [addRecipients]
  split
  case h_1 => exact h
  case h_2 db' hr =>
    rcases hc with rfl | hc | ⟨ht, hm⟩
    · cases hr
      exact h
    · exact absurd hc (Db.not_repeats hr)
    · obtain ⟨message, hm⟩ := Option.isSome_iff_exists.mp hm
      exact h.insertRecipients ht hm hr

theorem createMessageWithRecipients_sound {now : Int} {req : CreateMessageRequest} (h : db.Sound) :
    (createMessageWithRecipients now req db).1.Sound := by
  simp only [createMessageWithRecipients]
  split
  case h_1 => exact h
  case h_2 db' hr =>
    have hi :
        (db.insertMessage ⟨db.nextId, req.projectId, if req.ackRequired then 1
        else 0, now⟩).Sound :=
      h.insertMessage (by cases req.ackRequired <;> simp)
    have ha := Db.insertRecipients_adds hr
    constructor
    case exact =>
      intro a
      exact (Db.Confines.of_insertRecipients hr).rebuild hi.exact
    case flags =>
      rw [Db.messages_rebuild, ha.messages]
      exact hi.flags
    case posted =>
      intro row hm
      rw [Db.recipients_rebuild] at hm
      rw [Db.messages_rebuild, ha.messages]
      rcases ha.rows row hm with hm | ⟨hid, _⟩
      · exact hi.posted row hm
      · rw [hid]
        simp only [Db.insertMessage]
        rw [Table.get?_insert, if_pos rfl]
        rfl

section

variable {now agentId messageId a : Int}

theorem Db.StampsRow.exact (hs : db.StampsRow now agentId messageId db') (h : db.Sound) :
    db'.inboxStats.get? a = db'.aggregate a := by
  by_cases hn : db.recipients.get? (messageId, agentId) = none
  case pos => exact hs.absent hn ▸ h.exact a
  case neg =>
    obtain ⟨f, hf, _, rfl⟩ := hs.present hn
    exact (Confines.of_updateRecipients fun _ hp => congrArg Prod.snd (isFor_iff.mp hp)).rebuild
      h.exact

theorem markMessagesReadBatch_exact {messageIds : List Int} (h : db.Sound) :
    (markMessagesReadBatch now agentId messageIds db).inboxStats.get? a =
      (markMessagesReadBatch now agentId messageIds db).aggregate a := by
  have hc (cs : List (List Int)) :
      db.Confines [agentId] (cs.foldl (markChunkRead now agentId) db) := by
    refine List.foldlRecOn (motive := db.Confines [agentId]) cs _ .refl
      fun db' hc chunk _ => hc.trans ?_
    refine .of_updateRecipients fun row hp => ?_
    rw [Bool.and_eq_true] at hp
    exact of_decide_eq_true hp.left
  simp only [markMessagesReadBatch]
  split
  case isTrue  => exact h.exact a
  case isFalse => exact (hc _).rebuild h.exact

theorem markAllMessagesReadInProject_exact {projectId : Int} (h : db.Sound) :
    (markAllMessagesReadInProject now projectId agentId db).1.inboxStats.get? a =
      (markAllMessagesReadInProject now projectId agentId db).1.aggregate a := by
  simp only [markAllMessagesReadInProject]
  split
  case isFalse => exact h.exact a
  case isTrue  =>
    refine (Db.Confines.of_updateRecipients fun row hp => ?_).rebuild h.exact
    simp only [Bool.and_eq_true, decide_eq_true_eq] at hp
    exact hp.left.left

end

theorem Op.exec_sound {now : Int} {op : Op} (h : db.Sound) : (op.exec now db).1.Sound := by
  cases op
  case markRead agentId messageId       =>
    have hs := markMessageRead_stampsRow now agentId messageId db
    exact h.marks hs.marks fun _ => hs.exact h
  case markReadBatch agentId messageIds =>
    exact h.marks (markMessagesReadBatch_marks ..) fun _ => markMessagesReadBatch_exact h
  case markAllRead projectId agentId    =>
    exact h.marks (markAllMessagesReadInProject_marks ..) fun _ =>
      markAllMessagesReadInProject_exact h
  case acknowledge agentId messageId    =>
    have hs := acknowledgeMessage_stampsRow now agentId messageId db
    exact h.marks hs.marks fun _ => hs.exact h
  case create req                       => exact createMessageWithRecipients_sound h

theorem statsStep_sound {e : Int × StatsOp} (h : db.Sound) (hc : db.Counted e)
    (hs : db.statsStep e = some db') : db'.Sound := by
  obtain ⟨now, op⟩ := e
  cases op <;> cases hs
  case write op                           => exact op.exec_sound h
  case addRecipients messageId recipients => exact addRecipients_sound h hc
  case rebuildAll                         => exact h.rebuildAll

theorem exact_of_counted {triggers : Bool} {es : List (Int × StatsOp)}
    (hc : Along Db.statsStep Db.Counted (.empty triggers) es)
    (h : run Db.statsStep (.empty triggers) es = some db) : db.Exact :=
  fun a => .inl ((Run.invariant_along statsStep_sound (Db.sound_empty triggers) hc h).exact a)

-- Without the triggers, nobody counts a recipient that is added later.
theorem not_exact_addRecipients : ∃ db,
    run Db.statsStep (.empty false) [(5, .write (.create ⟨1, true, []⟩)),
      (6, .addRecipients 1 [(7, "to".toList)])] = some db ∧ ¬db.Exact := by
  refine ⟨_, rfl, fun h => ?_⟩
  have h := h 7
  revert h
  decide +kernel

-- The triggers count it, and a message is read before everything is counted anew.
def addedWithTriggers : List (Int × StatsOp) :=
  [(5, .write (.create ⟨1, true, []⟩)), (6, .addRecipients 1 [(7, "to".toList)]),
    (9, .write (.markRead 7 1)), (9, .rebuildAll)]

theorem exact_of_counted_addedWithTriggers :
    ∃ db, run Db.statsStep (.empty true) addedWithTriggers = some db ∧
      db.inboxStats.get? 7 = some ⟨7, 1, 0, 0, some 5⟩ ∧ db.Exact := by
  have hc : Along Db.statsStep Db.Counted (.empty true) addedWithTriggers := by decide +kernel
  have hrun : (run Db.statsStep (.empty true) addedWithTriggers).map (·.inboxStats.get? 7) =
      some (some ⟨7, 1, 0, 0, some 5⟩) := by
    decide +kernel
  obtain ⟨db, h, hs⟩ := Option.map_eq_some_iff.mp hrun
  exact ⟨db, h, hs, exact_of_counted hc h⟩

end Inbox
