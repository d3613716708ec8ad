import AgentMail.Share.Theorems.Identifiers

open Pattern (Str trim)
open Schema

namespace Share

variable {db db' d : Database} {engine : Engine} {identifiers : List Str} {ids : List Int}
  {keep : Int → Prop}
variable {id : Int} {row : Row}

-- What is checked if foreign keys are enforced.
def Intact (db db' : Database) : Prop :=
  ∀ row ∈ db'.rows, ∀ key ∈ row.foreignKeys, db.Resolves key → db'.Resolves key

theorem intact_of_projectOf (h : db'.projectOf = db.projectOf) : Intact db db' := by
  intro row _ key _ hr
  rw [Database.Resolves, h]
  exact hr

theorem exec_eq_some {params : Nat} : exec engine params db db' = some d ↔
    params ≤ engine.maxVariableNumber ∧ (engine.foreignKeys → Intact db db') ∧ d = db' := by
  have hi : (engine.foreignKeys ∧ ∃ row ∈ db'.rows, ∃ key ∈ row.foreignKeys,
      db.Resolves key ∧ ¬db'.Resolves key) ↔ ¬(engine.foreignKeys → Intact db db') := by
    simp [Intact]
  unfold exec
  split
  case isTrue h  => simp [Nat.not_le.mpr h]
  case isFalse h =>
    rw [and_iff_right (Nat.not_lt.mp h)]
    split
    case isTrue h  => simp [hi.mp h]
    case isFalse h =>
      rw [and_iff_right (not_not.mp (hi.not.mp h)), Option.some.injEq]
      exact eq_comm

section

variable (ids : List Int) (db : Database)

-- The state after the messages' recipients have been deleted, and the following ones.
def afterRecipients : Database :=
  deleteRecipients (messageIds ids db) (deleteSiblings ids (deleteLinks ids db))

def afterMessages : Database :=
  deleteMessages ids (afterRecipients ids db)

def afterReservations : Database :=
  deleteReservations ids (afterMessages ids db)

def afterReleases : Database :=
  deleteReleases (afterReservations ids db)

def afterAgents : Database :=
  deleteAgents ids (afterReleases ids db)

def afterProjects : Database :=
  deleteProjects ids (afterAgents ids db)

end

theorem execRecipients_eq_some {msgIds : List Int} : execRecipients engine msgIds db = some d ↔
    msgIds.length ≤ engine.maxVariableNumber ∧ d = deleteRecipients msgIds db := by
  unfold execRecipients
  split
  case isTrue h =>
    have hr : db.recipients.delete (fun row => row.messageId ∈ msgIds) = db.recipients :=
      Table.ext (by simp [Table.delete, h])
    have hs : deleteRecipients msgIds db = db :=
      congrArg (fun recipients => { db with recipients }) hr
    rw [hs, h, Option.some.injEq, eq_comm]
    exact (and_iff_right (Nat.zero_le _)).symm
  case isFalse h =>
    have hi : engine.foreignKeys → Intact db (deleteRecipients msgIds db) := fun _ =>
      intact_of_projectOf rfl
    rw [exec_eq_some, and_iff_right hi]

theorem deleteOthers_eq_some : deleteOthers engine ids db = some db' ↔
    (2 * ids.length ≤ engine.maxVariableNumber ∧
      (messageIds ids db).length ≤ engine.maxVariableNumber) ∧
    (engine.foreignKeys → Intact (afterRecipients ids db) (afterMessages ids db) ∧
      Intact (afterMessages ids db) (afterReservations ids db) ∧
      Intact (afterReleases ids db) (afterAgents ids db) ∧
      Intact (afterAgents ids db) (afterProjects ids db)) ∧
    db' = afterProjects ids db := by
  have links : Intact db (deleteLinks ids db) := intact_of_projectOf rfl
  have siblings : Intact (deleteLinks ids db) (deleteSiblings ids (deleteLinks ids db)) :=
    intact_of_projectOf rfl
  have releases : Intact (afterReservations ids db) (afterReleases ids db) :=
    intact_of_projectOf rfl
  have query_eq_some : (∃ u, query engine ids.length = some u) ↔
      ids.length ≤ engine.maxVariableNumber := by
    simp [query]
  simp only [deleteOthers, Option.bind_eq_bind, Option.bind_eq_some_iff, exec_eq_some,
    execRecipients_eq_some, and_assoc, exists_and_left, exists_eq_left, exists_and_right,
    query_eq_some]
  constructor
  case mp =>
    intro ⟨h₁, _, _, _, _, h₂, _, hm, _, hr, _, _, _, ha, _, hp, he⟩
    exact ⟨h₁, h₂, fun hf => ⟨hm hf, hr hf, ha hf, hp hf⟩, he⟩
  case mpr =>
    intro ⟨h₁, h₂, hf, he⟩
    have h : ids.length ≤ engine.maxVariableNumber := by omega
    exact ⟨h₁, fun _ => links, h₁, fun _ => siblings, h, h₂, h, fun h => (hf h).left, h,
      fun h => (hf h).right.left, Nat.zero_le _, fun _ => releases, h, fun h =>
        (hf h).right.right.left, h,
      fun h => (hf h).right.right.right, he⟩

section

theorem within_project (h : db.Resolves (.project id)) : Within db keep (.project id) ↔
    keep id := by
  have ⟨p, hp⟩ := Option.isSome_iff_exists.mp ((Option.isSome_map ..).symm.trans h)
  have ⟨_, hid⟩ := Table.get?_eq_some_iff.mp hp
  simp [Within, Database.projectOf, hp, hid]

theorem within_message : Within db (· ∈ ids) (.message id) ↔ id ∉ messageIds ids db := by
  simp only [Within, Database.projectOf, Option.map_eq_some_iff, messageIds, List.mem_map,
    List.mem_filter, decide_eq_true_eq, not_exists, not_and, Table.get?_eq_some_iff]
  constructor
  case mp  => exact fun h row hr hid => hr.right (h _ ⟨row, ⟨hr.left, hid⟩, rfl⟩)
  case mpr =>
    rintro h _ ⟨row, hr, rfl⟩
    by_contra hn
    exact h row ⟨hr.left, hn⟩ hr.right

theorem within_reservation (h : db.Resolves (.reservation id)) :
    Within db (· ∈ ids) (.reservation id) ↔
      id ∈ (deleteReservations ids db).reservations.rows.map (·.id) := by
  obtain ⟨r, hr⟩ := Option.isSome_iff_exists.mp ((Option.isSome_map ..).symm.trans h)
  obtain ⟨hm, hid⟩ := Table.get?_eq_some_iff.mp hr
  simp only [Within, Database.projectOf, hr, Option.map_some, Option.some.injEq, forall_eq',
    deleteReservations, Table.delete, List.mem_map, List.mem_filter]
  constructor
  case mp  => exact fun h => ⟨r, ⟨hm, by simpa using h⟩, hid⟩
  case mpr =>
    rintro ⟨r', ⟨hm', hk⟩, hid'⟩
    cases List.inj_on_of_nodup_map db.reservations.nodup hm' hm (hid'.trans hid.symm)
    simpa using hk

-- The columns by which a row is chosen, before the projects are deleted.
def Chosen (ids : List Int) (db : Database) : Row → Prop
  | .project _       => True
  | .productLink _   => True
  | .agent row       => row.projectId ∈ ids
  | .message row     => row.projectId ∈ ids
  | .recipient row   => row.messageId ∉ messageIds ids db
  | .reservation row => row.projectId ∈ ids
  | .release row     => row.reservationId ∈ (deleteReservations ids db).reservations.rows.map (·.id)
  | .link row        => row.aProjectId ∈ ids ∧ row.bProjectId ∈ ids
  | .sibling row     => row.projectAId ∈ ids ∧ row.projectBId ∈ ids
  | .inboxStats _    => True

theorem mem_afterAgents : row ∈ (afterAgents ids db).rows ↔ row ∈ db.rows ∧ Chosen ids db row := by
  cases row <;>
    simp [Database.rows, Chosen, afterAgents, deleteAgents, afterReleases, deleteReleases,
      afterReservations, deleteReservations, afterMessages, deleteMessages, afterRecipients,
      deleteRecipients, deleteSiblings, deleteLinks, Table.delete, and_assoc]

theorem chosen_iff (hc : db.Consistent) (hr : row ∈ db.rows) :
    Chosen ids db row ↔ ∀ key ∈ checkedKeys row, Within db (· ∈ ids) key := by
  have hk := hc row hr
  cases row
  case recipient => simp [Chosen, checkedKeys, within_message]
  case release =>
    simp only [Row.foreignKeys, List.forall_mem_singleton] at hk
    simp only [Chosen, checkedKeys, List.forall_mem_singleton, within_reservation hk]
  all_goals
    simp only [Row.foreignKeys, List.forall_mem_cons, List.not_mem_nil] at hk
    simp [Chosen, checkedKeys, within_project, hk]

theorem mem_afterProjects : row ∈ (afterProjects ids db).rows ↔
    row ∈ (afterAgents ids db).rows ∧ ∀ p, row = .project p → p.id ∈ ids := by
  cases row <;> simp [Database.rows, afterProjects, deleteProjects, Table.delete]

theorem kept_iff (hi : ∀ id ∈ ids, ∃ p ∈ db.projects.rows, p.id = id) :
    (∃ p ∈ (afterProjects ids db).projects.rows, p.id = id) ↔ id ∈ ids := by
  have hp {p : ProjectRow} : p ∈ (afterProjects ids db).projects.rows ↔ p ∈ db.projects.rows ∧
      p.id ∈ ids := by
    simp [afterProjects, deleteProjects, Table.delete, afterAgents, deleteAgents,
      afterReleases, deleteReleases, afterReservations, deleteReservations, afterMessages,
      deleteMessages, afterRecipients, deleteRecipients, deleteSiblings, deleteLinks]
  simp only [hp]
  constructor
  case mp =>
    rintro ⟨p, hp, hid⟩
    exact hid ▸ hp.right
  case mpr =>
    intro h
    obtain ⟨p, hp, hid⟩ := hi id h
    exact ⟨p, ⟨hp, hid ▸ h⟩, hid⟩

theorem checkedKeys_subset : checkedKeys row ⊆ row.foreignKeys := by
  cases row <;> simp [checkedKeys, Row.foreignKeys]

theorem mentions_iff (h : ∀ p, row ≠ .project p) :
    (∀ id ∈ db.mentions row, keep id) ↔ ∀ key ∈ row.foreignKeys, Within db keep key := by
  have hm : db.mentions row = row.foreignKeys.filterMap db.projectOf := by
    cases row
    case project p => exact absurd rfl (h p)
    all_goals rfl
  simp only [hm, List.mem_filterMap, Within]
  exact ⟨fun h key hk id he => h id ⟨key, hk, he⟩, fun h id ⟨key, hk, he⟩ => h key hk id he⟩

theorem rows_iff (hc : db.Consistent) (hi : ∀ id ∈ ids, ∃ p ∈ db.projects.rows, p.id = id) :
    (∀ row, row ∈ (afterProjects ids db).rows ↔
      row ∈ db.rows ∧ ∀ id ∈ db.mentions row, ∃ p ∈ (afterProjects ids db).projects.rows,
        p.id = id) ↔
    ∀ row ∈ db.rows, (∀ key ∈ checkedKeys row, Within db (· ∈ ids) key) →
      ∀ key ∈ row.foreignKeys, Within db (· ∈ ids) key := by
  simp only [kept_iff hi, mem_afterProjects, mem_afterAgents, and_assoc, and_congr_right_iff]
  refine forall_congr' fun row => forall_congr' fun hr => ?_
  by_cases h : ∃ p, row = .project p
  case pos =>
    obtain ⟨p, rfl⟩ := h
    simp [Chosen, Database.mentions, Row.foreignKeys]
  case neg =>
    have h : ∀ p, row ≠ .project p := not_exists.mp h
    rw [mentions_iff h, chosen_iff hc hr, and_iff_left fun p hp => absurd hp (h p)]
    exact ⟨Iff.mp, fun h => ⟨h, fun hk key hm => hk key (checkedKeys_subset hm)⟩⟩

end

section

theorem resolves_project : db.Resolves (.project id) ↔ ∃ p ∈ db.projects.rows, p.id = id := by
  simp [Database.Resolves, Database.projectOf, Table.get?]

theorem resolves_agent : db.Resolves (.agent id) ↔ ∃ a ∈ db.agents.rows, a.id = id := by
  simp [Database.Resolves, Database.projectOf, Table.get?]

theorem resolves_message : db.Resolves (.message id) ↔ ∃ m ∈ db.messages.rows, m.id = id := by
  simp [Database.Resolves, Database.projectOf, Table.get?]

theorem resolves_reservation : db.Resolves (.reservation id) ↔
    ∃ r ∈ db.reservations.rows, r.id = id := by
  simp [Database.Resolves, Database.projectOf, Table.get?]

theorem intact_messages : Intact (afterRecipients ids db) (afterMessages ids db) := by
  intro row hr key hk h
  cases key
  case message id =>
    cases row
    case recipient r =>
      have hid : id = r.messageId := by simpa [Row.foreignKeys] using hk
      have hr : r.messageId ∉ messageIds ids db := by
        simp only [Database.rows, afterMessages, deleteMessages, afterRecipients,
          deleteRecipients, Table.delete, List.mem_append, List.mem_map, List.mem_filter,
          reduceCtorEq, and_false, exists_false, false_or, or_false, Row.recipient.injEq,
          exists_eq_right] at hr
        simpa using hr.right
      obtain ⟨m, hm, hmid⟩ := resolves_message.mp h
      refine resolves_message.mpr ⟨m, List.mem_filter.mpr ⟨hm, ?_⟩, hmid⟩
      have hp : m.projectId ∈ ids := by
        by_contra hp
        refine hr (List.mem_map.mpr ⟨m, List.mem_filter.mpr ⟨hm, by simpa using hp⟩,
          hmid.trans hid⟩)
      simpa using hp
    all_goals simp [Row.foreignKeys] at hk
  all_goals exact h

theorem intact_reservations (hc : db.Consistent) :
    Intact (afterMessages ids db) (afterReservations ids db) ↔
      ∀ row ∈ db.releases.rows, Within db (· ∈ ids) (.reservation row.reservationId) := by
  have release_mem {r : FileReservationReleaseRow} :
      .release r ∈ (afterReservations ids db).rows ↔ r ∈ db.releases.rows := by
    simp [Database.rows, afterReservations, deleteReservations, afterMessages, deleteMessages,
      afterRecipients, deleteRecipients, deleteSiblings, deleteLinks]
  have resolves (r : FileReservationReleaseRow) (hr : r ∈ db.releases.rows) :
      db.Resolves (.reservation r.reservationId) :=
    hc (.release r) (by simp [Database.rows, hr]) _ (by simp [Row.foreignKeys])
  constructor
  case mp =>
    intro h r hr
    have h := h _ (release_mem.mpr hr) (.reservation r.reservationId) (by simp [Row.foreignKeys])
      (resolves r hr)
    rw [within_reservation (resolves r hr), List.mem_map]
    exact resolves_reservation.mp h
  case mpr =>
    intro h row hr key hk hx
    cases key
    case reservation id =>
      cases row
      case release r =>
        have hid : id = r.reservationId := by simpa [Row.foreignKeys] using hk
        have hr := release_mem.mp hr
        have h := (within_reservation (resolves r hr)).mp (h r hr)
        rw [hid]
        exact resolves_reservation.mpr (List.mem_map.mp h)
      all_goals simp [Row.foreignKeys] at hk
    all_goals exact hx

section

variable (h : ∀ row ∈ (afterAgents ids db).rows, ∀ key ∈ row.foreignKeys, Within db (· ∈ ids) key)

include h

theorem intact_agents : Intact (afterReleases ids db) (afterAgents ids db) := by
  intro row hr key hk hx
  cases key
  case agent id =>
    have ⟨a, ha, hid⟩ := resolves_agent.mp hx
    have ha' : db.projectOf (.agent id) = some a.projectId := by
      have hg : db.agents.get? id = some a := Table.get?_eq_some_iff.mpr ⟨ha, hid⟩
      simp [Database.projectOf, hg]
    have hp : a.projectId ∈ ids := h row hr _ hk _ ha'
    exact resolves_agent.mpr ⟨a, List.mem_filter.mpr ⟨ha, by simpa using hp⟩, hid⟩
  all_goals exact hx

theorem intact_projects : Intact (afterAgents ids db) (afterProjects ids db) := by
  intro row hr key hk hx
  cases key
  case project id =>
    have ⟨p, hp, hid⟩ := resolves_project.mp hx
    have hp' : db.projectOf (.project id) = some p.id := by
      have hg : db.projects.get? id = some p := Table.get?_eq_some_iff.mpr ⟨hp, hid⟩
      simp [Database.projectOf, hg]
    have hi : p.id ∈ ids := h row (mem_afterProjects.mp hr).left _ hk _ hp'
    exact resolves_project.mpr ⟨p, List.mem_filter.mpr ⟨hp, by simpa using hi⟩, hid⟩
  all_goals exact hx

end

end

-- The transaction succeeds and leaves the rows of the given projects.
theorem deleteOthers_iff (hc : db.Consistent) (hi : ∀ id ∈ ids, ∃ p ∈ db.projects.rows, p.id = id)
    (hn : ids.Nodup) : (∃ db', deleteOthers engine ids db = some db' ∧ ∀ row, row ∈ db'.rows ↔
      row ∈ db.rows ∧ ∀ id ∈ db.mentions row, ∃ p ∈ db'.projects.rows, p.id = id) ↔
    Separate db engine (· ∈ ids) := by
  have messages_nodup : (db.messages.rows.filter (·.projectId ∉ ids)).Nodup :=
    db.messages.nodup.of_map.filter _
  simp only [deleteOthers_eq_some, and_assoc, exists_and_left, exists_eq_left]
  constructor
  case mp =>
    intro ⟨h₁, h₂, hf, hr⟩
    exact {
      rows     := (rows_iff hc hi).mp hr
      releases := fun h => (intact_reservations hc).mp (hf h).right.left
      projects := fun ids' hn' hs => by
        have hle := (List.subperm_of_subset hn' hs).length_le
        omega
      messages := fun rows hn' hs => by
        have hsub : rows ⊆ db.messages.rows.filter (·.projectId ∉ ids) := fun row hr =>
          List.mem_filter.mpr ⟨(hs row hr).left, by simpa using (hs row hr).right⟩
        have hle := (List.subperm_of_subset hn' hsub).length_le
        rw [messageIds, List.length_map] at h₂
        omega }
  case mpr =>
    intro h
    have within : ∀ row ∈ (afterAgents ids db).rows, ∀ key ∈ row.foreignKeys,
        Within db (· ∈ ids) key := by
      intro row hr
      have ⟨hr, hx⟩ := mem_afterAgents.mp hr
      exact h.rows row hr ((chosen_iff hc hr).mp hx)
    refine ⟨h.projects ids hn fun _ => id, ?_, fun hf => ?_, (rows_iff hc hi).mpr h.rows⟩
    · rw [messageIds, List.length_map]
      exact h.messages _ messages_nodup fun row hr => by simpa using List.mem_filter.mp hr
    · exact ⟨intact_messages, (intact_reservations hc).mpr (h.releases hf), intact_agents within,
        intact_projects within⟩

theorem applyProjectScope_failed (e : ShareError)
    (h : (applyProjectScope engine db identifiers).2 = .error e) :
    (applyProjectScope engine db identifiers).1 = db := by
  have hor : (applyProjectScope engine db identifiers).1 = db ∨
      ∃ result, (applyProjectScope engine db identifiers).2 = .ok result := by
    unfold applyProjectScope
    dsimp only
    repeat' split
    all_goals first | exact .inl rfl | exact .inr ⟨_, rfl⟩
  exact hor.resolve_right fun ⟨_, hr⟩ => nomatch h.symm.trans hr

theorem exists_project (hc : db.Consistent) {key : ForeignKey} (h : db.projectOf key = some id) :
    ∃ p ∈ db.projects.rows, p.id = id := by
  have project (row : Row) (hr : row ∈ db.rows) {id : Int} (hk : .project id ∈ row.foreignKeys) :
      ∃ p ∈ db.projects.rows, p.id = id := resolves_project.mp (hc row hr _ hk)
  cases key
  all_goals
    simp only [Database.projectOf, Option.map_eq_some_iff, Table.get?_eq_some_iff] at h
    obtain ⟨row, ⟨hr, _⟩, rfl⟩ := h
  case project     => exact ⟨row, hr, rfl⟩
  case agent       =>
    exact project (.agent row) (by simp [Database.rows, hr]) (by simp [Row.foreignKeys])
  case message     =>
    exact project (.message row) (by simp [Database.rows, hr]) (by simp [Row.foreignKeys])
  case reservation =>
    exact project (.reservation row) (by simp [Database.rows, hr]) (by simp [Row.foreignKeys])

-- A scope that keeps everything.
theorem scoped_self (hc : db.Consistent) : Scoped db identifiers db where
  kept _ _ _ p hp _ := hp
  rows row := by
    refine ⟨fun hr => ⟨hr, fun id hid => ?_⟩, And.left⟩
    cases row
    case project p =>
      cases List.mem_singleton.mp hid
      exact ⟨p, by simpa [Database.rows] using hr, rfl⟩
    all_goals
      have ⟨_, _, hk⟩ := List.mem_filterMap.mp hid
      exact exists_project hc hk

theorem keepsSelected_of_unchanged (hc : db.Consistent) {result : ProjectScopeResult}
    (h : applyProjectScope engine db identifiers = (db, .ok result)) :
    KeepsSelected db identifiers engine where
  selected := ⟨result, by rw [h], by rw [h]; exact scoped_self hc⟩
  failed   := applyProjectScope_failed

-- What is left of the transaction.
theorem keepsSelected_iff_of_deleteOthers (hc : db.Consistent)
    (hi : ∀ id, Selected db identifiers id ↔ id ∈ ids)
    (hids : ∀ id ∈ ids, ∃ p ∈ db.projects.rows, p.id = id) (hn : ids.Nodup)
    (projects : List ProjectRow) {removed : Nat}
    (h : applyProjectScope engine db identifiers = match deleteOthers engine ids db with
      | none     => (db, .error .sqlite)
      | some db' => (db', .ok ⟨identifiers, projects, removed, countRemaining db'⟩)) :
    KeepsSelected db identifiers engine ↔
      (∀ ident ∈ identifiers, trim ident ≠ [] → ∀ p ∈ db.projects.rows,
        p.slug = trim ident ∨ p.humanKey = trim ident → Selected db identifiers p.id) ∧
      Separate db engine (· ∈ ids) := by
  rw [← deleteOthers_iff hc hids hn]
  constructor
  case mp =>
    intro hk
    have ⟨_, hr, hs⟩ := hk.selected
    cases hd : deleteOthers engine ids db
    case none => simp [h, hd] at hr
    case some db' =>
      simp only [h, hd] at hs
      refine ⟨fun ident hi' hb p hp he => ?_, db', rfl, hs.rows⟩
      rw [(deleteOthers_eq_some.mp hd).right.right] at hs
      exact (hi p.id).mpr ((kept_iff hids).mp ⟨p, hs.kept ident hi' hb p hp he, rfl⟩)
  case mpr =>
    intro ⟨hu, db', hd, hr⟩
    refine ⟨⟨⟨identifiers, projects, removed, countRemaining db'⟩, by rw [h, hd], ?_⟩,
      applyProjectScope_failed⟩
    simp only [h, hd]
    refine ⟨fun ident hi' hb p hp he => ?_, hr⟩
    have hm : .project p ∈ db'.rows := by
      refine (hr _).mpr ⟨by simpa [Database.rows] using hp, fun id hid => ?_⟩
      cases List.mem_singleton.mp hid
      rw [(deleteOthers_eq_some.mp hd).right.right, kept_iff hids, ← hi]
      exact hu ident hi' hb p hp he
    simpa [Database.rows] using hm

theorem applyProjectScope_keepsSelected_iff (hc : db.Consistent) (hi : Identifies db identifiers) :
    KeepsSelected db identifiers engine ↔ Selectable db identifiers engine := by
  have ⟨matched, he, hn, hm, hs⟩ := matchIdentifiers_selected hi
  have hids : ∀ id ∈ matched.map (·.id), ∃ p ∈ db.projects.rows, p.id = id := fun id hid =>
    have ⟨p, hp, h⟩ := List.mem_map.mp hid
    ⟨p, hm p hp, h⟩
  by_cases hp : db.projects.rows = []
  case pos =>
    have h : applyProjectScope engine db identifiers = (db, .error .scopeNoProjects) := by
      simp [applyProjectScope, hp]
    refine ⟨fun hk => ?_, fun hk => absurd hp hk.nonempty⟩
    have ⟨_, hr, _⟩ := hk.selected
    rw [h] at hr
    cases hr
  case neg =>
    have hp' : db.projects.rows.insertionSort (·.id ≤ ·.id) ≠ [] := by
      rwa [ne_eq, ← List.length_eq_zero_iff, List.length_insertionSort, List.length_eq_zero_iff]
    by_cases hb : ∃ ident ∈ identifiers, trim ident ≠ []
    case neg =>
      have hmnil : matched = [] := by
        refine List.eq_nil_iff_forall_not_mem.mpr fun p hp => hb ?_
        have ⟨ident, hident, hblank, _⟩ := (hs p.id).mp (List.mem_map_of_mem hp)
        exact ⟨ident, hident, hblank⟩
      have h : ∃ result, applyProjectScope engine db identifiers = (db, .ok result) := by
        by_cases hnil : identifiers = []
        case pos => simp only [applyProjectScope, if_neg hp', if_pos hnil, Prod.mk.injEq, true_and,
          Except.ok.injEq, exists_eq']
        case neg => simp only [applyProjectScope, if_neg hp', if_neg hnil, he, if_pos hmnil,
          Prod.mk.injEq, true_and, Except.ok.injEq, exists_eq']
      have ⟨_, h⟩ := h
      refine iff_of_true (keepsSelected_of_unchanged hc h) ?_
      exact ⟨hp, fun ident hi hb' => absurd ⟨ident, hi, hb'⟩ hb, fun hb' => absurd hb' hb⟩
    case pos =>
      have ⟨ident, hident, hblank⟩ := hb
      have ⟨id, hid⟩ := exists_selected hi hident hblank
      have hne : identifiers ≠ [] := List.ne_nil_of_mem hident
      have hmne : matched ≠ [] := by
        rintro rfl
        exact List.not_mem_nil ((hs id).mpr hid)
      have disallowed_nil : ((db.projects.rows.insertionSort (·.id ≤ ·.id)).filter
          (·.id ∉ matched.map (·.id))) = [] ↔ ∀ p ∈ db.projects.rows,
            Selected db identifiers p.id := by
        simp only [List.filter_eq_nil_iff, mem_allProjects, hs, decide_eq_true_eq, not_not]
      by_cases ho : ∀ p ∈ db.projects.rows, Selected db identifiers p.id
      case pos =>
        have h : applyProjectScope engine db identifiers =
            (db, .ok ⟨identifiers, matched, 0, countRemaining db⟩) := by
          simp only [applyProjectScope, if_neg hp', if_neg hne, he, if_neg hmne,
            if_pos (disallowed_nil.mpr ho)]
        refine iff_of_true (keepsSelected_of_unchanged hc h) ?_
        exact ⟨hp, fun _ _ _ p hp _ => ho p hp, fun _ ⟨p, hp, hn⟩ => absurd (ho p hp) hn⟩
      case neg =>
        have ⟨p, hpm, hpn⟩ : ∃ p ∈ db.projects.rows, ¬Selected db identifiers p.id := by
          simpa only [not_forall, exists_prop] using ho
        have h : KeepsSelected db identifiers engine ↔ _ :=
          keepsSelected_iff_of_deleteOthers hc (fun id => (hs id).symm) hids hn matched <| by
            simp only [applyProjectScope, if_neg hp', if_neg hne, he, if_neg hmne,
              if_neg (mt disallowed_nil.mp ho)]
            rfl
        rw [h, funext fun id => propext (hs id)]
        exact ⟨fun h => ⟨hp, h.left, fun _ _ => h.right⟩,
          fun h => ⟨h.unambiguous, h.separate hb ⟨p, hpm, hpn⟩⟩⟩

-- Two projects, the second of which has a reservation that has been released.
def released : Database where
  projects     := ⟨[⟨1, "a".toList, "/a".toList⟩, ⟨2, "b".toList, "/b".toList⟩], by decide⟩
  productLinks := .empty
  agents       :=
    ⟨[⟨1, 1, "BlueLake".toList, [], "auto".toList⟩, ⟨2, 2, "RedFox".toList, [], "auto".toList⟩],
      by decide⟩
  messages     := .empty
  recipients   := .empty
  reservations := ⟨[⟨1, 2, 2, "*".toList⟩], by decide⟩
  releases     := ⟨[⟨1, 5⟩], by decide⟩
  links        := .empty
  siblings     := .empty
  inboxStats   := .empty

def sqlite : Engine :=
  ⟨true, 32766⟩

theorem applyProjectScope_keepsSelected_iff_released :
    KeepsSelected released ["a".toList] sqlite ↔ Selectable released ["a".toList] sqlite :=
  applyProjectScope_keepsSelected_iff (by decide) (by decide)

-- The reservation is deleted in front of its release, which a foreign key forbids.
theorem not_keepsSelected_released : (released.Consistent ∧ Identifies released ["a".toList]) ∧
    (applyProjectScope sqlite released ["a".toList]).2 = .error .sqlite ∧
    ¬KeepsSelected released ["a".toList] sqlite := by
  have h : (applyProjectScope sqlite released ["a".toList]).2 = .error .sqlite := by rfl
  refine ⟨⟨by decide, by decide⟩, h, fun hk => ?_⟩
  have ⟨_, hr, _⟩ := hk.selected
  exact nomatch h.symm.trans hr

end Share
