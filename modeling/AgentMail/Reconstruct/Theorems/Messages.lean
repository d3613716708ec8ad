import AgentMail.Lib.Except
import AgentMail.Reconstruct.Basic

open Pattern (Str)

namespace Reconstruct

section

variable {α : Type} {id : α → Int} {table : Table id} {row : α}

theorem le_maxId (h : row ∈ table.rows) : id row ≤ maxId table :=
  RowIds.le_foldl_max.right _ (List.mem_map.mpr ⟨row, h, rfl⟩)

theorem get?_of_maxId_lt {i : Int} (h : maxId table < i) : table.get? i = none :=
  Table.get?_eq_none_iff.mpr fun _ ha he => absurd (le_maxId ha) (by omega)

theorem insertOrReplace_eq (h : table.get? (id row) = none) :
    insertOrReplace table row = table.insertOrIgnore row := by
  have hr : table.delete (id · = id row) = table :=
    Table.ext <| List.filter_eq_self.mpr fun a ha => by simpa using Table.get?_eq_none_iff.mp h a ha
  rw [insertOrReplace, hr]

end

variable {env : Env} {s s' : State} {projectId : Int} {name : Str}

-- Only agents, reservations and statistics are changed.
def SameMessages (s s' : State) : Prop :=
  s'.messages = s.messages ∧ s'.projects = s.projects

theorem SameMessages.refl : SameMessages s s :=
  ⟨rfl, rfl⟩

theorem SameMessages.trans {s''} (h : SameMessages s s') (h' : SameMessages s' s'') :
    SameMessages s s'' :=
  ⟨h'.left.trans h.left, h'.right.trans h.right⟩

theorem insertOrIgnoreAgent_same {row : Int → AgentRow} :
    SameMessages s (insertOrIgnoreAgent s row) := by
  unfold insertOrIgnoreAgent
  dsimp only
  split <;> exact ⟨rfl, rfl⟩

theorem queryAgentId_insertOrIgnoreAgent {row : Int → AgentRow} (hi : ∀ i, (row i).id = i)
    (hp : ∀ i, (row i).projectId = projectId) (hn : ∀ i, (row i).name = name) :
    ∃ id, queryAgentId (insertOrIgnoreAgent s row) projectId name = .ok id := by
  have h : ∃ agent, (insertOrIgnoreAgent s row).agents.rows.find? (agentMatches projectId name) =
      some agent := by
    rw [← Option.isSome_iff_exists, List.find?_isSome]
    unfold insertOrIgnoreAgent
    simp only [hp, hn]
    split
    case isTrue h => exact List.any_eq_true.mp h
    case isFalse  =>
      refine ⟨row (maxId s.agents + 1), ?_, by simp [agentMatches, hp, hn]⟩
      rw [Table.rows_insertOrIgnore (get?_of_maxId_lt (by rw [hi]; omega))]
      exact List.mem_append_right _ (List.mem_singleton_self _)
  have ⟨agent, h⟩ := h
  exact ⟨agent.id, by rw [queryAgentId, h]⟩

theorem ensureAgentExists_same :
    ∃ s' id, ensureAgentExists env projectId name s = .ok (s', id) ∧ SameMessages s s' := by
  unfold ensureAgentExists
  split
  case h_1 id _ => exact ⟨s, id, rfl, .refl⟩
  case h_2      =>
    have ⟨id, h⟩ := @queryAgentId_insertOrIgnoreAgent s projectId name
      (placeholderAgent env projectId name) (fun _ => rfl) (fun _ => rfl) fun _ => rfl
    dsimp only
    rw [h]
    exact ⟨_, id, rfl, insertOrIgnoreAgent_same⟩

theorem insertRecipients_same {messageId : Int} {kind : String} {names : List Str} :
    ∃ s', insertRecipients env projectId messageId kind names s = .ok s' ∧ SameMessages s s' := by
  induction names generalizing s
  case nil => exact ⟨s, rfl, .refl⟩
  case cons name names hi =>
    have ⟨t, id, ht, hs⟩ := @ensureAgentExists_same env s projectId name
    have ⟨s', hs', ht'⟩ := hi (s := insertRecipient messageId id kind t)
    refine ⟨s', ?_, hs.trans ht'⟩
    simp only [insertRecipients, List.foldlM_cons, ht]
    exact hs'

theorem insertAllRecipients_same {messageId : Int} {msg : Json} :
    ∃ s', insertAllRecipients env projectId messageId msg s = .ok s' ∧ SameMessages s s' := by
  have ⟨t, ht, hs⟩ := @insertRecipients_same env s projectId messageId "to" (jsonStrArray msg "to")
  have ⟨u, hu, ht'⟩ := @insertRecipients_same env t projectId messageId "cc" (jsonStrArray msg "cc")
  have ⟨v, hv, hu'⟩ :=
    @insertRecipients_same env u projectId messageId "bcc" (jsonStrArray msg "bcc")
  refine ⟨v, ?_, (hs.trans ht').trans hu'⟩
  rw [insertAllRecipients, ht]
  change Except.bind (insertRecipients _ _ _ _ _ t) _ = _
  rw [hu]
  exact hv

theorem warnSanitizedThreadId_same {msg : Json} {file : MessageFile} :
    SameMessages s (warnSanitizedThreadId msg file s) := by
  unfold warnSanitizedThreadId
  split
  case h_1 => exact .refl
  case h_2 => split <;> exact ⟨rfl, rfl⟩

-- The id of the row that a message yields.
def newId (messages : Table MessageRow.id) : Option Int → Option Int
  | some cid => if messages.get? cid = none then some cid else none
  | none     => RowIds.next maxRowid (maxId messages)

theorem get?_newId {messages : Table MessageRow.id} {cid : Option Int} {i : Int}
    (h : newId messages cid = some i) : messages.get? i = none := by
  cases cid <;> simp only [newId] at h
  case none     => exact get?_of_maxId_lt (by have := RowIds.next_eq_some_iff.mp h; omega)
  case some cid =>
    obtain ⟨hn, hi⟩ := Option.ite_none_right_eq_some.mp h
    exact Option.some.inj hi ▸ hn

theorem insertMessage_eq {row : Int → MessageRow} (hr : ∀ i, (row i).id = i) {cid : Option Int}
    (hf : cid.filter (messageIdExists s) = none) : insertMessage row cid s =
      (newId s.messages cid).map fun i =>
        ({ s with messages := s.messages.insertOrIgnore (row i) }, i) := by
  cases cid
  case none     => simp [newId, insertMessage, insertWithoutId, Function.comp_def]
  case some cid =>
    have h : s.messages.get? cid = none := by simpa [messageIdExists] using hf
    rw [newId, if_pos h, insertMessage, insertOrReplace_eq (by rwa [hr])]
    rfl

theorem insertParsedMessage_rows {file : MessageFile} {msg : Json} {bodyMd : Str} :
    ∃ senderId, let s' := (insertParsedMessage env file msg bodyMd projectId s).fst
      s'.projects = s.projects ∧ s'.messages.rows = s.messages.rows ++
        (newId s.messages (canonicalId msg)).toList.map
          (messageRow env msg bodyMd projectId senderId) := by
  unfold insertParsedMessage
  dsimp only
  generalize (Option.getD _ _ : Str) = senderName
  have ⟨t, senderId, ht, hm, hp⟩ :=
    @ensureAgentExists_same env s projectId senderName
  rw [ht]
  refine ⟨senderId, ?_⟩
  dsimp only
  cases hf : (canonicalId msg).filter (messageIdExists t)
  case some cid =>
    have ⟨hc, he⟩ := Option.filter_eq_some_iff.mp hf
    have hn : newId s.messages (canonicalId msg) = none := by
      rw [hc, newId, if_neg (Option.isSome_iff_ne_none.mp (hm ▸ he))]
    rw [hn]
    exact ⟨hp, by simp [hm]⟩
  case none =>
    dsimp only
    have ⟨hm', hp'⟩ := @warnSanitizedThreadId_same t msg file
    generalize warnSanitizedThreadId msg file t = u at hm' hp'
    have hf : (canonicalId msg).filter (messageIdExists u) = none := by
      unfold messageIdExists at hf ⊢
      rwa [hm']
    rw [insertMessage_eq (fun _ => rfl) hf, hm', hm]
    cases hn : newId s.messages (canonicalId msg)
    case none   => exact ⟨hp'.trans hp, by simp [hm', hm]⟩
    case some i =>
      have hr : (s.messages.insertOrIgnore (messageRow env msg bodyMd projectId senderId i)).rows =
          s.messages.rows ++ [messageRow env msg bodyMd projectId senderId i] :=
        Table.rows_insertOrIgnore (get?_newId hn)
      simp only [Option.map_some]
      generalize hv : ({ u with messages := _, stats := _ } : State) = v
      have ⟨w, hw, hwm, hwp⟩ :=
        @insertAllRecipients_same env v projectId i msg
      rw [hw]
      subst hv
      exact ⟨hwp.trans (hp'.trans hp), by simp [hwm, hr]⟩

theorem visitMessage_same_parse {file : MessageFile} :
    SameMessages (parseAndInsertMessage env file projectId s).fst
      (visitMessage env projectId s file) := by
  unfold visitMessage
  split
  case h_1 h => exact h ▸ .refl
  case h_2 h => exact h ▸ ⟨rfl, rfl⟩

theorem visitMessage_of_none {file : MessageFile} (h : messageOf env file = none) :
    SameMessages s (visitMessage env projectId s file) := by
  refine .trans ?_ visitMessage_same_parse
  unfold parseAndInsertMessage
  split
  case h_1 => exact .refl
  case h_2 content hc =>
    rw [messageOf, hc, Option.bind_some] at h
    cases hm : Archive.parseArchivedMessage env.serde content
    case error e => exact .refl
    case ok m    => rw [hm] at h; cases h

theorem visitMessage_of_some {file : MessageFile} {msg : Json} {bodyMd : Str}
    (h : messageOf env file = some (msg, bodyMd)) :
    ∃ senderId, let s' := visitMessage env projectId s file
      s'.projects = s.projects ∧ s'.messages.rows = s.messages.rows ++
        (newId s.messages (canonicalId msg)).toList.map
          (messageRow env msg bodyMd projectId senderId) := by
  have ⟨content, hc, hm⟩ := Option.bind_eq_some_iff.mp h
  have hm : Archive.parseArchivedMessage env.serde content = .ok (msg, bodyMd) := by
    cases hp : Archive.parseArchivedMessage env.serde content <;> rw [hp] at hm <;> cases hm
    rfl
  have ⟨senderId, hp, hr⟩ := @insertParsedMessage_rows env s projectId file msg bodyMd
  have ⟨hm', hp'⟩ := @visitMessage_same_parse env s projectId file
  simp only [parseAndInsertMessage, hc, hm] at hm' hp'
  exact ⟨senderId, hp'.trans hp, by rw [hm', hr]⟩

-- The messages after some files, with the file of each row.
structure Recovered (env : Env) (done : List ArchivedFile) (s : State)
    (log : List (ArchivedFile × Int)) : Prop where
  logged  : RowIds.Log maxRowid (ArchivedFile.canonicalId env) done log
  keys    : s.messages.rows.map MessageRow.id = log.map Prod.snd
  carries : ∀ row ∈ s.messages.rows, ∀ file, (file, row.id) ∈ log → Carries env s row file

theorem canonicalId_le {msg : Json} {cid : Int} (h : canonicalId msg = some cid) :
    cid ≤ maxRowid := by
  have ⟨h, _⟩ := Option.filter_eq_some_iff.mp h
  have ⟨_, _, h⟩ := Option.bind_eq_some_iff.mp h
  have := Json.asI64_lt h
  simp only [maxRowid]
  omega

theorem ArchivedFile.canonicalId_le {file : ArchivedFile} {cid : Int}
    (h : file.canonicalId env = some cid) : cid ≤ maxRowid :=
  have ⟨_, _, h⟩ := Option.bind_eq_some_iff.mp h
  Reconstruct.canonicalId_le h

section

variable {done : List ArchivedFile} {log : List (ArchivedFile × Int)} {dir : ProjectDir}
  {file : MessageFile} {msg : Json} {bodyMd : Str} (h : Recovered env done s log)

include h

theorem Recovered.of_same (hm : s'.messages = s.messages)
    (hp : ∀ p ∈ s.projects.rows, p ∈ s'.projects.rows) : Recovered env done s' log where
  logged  := h.logged
  keys    := hm ▸ h.keys
  carries := by
    intro row hr file hf
    have ⟨⟨p, hps, hpr⟩, hc⟩ := h.carries row (hm ▸ hr) file hf
    exact ⟨⟨p, hp p hps, hpr⟩, hc⟩

theorem Recovered.maxId_eq :
    maxId s.messages = RowIds.highest maxRowid (done.map (ArchivedFile.canonicalId env)) := by
  rw [maxId, h.keys, h.logged.top]

theorem Recovered.get?_eq_none_iff {i : Int} : s.messages.get? i = none ↔ i ∉ log.map Prod.snd := by
  rw [Table.get?_eq_none_iff, ← h.keys, List.mem_map]
  simp

-- What is left to show for a new row.
theorem Recovered.concat {row : MessageRow} {i : Int} {file : ArchivedFile}
    (hl : RowIds.Log maxRowid (ArchivedFile.canonicalId env) (done ++ [file]) (log ++ [(file, i)]))
    (hi : s.messages.get? i = none) (hr : row.id = i) (hp : s'.projects = s.projects)
    (hs : s'.messages.rows = s.messages.rows ++ [row]) (hc : Carries env s' row file) :
    Recovered env (done ++ [file]) s' (log ++ [(file, i)]) where
  logged  := hl
  keys    := by rw [hs, List.map_append, List.map_append, h.keys, List.map_singleton, hr]; rfl
  carries := by
    rw [hs, List.forall_mem_append, List.forall_mem_singleton]
    have hi' := h.get?_eq_none_iff.mp hi
    refine ⟨fun row' hr' f hf => ?_, fun f hf => ?_⟩
    · obtain hf | hf := List.mem_append.mp hf
      · have hs : Recovered env done { s with projects := s'.projects } log :=
          h.of_same rfl (hp ▸ fun _ => id)
        exact hs.carries row' hr' f hf
      · cases List.mem_singleton.mp hf
        exact absurd rfl (Table.get?_eq_none_iff.mp hi row' hr')
    · obtain hf | hf := List.mem_append.mp hf
      · exact (hi' (List.mem_map.mpr ⟨_, hf, hr⟩)).elim
      · cases List.mem_singleton.mp hf
        exact hc

theorem Recovered.visit (hp : ∃ p ∈ s.projects.rows, p.slug = dir.slug ∧ projectId = p.id)
    (hm : messageOf env file = some (msg, bodyMd)) (hn : (dir, file) ∉ done) :
    ∃ log, Recovered env (done ++ [(dir, file)]) (visitMessage env projectId s file) log := by
  obtain ⟨senderId, hsp, hsr⟩ := @visitMessage_of_some _ s projectId _ _ _ hm
  have hg : ArchivedFile.canonicalId env (dir, file) = canonicalId msg := by
    rw [ArchivedFile.canonicalId, hm]
    rfl
  cases hi : newId s.messages (canonicalId msg) <;> rw [hi] at hsr
  case none =>
    have hrows := Table.ext (hsr.trans (List.append_nil _))
    obtain ⟨_, hk, hc⟩ := h.of_same hrows fun p hp => hsp ▸ hp
    refine ⟨log, ?_, hk, hc⟩
    cases hcid : canonicalId msg <;> rw [hcid] at hi hg
    case none     =>
      rw [newId, h.maxId_eq] at hi
      exact h.logged.refuse (by simp [maxRowid]) (fun _ _ _ => ArchivedFile.canonicalId_le) hn hg hi
    case some cid =>
      refine h.logged.skip hg ?_
      by_contra hk
      simp [newId, h.get?_eq_none_iff.mpr hk] at hi
  case some i =>
    refine ⟨log ++ [((dir, file), i)],
      h.concat ?_ (get?_newId hi) rfl hsp hsr ⟨hsp ▸ hp, msg, hm, rfl⟩⟩
    cases hcid : canonicalId msg <;> rw [hcid] at hi hg
    case none     =>
      rw [newId, h.maxId_eq] at hi
      exact h.logged.choose hn hg hi
    case some cid =>
      obtain ⟨hk, hi⟩ := Option.ite_none_right_eq_some.mp hi
      cases hi
      exact h.logged.insert hg (h.get?_eq_none_iff.mp hk)

end

theorem Recovered.visitAll {dir : ProjectDir} {files : List MessageFile} {done : List ArchivedFile}
    {log : List (ArchivedFile × Int)} (h : Recovered env done s log)
    (hp : ∃ p ∈ s.projects.rows, p.slug = dir.slug ∧ projectId = p.id)
    (hn : (done ++ (files.filter fun file => (messageOf env file).isSome).map (dir, ·)).Nodup) :
    ∃ log, Recovered env
      (done ++ (files.filter fun file => (messageOf env file).isSome).map (dir, ·))
      (files.foldl (visitMessage env projectId) s) log := by
  induction files generalizing s done log
  case nil => exact ⟨log, by simpa using h⟩
  case cons file files hi =>
    cases hm : messageOf env file
    case none =>
      have ⟨hsm, hsp⟩ := @visitMessage_of_none _ s projectId _ hm
      simp only [List.filter_cons, hm] at hn ⊢
      exact hi (h.of_same hsm fun p hp => hsp ▸ hp) (hsp ▸ hp) hn
    case some message =>
      have ⟨senderId, hsp, _⟩ := @visitMessage_of_some _ s projectId _ _ _ hm
      simp only [List.filter_cons, hm, Option.isSome_some, if_true, List.map_cons] at hn ⊢
      rw [← List.singleton_append, ← List.append_assoc] at hn ⊢
      have hf : (dir, file) ∉ done := fun hf =>
        (List.nodup_append.mp (List.nodup_append.mp hn).left).right.right _ hf
          _ (List.mem_singleton_self _) rfl
      have ⟨log, h⟩ := h.visit hp hm hf
      exact hi h (hsp ▸ hp) hn

theorem discoverAgent_same {dir : AgentDir} (h : discoverAgent env projectId s dir = .ok s') :
    SameMessages s s' := by
  unfold discoverAgent at h
  split at h
  case h_1 => cases h; exact .refl
  case h_2 => cases h; exact ⟨rfl, rfl⟩
  case h_3 =>
    split at h
    case h_1           => cases h; exact ⟨rfl, rfl⟩
    case h_2 profile _ =>
      have ⟨_, _, h⟩ := Except.bind_eq_ok_iff.mp h
      cases h
      exact insertOrIgnoreAgent_same

theorem discoverFileReservation_same {file : ReservationFile}
    (h : discoverFileReservation env projectId s file = .ok s') : SameMessages s s' := by
  unfold discoverFileReservation at h
  split at h
  case h_1               => cases h; exact ⟨rfl, rfl⟩
  case h_2 reservation _ =>
    have ⟨t, id, ht, hm, hp⟩ := @ensureAgentExists_same env s projectId reservation.agentName
    rw [insertArchivedFileReservation, ht] at h
    change insertReservation _ _ _ _ = _ at h
    have hs : SameMessages t s' := by
      unfold insertReservation at h
      split at h
      case h_1 => cases h; exact ⟨rfl, rfl⟩
      case h_2 => split at h <;> cases h; exact ⟨rfl, rfl⟩
    exact SameMessages.trans ⟨hm, hp⟩ hs

theorem insertOrIgnoreProject_spec {slug humanKey : Str} :
    let s' := insertOrIgnoreProject env s slug humanKey
    s'.messages = s.messages ∧ (∀ p ∈ s.projects.rows, p ∈ s'.projects.rows) ∧
      ∃ p ∈ s'.projects.rows, p.slug = slug := by
  unfold insertOrIgnoreProject
  split
  case isTrue h  => exact ⟨rfl, fun _ => id, by simpa using h⟩
  case isFalse h =>
    dsimp only
    rw [Table.rows_insertOrIgnore (get?_of_maxId_lt (by dsimp only; omega))]
    exact ⟨rfl, fun _ => List.mem_append_left _, _,
      List.mem_append_right _ (List.mem_singleton_self _), rfl⟩

theorem insertProject_spec {dir : ProjectDir} :
    ∃ t, ∃ p ∈ t.projects.rows, p.slug = dir.slug ∧ insertProject env s dir = .ok (t, p.id) ∧
      t.messages = s.messages ∧ ∀ p ∈ s.projects.rows, p ∈ t.projects.rows := by
  have ⟨hm, hp, q, hq, hd⟩ := @insertOrIgnoreProject_spec env
    { s with stats := (readProjectHumanKey env dir s.stats).snd } dir.slug
      (readProjectHumanKey env dir s.stats).fst
  unfold insertProject queryProjectId
  dsimp only
  generalize insertOrIgnoreProject env _ dir.slug _ = u at hm hp hq
  cases hf : u.projects.rows.find? (·.slug = dir.slug)
  case none   => exact absurd hd (by simpa using List.find?_eq_none.mp hf q hq)
  case some p =>
    refine ⟨_, p, ?_, by simpa using List.find?_some hf, rfl, hm, hp⟩
    exact List.mem_of_find?_eq_some hf

theorem reconstructProject_spec {dir : ProjectDir} (h : reconstructProject env s dir = .ok s') :
    ∃ t, ∃ p ∈ t.projects.rows, p.slug = dir.slug ∧ s' = discoverMessages env dir p.id t ∧
      t.messages = s.messages ∧ ∀ p ∈ s.projects.rows, p ∈ t.projects.rows := by
  have ⟨t, p, hpt, hpd, ht, hm, hp⟩ := @insertProject_spec env s dir
  rw [reconstructProject, ht] at h
  change (dir.agents.foldlM (discoverAgent env p.id) t >>= _) = _ at h
  have ⟨u, hu, h⟩ := Except.bind_eq_ok_iff.mp h
  have ⟨v, hv, h⟩ := Except.bind_eq_ok_iff.mp h
  cases h
  have ⟨hm', hp'⟩ :=
    (Except.foldlM_ok (R := SameMessages) (fun _ => .refl) .trans
      (fun _ _ _ => discoverAgent_same) hu).trans <|
      Except.foldlM_ok (R := SameMessages) (fun _ => .refl) .trans
        (fun _ _ _ => discoverFileReservation_same) hv
  exact ⟨v, p, hp' ▸ hpt, hpd, rfl, hm'.trans hm, fun p h => hp' ▸ hp p h⟩

theorem discoverAgent_ok {dir : AgentDir} : ∃ s', discoverAgent env projectId s dir = .ok s' := by
  unfold discoverAgent
  split
  case h_1 => exact ⟨_, rfl⟩
  case h_2 => exact ⟨_, rfl⟩
  case h_3 =>
    split
    case h_1           => exact ⟨_, rfl⟩
    case h_2 profile _ =>
      have ⟨id, hq⟩ := @queryAgentId_insertOrIgnoreAgent s projectId dir.name
        (profileAgent env profile projectId dir.name) (fun _ => rfl) (fun _ => rfl) fun _ => rfl
      dsimp only
      rw [hq]
      exact ⟨_, rfl⟩

-- A reservation with an id is always inserted.
theorem discoverFileReservation_ok {file : ReservationFile}
    (h : ∀ r, parseArchivedFileReservation env file = .ok r → r.reservationId.isSome) :
    ∃ s', discoverFileReservation env projectId s file = .ok s' := by
  unfold discoverFileReservation
  split
  case h_1                => exact ⟨_, rfl⟩
  case h_2 reservation hr =>
    have ⟨id, hi⟩ := Option.isSome_iff_exists.mp (h reservation hr)
    have ⟨t, agentId, ht, _⟩ := @ensureAgentExists_same env s projectId reservation.agentName
    rw [insertArchivedFileReservation, ht]
    exact ⟨_, by rw [hi]; rfl⟩

theorem reconstructFromArchive_ok {archive : Archive}
    (h : ∀ dir ∈ archive.projects, ∀ file ∈ dir.reservations, ∀ r,
      parseArchivedFileReservation env file = .ok r → r.reservationId.isSome) :
    ∃ db, reconstructFromArchive env archive = .ok db := by
  have ⟨s, hs⟩ : ∃ s, archive.projectDirs.foldlM (reconstructProject env) .empty = .ok s := by
    refine Except.exists_foldlM_ok fun s dir hd => ?_
    have hd := (List.mem_insertionSort _).mp hd
    have ⟨t, p, _, _, ht, _⟩ := @insertProject_spec env s dir
    have ⟨u, hu⟩ := @Except.exists_foldlM_ok _ _ _ dir.agents _ t fun s a _ =>
      @discoverAgent_ok env s p.id a
    have ⟨v, hv⟩ := @Except.exists_foldlM_ok _ _ _ dir.reservationFiles _ u fun s file hf =>
      @discoverFileReservation_ok env s p.id file
        (h dir hd file (List.mem_of_mem_filter ((List.mem_insertionSort _).mp hf)))
    rw [reconstructProject, ht]
    change ∃ s', (dir.agents.foldlM (discoverAgent env p.id) t >>= _) = _
    rw [hu]
    change ∃ s', (dir.reservationFiles.foldlM (discoverFileReservation env p.id) u >>= _) = _
    rw [hv]
    exact ⟨_, rfl⟩
  exact ⟨_, by rw [reconstructFromArchive, hs]; rfl⟩

theorem Recovered.foldlM {dirs : List ProjectDir} {done : List ArchivedFile}
    {log : List (ArchivedFile × Int)} (hr : Recovered env done s log)
    (h : dirs.foldlM (reconstructProject env) s = .ok s')
    (hn : (done ++ dirs.flatMap (ProjectDir.files env)).Nodup) :
    ∃ log, Recovered env (done ++ dirs.flatMap (ProjectDir.files env)) s' log := by
  induction dirs generalizing s done log
  case nil =>
    cases h
    exact ⟨log, by simpa using hr⟩
  case cons dir dirs hi =>
    have ⟨t, ht, h⟩ := Except.bind_eq_ok_iff.mp h
    obtain ⟨u, p, hpu, hpd, rfl, hm, hp⟩ := reconstructProject_spec ht
    rw [List.flatMap_cons, ← List.append_assoc] at hn ⊢
    have ⟨log, hr⟩ := (hr.of_same hm hp).visitAll ⟨p, hpu, hpd, rfl⟩ (List.nodup_append.mp hn).left
    exact hi hr h hn

theorem ProjectDir.nodup_messageFiles {dir : ProjectDir} : dir.messageFiles.Nodup :=
  (List.perm_insertionSort _ _).nodup_iff.mpr (dir.nodup.of_map.filter _)

theorem Archive.nodup_files {archive : Archive} : (archive.files env).Nodup := by
  have hp : archive.projectDirs.Nodup :=
    (List.perm_insertionSort _ _).nodup_iff.mpr archive.nodup.of_map
  refine List.nodup_flatMap.mpr ⟨fun dir _ => ?_, hp.imp fun {d e} hd f hf hf' => ?_⟩
  · exact (dir.nodup_messageFiles.filter _).map fun _ _ h => congrArg Prod.snd h
  · have ⟨_, _, h⟩ := List.mem_map.mp hf
    have ⟨_, _, h'⟩ := List.mem_map.mp hf'
    exact hd (congrArg Prod.fst (h.trans h'.symm))

theorem recovered {archive : Archive} {db : State}
    (h : reconstructFromArchive env archive = .ok db) :
    ∃ log, Recovered env (archive.files env) db log := by
  have ⟨s, hs, h⟩ := Except.bind_eq_ok_iff.mp h
  cases h
  have hr : Recovered env [] .empty [] := ⟨.nil, rfl, nofun⟩
  have ⟨log, hl⟩ := hr.foldlM hs archive.nodup_files
  exact ⟨log, hl.of_same rfl fun _ => id⟩

theorem NoMessageLost.noneTaken {archive : Archive} {db : State}
    (h : reconstructFromArchive env archive = .ok db) (hn : NoMessageLost env archive db) :
    RowIds.NoneTaken maxRowid ((archive.files env).map (ArchivedFile.canonicalId env)) :=
  have ⟨_, hr⟩ := recovered h
  have ⟨_, _, ha⟩ := hn
  hr.logged.noneTaken archive.nodup_files (hr.keys ▸ ha)

theorem noMessageLost_of_noneTaken {archive : Archive} {db : State}
    (h : reconstructFromArchive env archive = .ok db)
    (hn : RowIds.NoneTaken maxRowid ((archive.files env).map (ArchivedFile.canonicalId env))) :
    NoMessageLost env archive db := by
  have ⟨log, hr⟩ := recovered h
  have : Nonempty ArchivedFile := ⟨⟨[], none, [], [], [], .nil⟩, [], [], [], none⟩
  have ⟨source, hs⟩ := hr.logged.exists_source
  refine ⟨source, fun row hrow => ?_, ?_⟩
  · have hm : row.id ∈ log.map Prod.snd := hr.keys ▸ List.mem_map.mpr ⟨row, hrow, rfl⟩
    have ⟨⟨file, i⟩, hf, (hi : i = row.id)⟩ := List.mem_map.mp hm
    subst hi
    exact hs _ hf ▸ hr.carries row hrow file hf
  · rw [hr.keys]
    exact hr.logged.attributed (by simp [maxRowid]) (fun _ _ _ => ArchivedFile.canonicalId_le) hn hs

theorem reconstructFromArchive_noMessageLost_iff {archive : Archive} {db : State}
    (h : reconstructFromArchive env archive = .ok db) :
    NoMessageLost env archive db ↔
      RowIds.NoneTaken maxRowid ((archive.files env).map (ArchivedFile.canonicalId env)) :=
  ⟨NoMessageLost.noneTaken h, noMessageLost_of_noneTaken h⟩

section

-- A parser for two kinds of frontmatter.
def idSerde : Archive.Serde Json where
  null             := .null
  isObject _       := true
  toStringPretty _ := []
  fromStr s        :=
    if s = "\x7b\x7d\n".toList then some (.object [])
    else if s = "\x7b\"id\":1\x7d\n".toList then some (.object [("id".toList, .number (.posInt 1))])
    else none

def idEnv : Env where
  serde         := idSerde
  toString _    := []
  isoToMicros _ := none
  nowMicros     := 0

def fileWithoutId (name : String) : MessageFile :=
  ⟨"2026".toList, "01".toList, name.toList, some "---json\n\x7b\x7d\n---\nHi".toList⟩

def fileWithId (name : String) : MessageFile :=
  ⟨"2026".toList, "01".toList, name.toList, some "---json\n\x7b\"id\":1\x7d\n---\nHo".toList⟩

-- The file without an id is visited last.
def idFirst : Archive where
  projects := [⟨['p'], none, [], [], [fileWithoutId "b.md", fileWithId "a.md"], by decide⟩]
  nodup    := by decide

-- The file without an id is visited first.
def idLast : Archive where
  projects := [⟨['p'], none, [], [], [fileWithoutId "a.md", fileWithId "b.md"], by decide⟩]
  nodup    := by decide

theorem messageOf_fileWithoutId {name : String} :
    messageOf idEnv (fileWithoutId name) = some (.object [], "Hi".toList) := by
  unfold messageOf Archive.parseArchivedMessage Archive.extractJsonFrontmatter
    Archive.extractBodyAfterFrontmatter Archive.frontmatterBounds Archive.searchMarker
  rfl

theorem messageOf_fileWithId {name : String} : messageOf idEnv (fileWithId name) =
    some (.object [("id".toList, .number (.posInt 1))], "Ho".toList) := by
  unfold messageOf Archive.parseArchivedMessage Archive.extractJsonFrontmatter
    Archive.extractBodyAfterFrontmatter Archive.frontmatterBounds Archive.searchMarker
  rfl

theorem canonicalIds {archive : Archive} {dir : ProjectDir} {f g : MessageFile}
    (hp : archive.projectDirs = [dir]) (hm : dir.messageFiles = [f, g])
    (hf : (messageOf idEnv f).isSome) (hg : (messageOf idEnv g).isSome) :
    (archive.files idEnv).map (ArchivedFile.canonicalId idEnv) =
      [(messageOf idEnv f).bind (canonicalId ·.fst),
        (messageOf idEnv g).bind (canonicalId ·.fst)] := by
  simp [Archive.files, ProjectDir.files, ArchivedFile.canonicalId, hp, hm, hf, hg]

theorem reconstructFromArchive_noMessageLost_iff_idFirst :
    ∃ db, reconstructFromArchive idEnv idFirst = .ok db ∧ NoMessageLost idEnv idFirst db := by
  have ⟨db, h⟩ := @reconstructFromArchive_ok idEnv idFirst (by simp [idFirst])
  refine ⟨db, h, (reconstructFromArchive_noMessageLost_iff h).mpr ?_⟩
  rw [canonicalIds (f := fileWithId "a.md") (g := fileWithoutId "b.md") rfl rfl
    (by rw [messageOf_fileWithId]; rfl) (by rw [messageOf_fileWithoutId]; rfl),
    messageOf_fileWithId, messageOf_fileWithoutId]
  change RowIds.NoneTaken maxRowid [some 1, none]
  intro before after he
  match before with
  | []          => cases he
  | [_]         =>
    cases he
    exact ⟨by decide, nofun⟩
  | _ :: _ :: _ =>
    have := congrArg List.length he
    simp at this

theorem not_noMessageLost_idLast :
    ∃ db, reconstructFromArchive idEnv idLast = .ok db ∧ ¬NoMessageLost idEnv idLast db := by
  have ⟨db, h⟩ := @reconstructFromArchive_ok idEnv idLast (by simp [idLast])
  refine ⟨db, h, fun hl => ?_⟩
  have hn := hl.noneTaken h
  rw [canonicalIds (f := fileWithoutId "a.md") (g := fileWithId "b.md") rfl rfl
    (by rw [messageOf_fileWithoutId]; rfl) (by rw [messageOf_fileWithId]; rfl),
    messageOf_fileWithId, messageOf_fileWithoutId] at hn
  have ⟨_, hn⟩ := hn [] [some 1] rfl
  exact hn (by decide)

end

end Reconstruct
