import AgentMail.Reservation.ChunkedRelease
import AgentMail.Reservation.Theorems.Release

open Pattern

namespace Reservation

variable {pf : Platform} {p q : FileReservationRow → Bool} {db db' db'' : Db}
  {row : FileReservationRow} {rows rows' : List FileReservationRow} {id ts : Int}

section Exact

theorem mem_activeWhere : row ∈ db.activeWhere pf p ↔
    db.reservations.get? row.id = some row ∧ db.isActive pf row ∧ p row := by
  simp only [Db.activeWhere, List.mem_filter, Bool.and_eq_true, Table.get?_eq_some_iff, and_true]

theorem mem_activeWhere_or : (row ∈ db.activeWhere pf fun row => p row || q row) ↔
    row ∈ db.activeWhere pf p ∨ row ∈ db.activeWhere pf q := by
  simp only [mem_activeWhere, Bool.or_eq_true]
  tauto

theorem nodup_activeWhere : ((db.activeWhere pf p).map FileReservationRow.id).Nodup :=
  db.reservations.nodup.sublist (List.filter_sublist.map _)

theorem isActive_of_releases (h : db'.releases.get? row.id = db.releases.get? row.id) :
    db'.isActive pf row = db.isActive pf row := by
  simp only [Db.isActive, h]

namespace ReleasesExactly

theorem refl_of_eq_nil (h : db.activeWhere pf p = []) : ReleasesExactly pf p db db [] where
  returned := by rw [h]
  released := nofun
  recorded := nofun
  frame    := fun _ _ => ⟨rfl, rfl⟩

-- What is active afterwards has not been released.
theorem mem_activeWhere_iff (h : ReleasesExactly pf p db db' rows) :
    row ∈ db'.activeWhere pf q ↔ row ∈ db.activeWhere pf q ∧
      row.id ∉ rows.map FileReservationRow.id := by
  rw [mem_activeWhere, mem_activeWhere]
  by_cases hm : row.id ∈ rows.map FileReservationRow.id
  case neg =>
    have ⟨hr, hl⟩ := h.frame row.id hm
    rw [hr, isActive_of_releases hl]
    exact (and_iff_left hm).symm
  case pos =>
    refine iff_of_false (fun ⟨hg, ha, _⟩ => ?_) fun ⟨_, hn⟩ => hn hm
    have ⟨r, hr, hid⟩ := List.mem_map.mp hm
    have ⟨hr, hi⟩ := h.recorded r hr
    have he := Table.get?_key hr
    rw [hid, hg] at he
    cases he
    simp [ha] at hi

theorem nodup_ids (h : ReleasesExactly pf p db db' rows) : (rows.map FileReservationRow.id).Nodup :=
  h.returned.nodup_iff.mpr nodup_activeWhere

theorem mem_ids_iff (h : ReleasesExactly pf p db db' rows) :
    id ∈ rows.map FileReservationRow.id ↔ ∃ row ∈ db.activeWhere pf p, row.id = id := by
  rw [h.returned.mem_iff, List.mem_map]

theorem trans (h : ReleasesExactly pf p db db' rows) (h' : ReleasesExactly pf q db' db'' rows') :
    ReleasesExactly pf (fun row => p row || q row) db db'' (rows ++ rows') := by
  have hd {id : Int} (hid : id ∈ rows'.map FileReservationRow.id) :
      id ∉ rows.map FileReservationRow.id := by
    have ⟨row, hr, he⟩ := h'.mem_ids_iff.mp hid
    exact he ▸ (h.mem_activeWhere_iff.mp hr).right
  have hp {row : FileReservationRow} (hr : row ∈ db.activeWhere pf p) :
      row ∈ db.activeWhere pf fun row => p row || q row :=
    mem_activeWhere_or.mpr (.inl hr)
  have hq {row : FileReservationRow} (hr : row ∈ db'.activeWhere pf q) :
      row ∈ db.activeWhere pf fun row => p row || q row :=
    mem_activeWhere_or.mpr (.inr (h.mem_activeWhere_iff.mp hr).left)
  constructor
  case returned =>
    have hn : ((rows ++ rows').map FileReservationRow.id).Nodup := by
      rw [List.map_append]
      exact h.nodup_ids.append h'.nodup_ids fun id hid hid' => hd hid' hid
    refine (List.perm_ext_iff_of_nodup hn nodup_activeWhere).mpr fun id => ?_
    rw [List.map_append, List.mem_append, h.mem_ids_iff, h'.mem_ids_iff, List.mem_map]
    constructor
    case mp =>
      intro hid
      obtain ⟨row, hr, he⟩ | ⟨row, hr, he⟩ := hid
      · exact ⟨row, hp hr, he⟩
      · exact ⟨row, hq hr, he⟩
    case mpr =>
      intro ⟨row, hr, he⟩
      by_cases hm : row.id ∈ rows.map FileReservationRow.id
      case pos => exact .inl (h.mem_ids_iff.mp (he ▸ hm))
      case neg =>
        obtain hr | hr := mem_activeWhere_or.mp hr
        · exact absurd (h.mem_ids_iff.mpr ⟨row, hr, rfl⟩) hm
        · exact .inr ⟨row, h.mem_activeWhere_iff.mpr ⟨hr, hm⟩, he⟩
  case released =>
    intro row hr
    obtain hr | hr := List.mem_append.mp hr
    · have ⟨row', hr', he⟩ := h.released row hr
      exact ⟨row', hp hr', he⟩
    · have ⟨row', hr', he⟩ := h'.released row hr
      exact ⟨row', hq hr', he⟩
  case recorded =>
    intro row hr
    obtain hr | hr := List.mem_append.mp hr
    case inr => exact h'.recorded row hr
    case inl =>
      have ⟨hm, hi⟩ := h.recorded row hr
      have ⟨hg, hl⟩ := h'.frame row.id fun hid => hd hid (List.mem_map_of_mem hr)
      rw [Table.get?_key hm] at hg
      exact ⟨(Table.get?_eq_some_iff.mp hg).left, (isActive_of_releases hl).trans hi⟩
  case frame =>
    intro id hid
    rw [List.map_append, List.mem_append, not_or] at hid
    have ⟨hr, hl⟩ := h.frame id hid.left
    have ⟨hr', hl'⟩ := h'.frame id hid.right
    exact ⟨hr'.trans hr, hl'.trans hl⟩

theorem congr (h : ReleasesExactly pf p db db' rows) (hp : ∀ row, p row = q row) :
    ReleasesExactly pf q db db' rows :=
  (funext hp : p = q) ▸ h

end ReleasesExactly

end Exact

section Unchunked

theorem hasActive_congr (hr : db'.reservations.get? id = db.reservations.get? id)
    (hl : db'.releases.get? id = db.releases.get? id) :
    db'.hasActive pf id = db.hasActive pf id := by
  rw [Db.hasActive_eq, Db.hasActive_eq, hr]
  cases hg : db.reservations.get? id
  case none => rfl
  case some row =>
    have hid := (Table.get?_eq_some_iff.mp hg).right
    exact isActive_of_releases (hid ▸ hl)

theorem ReleasesExactly.mem_transitions_iff (h : ReleasesExactly pf p db db' rows) :
    id ∈ db.transitions pf db' ↔ id ∈ rows.map FileReservationRow.id := by
  rw [mem_transitions]
  constructor
  case mp =>
    intro ⟨ha, hi⟩
    by_contra hid
    have ⟨hr, hl⟩ := h.frame id hid
    simp [hasActive_congr hr hl, ha] at hi
  case mpr =>
    intro hid
    have ⟨row, hr, he⟩ := h.mem_ids_iff.mp hid
    have ⟨hg, ha, _⟩ := mem_activeWhere.mp hr
    have ⟨row', hr', he'⟩ := List.mem_map.mp hid
    have ⟨hm, hi⟩ := h.recorded row' hr'
    constructor
    · rw [← he, Db.hasActive_eq, hg]
      exact ha
    · rw [← he', Db.hasActive_eq, Table.get?_key hm]
      exact hi

theorem isEligible_any : isEligible pf .any db id = db.hasActive pf id := by
  simp [isEligible, Db.hasActive, ExpiryConstraint.allows]

theorem get?_release_self :
    (db.release id ts).reservations.get? id =
      (db.reservations.get? id).map fun row => { row with releasedTs := .integer ts } := by
  rw [Db.reservations_release, Db.setReleased, Db.get?_updateRow]
  cases hg : db.reservations.get? id
  case none     => rfl
  case some row => exact congrArg some (if_pos (Table.get?_eq_some_iff.mp hg).right)

-- A marker has the time that the row is given.
structure Marks (pf : Platform) (db db' : Db) (marker : ReleasedReservationMarker) : Prop where
  row      : db'.reservations.get? marker.id =
    (db.reservations.get? marker.id).map fun row =>
      { row with releasedTs := .integer marker.releasedTs }
  inactive : db'.hasActive pf marker.id = false

theorem releaseByIds_marks {ids : List Int} (hn : ids.Nodup) (ha : ∀ id ∈ ids, db.hasActive pf id) :
    let r := releaseByIds pf .any ids ts db
    r.snd.map ReleasedReservationMarker.id = ids ∧ (∀ marker ∈ r.snd, Marks pf db r.fst marker) ∧
      ∀ id ∉ ids, r.fst.reservations.get? id = db.reservations.get? id ∧
        r.fst.releases.get? id = db.releases.get? id := by
  induction ids generalizing db ts
  case nil => exact ⟨rfl, nofun, fun _ _ => ⟨rfl, rfl⟩⟩
  case cons i ids hi =>
    obtain ⟨hin, hn⟩ := List.nodup_cons.mp hn
    have hne {id : Int} (hid : id ∈ ids) : id ≠ i := fun he => hin (he ▸ hid)
    have ha' : ∀ id ∈ ids, (db.release i ts).hasActive pf id := fun id hid => by
      rw [Db.hasActive_release (hne hid)]
      exact ha id (List.mem_cons_of_mem _ hid)
    obtain ⟨hm, hk, hf⟩ := @hi _ (saturatingAdd ts 1) hn ha'
    have he : isEligible pf .any db i := isEligible_any ▸ ha i List.mem_cons_self
    simp only [releaseByIds, he, if_true]
    refine ⟨congrArg (i :: ·) hm, fun marker hmem => ?_, fun id hid => ?_⟩
    · obtain rfl | hmem := List.mem_cons.mp hmem
      · obtain ⟨hr, hl⟩ := hf i hin
        exact ⟨hr.trans get?_release_self, (hasActive_congr hr hl).trans Db.not_hasActive_release⟩
      · obtain ⟨hr, ha⟩ := hk marker hmem
        rw [Db.get?_release (hne (hm ▸ List.mem_map_of_mem hmem))] at hr
        exact ⟨hr, ha⟩
    · obtain ⟨hii, hid⟩ := not_or.mp (mt List.mem_cons.mpr hid)
      obtain ⟨hr, hl⟩ := hf id hid
      exact ⟨hr.trans (Db.get?_release hii), hl.trans (Db.releases_release hii)⟩

theorem mem_applyReleaseMarkers {markers : List ReleasedReservationMarker}
    (h : row ∈ applyReleaseMarkers rows markers) : ∃ row' ∈ rows, ∃ marker ∈ markers,
      marker.id = row'.id ∧ row = { row' with releasedTs := .integer marker.releasedTs } := by
  have ⟨row', hr, he⟩ := List.mem_filterMap.mp h
  have ⟨marker, hf, he⟩ := Option.map_eq_some_iff.mp he
  exact ⟨row', hr, marker, List.mem_reverse.mp (List.mem_of_find?_eq_some hf),
    by simpa using List.find?_some hf, he.symm⟩

theorem ids_applyReleaseMarkers {markers : List ReleasedReservationMarker}
    (h : ∀ row ∈ rows, row.id ∈ markers.map ReleasedReservationMarker.id) :
    (applyReleaseMarkers rows markers).map FileReservationRow.id =
      rows.map FileReservationRow.id := by
  induction rows
  case nil => rfl
  case cons row rows hi =>
    have hi := hi fun row hr => h row (List.mem_cons_of_mem _ hr)
    have ⟨marker, hm, he⟩ := List.mem_map.mp (h row List.mem_cons_self)
    have hf : (markers.reverse.find? (·.id = row.id)).isSome := by
      simpa using ⟨marker, hm, he⟩
    have ⟨marker, hf⟩ := Option.isSome_iff_exists.mp hf
    unfold applyReleaseMarkers at hi ⊢
    rw [List.filterMap_cons, hf]
    exact congrArg (row.id :: ·) hi

theorem releasable_eq {projectId agentId : Int} {filter : Filter} :
    releasable pf projectId agentId filter db =
      db.activeWhere pf (owned projectId agentId filter) := by
  refine List.filter_congr fun row _ => ?_
  simp only [owned]
  cases db.isActive pf row <;> simp

theorem releases_selected {markers : List ReleasedReservationMarker}
    (h : releaseByIds pf .any ((db.activeWhere pf p).map FileReservationRow.id) ts db =
      (db', markers)) :
    ReleasesExactly pf p db db' (applyReleaseMarkers (db.activeWhere pf p) markers) := by
  have ha : ∀ id ∈ (db.activeWhere pf p).map FileReservationRow.id, db.hasActive pf id := by
    intro id hid
    have ⟨row, hr, he⟩ := List.mem_map.mp hid
    have ⟨hg, ha, _⟩ := mem_activeWhere.mp hr
    rw [← he, Db.hasActive_eq, hg]
    exact ha
  have ⟨hm, hk, hf⟩ := @releaseByIds_marks pf db ts _ nodup_activeWhere ha
  rw [h] at hm hk hf
  have hids : (applyReleaseMarkers (db.activeWhere pf p) markers).map FileReservationRow.id =
      (db.activeWhere pf p).map FileReservationRow.id :=
    ids_applyReleaseMarkers fun row hr => hm ▸ List.mem_map_of_mem hr
  constructor
  case returned => exact .of_eq hids
  case released =>
    intro row hr
    have ⟨row', hr', marker, _, _, he⟩ := mem_applyReleaseMarkers hr
    exact ⟨row', hr', marker.releasedTs, he⟩
  case recorded =>
    intro row hr
    have ⟨row', hr', marker, hmm, hid, he⟩ := mem_applyReleaseMarkers hr
    have ⟨hg, hi⟩ := hk marker hmm
    rw [hid, (mem_activeWhere.mp hr').left, Option.map_some, ← he] at hg
    rw [hid, Db.hasActive_eq, hg] at hi
    exact ⟨(Table.get?_eq_some_iff.mp hg).left, hi⟩
  case frame => exact fun id hid => hf id (hids ▸ hid)

end Unchunked

section Session

variable {s s' s'' : Session} {projectId agentId : Int} {filter : Filter}
  {target : ReleaseReservationChunkTarget} {size : Nat} {statement : Statement} {ids : List Int}

-- The statements that are issued in between are small enough.
def Issues (s s' : Session) : Prop :=
  ∃ statements, s'.issued = s.issued ++ statements ∧
    ∀ statement ∈ statements, statement.params.length ≤ sqliteMaxBindParams

theorem Issues.of_eq (h : s'.issued = s.issued) : Issues s s' :=
  ⟨[], h.trans (List.append_nil _).symm, nofun⟩

theorem Issues.trans (h : Issues s s') (h' : Issues s' s'') : Issues s s'' := by
  have ⟨statements, he, hs⟩ := h
  have ⟨statements', he', hs'⟩ := h'
  refine ⟨statements ++ statements', by rw [he', he, List.append_assoc], fun statement hm => ?_⟩
  exact (List.mem_append.mp hm).elim (hs statement) (hs' statement)

theorem issues_issue (h : statement.params.length ≤ sqliteMaxBindParams) (s : Session) :
    Issues s (s.issue statement) :=
  ⟨[statement], rfl, fun _ hm => List.mem_singleton.mp hm ▸ h⟩

def Statement.isSelect : Statement → Bool
  | select .. => true
  | _         => false

-- Only the filters of a selection bind more than two values.
theorem length_params_le (h : statement.isSelect = false) :
    statement.params.length ≤ sqliteMaxBindParams := by
  cases statement
  case select => cases h
  all_goals exact Nat.le_of_ble_eq_true rfl

theorem releaseEach_spec : Issues s (releaseEach pf ids ts s).fst ∧
    ((releaseEach pf ids ts s).fst.db, (releaseEach pf ids ts s).snd) =
      releaseByIds pf .any ids ts s.db := by
  induction ids generalizing ts s
  case nil => exact ⟨.of_eq rfl, rfl⟩
  case cons id ids hi =>
    let checked := s.issue (.check id)
    have hc : Issues s checked := issues_issue (length_params_le rfl) s
    cases he : isEligible pf .any s.db id
    case false =>
      obtain ⟨hi, hr⟩ := @hi ts checked
      simp only [releaseEach, releaseByIds, he, Bool.false_eq_true, if_false]
      exact ⟨hc.trans hi, hr⟩
    case true =>
      let updated := checked.issue (.update ts id)
      let inserted := updated.issue (.insert id ts)
      have hu : Issues checked updated := issues_issue (length_params_le rfl) checked
      have hn : Issues updated inserted := issues_issue (length_params_le rfl) updated
      obtain ⟨hi, hr⟩ := @hi (saturatingAdd ts 1) { inserted with db := s.db.release id ts }
      simp only [releaseEach, releaseByIds, he, if_true]
      exact ⟨((hc.trans hu).trans hn).trans (.trans (.of_eq rfl) hi),
        congrArg (fun r => (r.fst, ⟨id, ts⟩ :: r.snd)) hr⟩

theorem items_le_of_chunkPlan (h : filter.chunkPlan = none) :
    filter.items ≤ maxReleaseReservationChunkItems + maxReleaseReservationChunkItems := by
  simp only [Filter.chunkPlan, releaseReservationChunkPlan] at h
  split at h
  case h_1 hi hp =>
    have hi := of_decide_eq_false hi
    have hp := of_decide_eq_false hp
    simp only [Filter.items, gt_iff_lt, not_lt, Nat.le_min] at hi hp ⊢
    exact Nat.add_le_add hp.left hi.left
  case h_4 => split at h <;> cases h
  all_goals cases h

theorem length_params (filter : Filter) : filter.params.length = filter.items := by
  have ⟨paths, ids⟩ := filter
  simp only [Filter.params, Filter.items, List.length_append, List.length_map]
  cases paths <;> cases ids <;> simp [Nat.add_comm]

theorem releaseReservationsByIds_spec (h : ids ≠ []) :
    let r := releaseReservationsByIds pf ids s
    Issues s r.fst ∧ (r.fst.db, r.snd) = releaseByIds pf .any ids (s.clock s.reads) s.db := by
  let begun := s.issue .begin
  let opened := (begun.issue .createTable).nowMicros.fst
  have hb : Issues s begun := issues_issue (length_params_le rfl) s
  have ho : Issues begun opened := issues_issue (length_params_le rfl) begun
  have ⟨hi, hr⟩ := @releaseEach_spec pf (s.clock s.reads) opened ids
  rw [releaseReservationsByIds, if_neg (by simpa using h)]
  exact ⟨((hb.trans ho).trans hi).trans (issues_issue (length_params_le rfl) _), hr⟩

-- The session once the rows are selected.
def Session.selected (projectId agentId : Int) (filter : Filter) (s : Session) : Session :=
  ((s.issue .begin).issue (.select projectId agentId filter)).issue .commit

theorem releaseUnchunked_of_eq_nil (h : s.db.activeWhere pf (owned projectId agentId filter) = []) :
    releaseUnchunked pf projectId agentId filter s = (s.selected projectId agentId filter, []) := by
  simp only [releaseUnchunked, releasable_eq]
  exact if_pos (List.isEmpty_iff.mpr h)

theorem releaseUnchunked_of_ne_nil (h : s.db.activeWhere pf (owned projectId agentId filter) ≠ []) :
    let reservations := s.db.activeWhere pf (owned projectId agentId filter)
    let r := releaseReservationsByIds pf (reservations.map FileReservationRow.id)
      (s.selected projectId agentId filter)
    releaseUnchunked pf projectId agentId filter s =
      (r.fst, applyReleaseMarkers reservations r.snd) := by
  simp only [releaseUnchunked, releasable_eq]
  exact if_neg (mt List.isEmpty_iff.mp h)

theorem releaseUnchunked_exact : ReleasesExactly pf (owned projectId agentId filter) s.db
    (releaseUnchunked pf projectId agentId filter s).fst.db
      (releaseUnchunked pf projectId agentId filter s).snd := by
  by_cases h : s.db.activeWhere pf (owned projectId agentId filter) = []
  case pos =>
    rw [releaseUnchunked_of_eq_nil h]
    exact .refl_of_eq_nil h
  case neg =>
    have hne : (s.db.activeWhere pf (owned projectId agentId filter)).map FileReservationRow.id ≠
        [] :=
      mt List.map_eq_nil_iff.mp h
    have hr := (@releaseReservationsByIds_spec pf (s.selected projectId agentId filter) _ hne).right
    rw [releaseUnchunked_of_ne_nil h]
    exact releases_selected hr.symm

theorem releaseUnchunked_issues (h : filter.chunkPlan = none) :
    Issues s (releaseUnchunked pf projectId agentId filter s).fst := by
  have hl : (Statement.select projectId agentId filter).params.length ≤ sqliteMaxBindParams := by
    have := items_le_of_chunkPlan h
    simp only [Statement.params, List.length_append, length_params, List.length_cons,
      List.length_nil, maxReleaseReservationChunkItems, sqliteMaxBindParams] at this ⊢
    omega
  have hs : Issues s (s.selected projectId agentId filter) :=
    ((issues_issue (length_params_le rfl) s).trans (issues_issue hl _)).trans
      (issues_issue (length_params_le rfl) _)
  by_cases hn : s.db.activeWhere pf (owned projectId agentId filter) = []
  case pos => exact releaseUnchunked_of_eq_nil hn ▸ hs
  case neg =>
    rw [releaseUnchunked_of_ne_nil hn]
    exact hs.trans (releaseReservationsByIds_spec (mt List.map_eq_nil_iff.mp hn)).left

-- What a release makes of a session, and what it returns.
structure Released (pf : Platform) (p : FileReservationRow → Bool) (s : Session)
    (r : Session × List FileReservationRow) : Prop where
  exact  : ReleasesExactly pf p s.db r.fst.db r.snd
  issues : Issues s r.fst

theorem any_chunks {α : Type} [BEq α] [LawfulBEq α] (h : 0 < size) (l : List α) (a : α)
    (b c : Bool) :
    ((chunks size l).any fun chunk => b && (decide (a ∈ chunk) && c)) =
      (b && (decide (a ∈ l) && c)) := by
  have hm : (chunks size l).any (a ∈ ·) = decide (a ∈ l) := by
    rw [Bool.eq_iff_iff, List.any_eq_true, decide_eq_true_eq, mem_iff_exists_chunk h]
    simp
  rw [← hm]
  cases b <;> cases c <;> simp

-- The chunks of a list accept what the list accepts.
theorem any_owned_split (h : filter.chunkPlan = some (target, size)) (row : FileReservationRow) :
    (filter.split size target).any (owned projectId agentId · row) =
      owned projectId agentId filter row := by
  obtain ⟨hs, hl⟩ := length_of_chunkPlan h
  cases target
  case reservationIds =>
    obtain ⟨ids, he, _⟩ := hl
    simp only [Filter.split, he, Option.elim_some, List.any_map, Function.comp_def,
      owned, Filter.accepts, Option.all_some]
    exact any_chunks hs ids row.id _ _
  case paths =>
    obtain ⟨paths, he, _⟩ := hl
    simp only [Filter.split, he, Option.elim_some, List.any_map, Function.comp_def,
      owned, Filter.accepts, Option.all_some, Bool.and_comm (filter.ids.all _)]
    exact any_chunks hs paths row.pathPattern _ _

def releaseChunk (pf : Platform) (projectId agentId : Int) (acc : Session × List FileReservationRow)
    (chunk : Filter) : Session × List FileReservationRow :=
  let (s, rows) := releaseReservations pf projectId agentId chunk acc.fst
  (s, acc.snd ++ rows)

theorem releaseReservations_of_none (h : filter.chunkPlan = none) :
    releaseReservations pf projectId agentId filter s =
      releaseUnchunked pf projectId agentId filter s := by
  rw [releaseReservations]
  split
  case h_1        => rfl
  case h_2 _ _ he => cases h.symm.trans he

theorem releaseReservations_of_some (h : filter.chunkPlan = some (target, size)) :
    releaseReservations pf projectId agentId filter s =
      (filter.split size target).foldl (releaseChunk pf projectId agentId) (s, []) := by
  rw [releaseReservations]
  split
  case h_1 he     => cases h.symm.trans he
  case h_2 _ _ he =>
    cases h.symm.trans he
    exact List.foldl_attach (f := releaseChunk pf projectId agentId)

variable {filters : List Filter}

theorem foldl_releaseChunk
    (h : ∀ chunk ∈ filters, ∀ s, Released pf (owned projectId agentId chunk) s
      (releaseReservations pf projectId agentId chunk s)) :
    ∃ r, filters.foldl (releaseChunk pf projectId agentId) (s, rows) = (r.fst, rows ++ r.snd) ∧
      Released pf (fun row => filters.any (owned projectId agentId · row)) s r := by
  induction filters generalizing s rows
  case nil =>
    have hn : s.db.activeWhere pf (fun _ => false) = [] := by simp [Db.activeWhere]
    exact ⟨(s, []), by rw [List.append_nil]; rfl, .refl_of_eq_nil hn, .of_eq rfl⟩
  case cons chunk filters hi =>
    have ⟨he, hs⟩ := h chunk List.mem_cons_self s
    generalize hc : releaseReservations pf projectId agentId chunk s = c at he hs
    have ⟨r, hr, he', hs'⟩ := @hi (rows ++ c.snd) c.fst fun chunk hm =>
      h chunk (List.mem_cons_of_mem _ hm)
    refine ⟨(r.fst, c.snd ++ r.snd), ?_, he.trans he', hs.trans hs'⟩
    rw [List.foldl_cons, releaseChunk, hc, hr, List.append_assoc]

theorem releaseReservations_released :
    Released pf (owned projectId agentId filter) s
      (releaseReservations pf projectId agentId filter s) := by
  generalize hn : filter.items = n
  induction n using Nat.strong_induction_on generalizing filter s
  case h n hi =>
    cases hp : filter.chunkPlan
    case none =>
      rw [releaseReservations_of_none hp]
      exact ⟨releaseUnchunked_exact, releaseUnchunked_issues hp⟩
    case some plan =>
      have ⟨target, size⟩ := plan
      have ⟨r, hr, he, hs⟩ :=
        @foldl_releaseChunk pf [] s projectId agentId (filter.split size target)
        fun chunk hc s => hi chunk.items (hn ▸ items_lt_of_mem_split hp hc) rfl
      rw [releaseReservations_of_some hp, hr, List.nil_append]
      exact ⟨he.congr (any_owned_split hp), hs⟩

end Session

-- Chunked or not, the same reservations are released, and each of them is returned once.
theorem releaseReservations_exact (pf : Platform) (projectId agentId : Int) (filter : Filter)
    (s : Session) : let r := releaseReservations pf projectId agentId filter s
    let unchunked := releaseUnchunked pf projectId agentId filter s
    ReleasesExactly pf (owned projectId agentId filter) s.db r.fst.db r.snd ∧
    ReleasesExactly pf (owned projectId agentId filter) s.db unchunked.fst.db unchunked.snd ∧
    (∀ id, id ∈ s.db.transitions pf r.fst.db ↔ id ∈ r.snd.map FileReservationRow.id) ∧
    ∃ statements, r.fst.issued = s.issued ++ statements ∧
      ∀ statement ∈ statements, statement.params.length ≤ sqliteMaxBindParams :=
  ⟨releaseReservations_released.exact, releaseUnchunked_exact,
    fun _ => releaseReservations_released.exact.mem_transitions_iff,
    releaseReservations_released.issues⟩

end Reservation
