import AgentMail.Reservation.System

open Pattern

namespace Reservation

variable {pf : Platform} {db db' db'' : Db} {row : FileReservationRow} {id i ts : Int}

namespace Db

theorem hasActive_eq : db.hasActive pf id = (db.reservations.get? id).any (db.isActive pf) := by
  rw [Bool.eq_iff_iff, hasActive, List.any_eq_true, Option.any_eq_true]
  simp only [Table.get?_eq_some_iff, Bool.and_eq_true, decide_eq_true_eq, and_assoc]

theorem get?_updateRow {f : FileReservationRow → FileReservationRow}
    (hf : ∀ row, (f row).id = row.id) : (db.updateRow i f hf).reservations.get? id =
      (db.reservations.get? id).map fun row => if row.id = i then f row else row := by
  simp [updateRow, Table.get?_update]

def IsReleased (pf : Platform) (db : Db) (id : Int) : Prop :=
  ∃ row, db.reservations.get? id = some row ∧ db.isActive pf row = false

-- The release times of an id in both tables.
def recorded (db : Db) (id : Int) : Option SqlValue × Option Int :=
  ((db.reservations.get? id).map FileReservationRow.releasedTs, (db.releases.get? id).map Prod.snd)

-- No row gets lost, a release is not taken back, and its time does not change.
structure Keeps (pf : Platform) (db db' : Db) : Prop where
  rows     : ∀ {id}, (db.reservations.get? id).isSome → (db'.reservations.get? id).isSome
  released : ∀ {id}, db.IsReleased pf id → db'.IsReleased pf id ∧ db'.recorded id = db.recorded id

theorem Keeps.refl (db : Db) : db.Keeps pf db :=
  ⟨id, fun h => ⟨h, rfl⟩⟩

theorem Keeps.trans (h : db.Keeps pf db') (h' : db'.Keeps pf db'') : db.Keeps pf db'' := by
  refine ⟨fun hr => h'.rows (h.rows hr), fun hr => ?_⟩
  have ⟨hr', he⟩ := h.released hr
  have ⟨hr'', he'⟩ := h'.released hr'
  exact ⟨hr'', he'.trans he⟩

theorem isReleased_iff : db.IsReleased pf id ↔
    (db.reservations.get? id).isSome ∧ db.hasActive pf id = false := by
  rw [hasActive_eq, IsReleased]
  cases db.reservations.get? id <;> simp

theorem IsReleased.not_hasActive (h : db.IsReleased pf id) : db.hasActive pf id = false := by
  have ⟨row, hr, ha⟩ := h
  simp [hasActive_eq, hr, ha]

theorem keeps_insertRow (db : Db) (row : FileReservationRow) : db.Keeps pf (db.insertRow row) := by
  have hg {id : Int} {r : FileReservationRow} (hr : db.reservations.get? id = some r) :
      (db.insertRow row).reservations.get? id = some r := by
    have hid : db.nextId ≠ id := by
      rintro rfl
      simp [db.get?_nextId] at hr
    exact (Table.get?_insert db.get?_nextId).trans ((if_neg hid).trans hr)
  constructor
  case rows =>
    intro id hr
    obtain ⟨r, hr⟩ := Option.isSome_iff_exists.mp hr
    exact Option.isSome_iff_exists.mpr ⟨r, hg hr⟩
  case released =>
    rintro id ⟨r, hr, ha⟩
    exact ⟨⟨r, hg hr, ha⟩, by simp only [recorded, hg hr, hr]; rfl⟩

theorem isSome_updateRow {f : FileReservationRow → FileReservationRow}
    (hf : ∀ row, (f row).id = row.id) : ((db.updateRow i f hf).reservations.get? id).isSome =
      (db.reservations.get? id).isSome := by
  rw [get?_updateRow, Option.isSome_map]

theorem keeps_setExpires (db : Db) (i ts : Int) : db.Keeps pf (db.setExpires i ts) := by
  refine ⟨fun hr => by rwa [setExpires, isSome_updateRow], fun {id} ⟨r, hr, ha⟩ => ?_⟩
  let r' : FileReservationRow := if r.id = i then { r with expiresTs := ts } else r
  have hg : (db.setExpires i ts).reservations.get? id = some r' := by
    rw [setExpires, get?_updateRow, hr]
    rfl
  have hr' : r'.releasedTs = r.releasedTs ∧ r'.id = r.id := by
    simp only [r']
    split <;> exact ⟨rfl, rfl⟩
  have ha' : (db.setExpires i ts).isActive pf r' = db.isActive pf r := by
    simp only [isActive, hr'.left, hr'.right]
    rfl
  exact ⟨⟨r', hg, ha'.trans ha⟩, by simp only [recorded, hg, hr, Option.map_some, hr'.left]; rfl⟩

theorem reservations_release :
    (db.release i ts).reservations = (db.setReleased i ts).reservations :=
  rfl

theorem releases_release (h : id ≠ i) : (db.release i ts).releases.get? id = db.releases.get? id :=
  Table.get?_insertOrIgnore.trans (if_neg (Ne.symm h))

theorem get?_release (h : id ≠ i) :
    (db.release i ts).reservations.get? id = db.reservations.get? id := by
  rw [reservations_release, setReleased, get?_updateRow]
  cases hr : db.reservations.get? id
  case none => rfl
  case some row =>
    have := (Table.get?_eq_some_iff.mp hr).right
    simp [this, h]

theorem isActive_release (h : row.id ≠ i) :
    (db.release i ts).isActive pf row = db.isActive pf row := by
  simp only [isActive, releases_release h]

theorem hasActive_release (h : id ≠ i) :
    (db.release i ts).hasActive pf id = db.hasActive pf id := by
  rw [hasActive_eq, hasActive_eq, get?_release h]
  cases hr : db.reservations.get? id
  case none => rfl
  case some row =>
    have hi := (Table.get?_eq_some_iff.mp hr).right
    exact isActive_release (hi ▸ h)

-- The id is marked as released.
theorem not_hasActive_release : (db.release i ts).hasActive pf i = false := by
  rw [hasActive_eq, Option.any_eq_false]
  intro row hr
  have hi := (Table.get?_eq_some_iff.mp hr).right
  have hm : (db.release i ts).releases.get? i = some ((db.releases.get? i).getD (i, ts)) :=
    Table.get?_insertOrIgnore.trans (if_pos rfl)
  simp [isActive, hi, hm]

theorem keeps_release (h : db.hasActive pf i) : db.Keeps pf (db.release i ts) := by
  refine ⟨fun hr => ?_, fun {id} hr => ?_⟩
  · rwa [reservations_release, setReleased, isSome_updateRow]
  have hid : id ≠ i := by
    rintro rfl
    simp [hr.not_hasActive] at h
  have ⟨row, hg, ha⟩ := hr
  have hi := (Table.get?_eq_some_iff.mp hg).right
  refine ⟨⟨row, (get?_release hid).trans hg, (isActive_release (hi ▸ hid)).trans ha⟩, ?_⟩
  simp only [recorded, get?_release hid, releases_release hid]

theorem hasActive_of_release (h : (db.release i ts).hasActive pf id) : db.hasActive pf id ∧
    id ≠ i := by
  have hid : id ≠ i := by
    rintro rfl
    simp [not_hasActive_release] at h
  exact ⟨hasActive_release hid ▸ h, hid⟩

end Db

theorem hasActive_of_isEligible {c : ExpiryConstraint} (h : isEligible pf c db id) :
    db.hasActive pf id := by
  simp only [isEligible, Db.hasActive, List.any_eq_true, Bool.and_eq_true] at h ⊢
  have ⟨row, hr, ⟨hi, ha⟩, _⟩ := h
  exact ⟨row, hr, hi, ha⟩

-- A transaction reports the ids that it has released, each of them once.
structure Releases (pf : Platform) (db db' : Db) (ids : List Int) : Prop where
  keeps    : db.Keeps pf db'
  shrinks  : ∀ {id}, db'.hasActive pf id → db.hasActive pf id
  released : ∀ id ∈ ids, db.hasActive pf id ∧ db'.hasActive pf id = false
  nodup    : ids.Nodup

theorem releaseByIds_releases (pf : Platform) (c : ExpiryConstraint) (ids : List Int) (ts : Int)
    (db : Db) : Releases pf db (releaseByIds pf c ids ts db).1
      ((releaseByIds pf c ids ts db).2.map ReleasedReservationMarker.id) := by
  induction ids generalizing ts db
  case nil => exact ⟨.refl db, id, nofun, .nil⟩
  case cons i ids hi =>
    cases he : isEligible pf c db i
    case false => simpa [releaseByIds, he] using hi ts db
    case true =>
      have ha := hasActive_of_isEligible he
      have ⟨hk, hs, hr, hn⟩ := hi (saturatingAdd ts 1) (db.release i ts)
      have hr' : ∀ id ∈ (releaseByIds pf c ids (saturatingAdd ts 1) (db.release i ts)).2.map
          ReleasedReservationMarker.id, db.hasActive pf id ∧ id ≠ i :=
        fun id hid => Db.hasActive_of_release (hr id hid).left
      simp only [releaseByIds, he, if_true]
      refine ⟨(Db.keeps_release ha).trans hk, fun h => (Db.hasActive_of_release (hs h)).left, ?_,
        ?_⟩
      · intro id hid
        cases List.mem_cons.mp hid
        case inr hid => exact ⟨(hr' id hid).left, (hr id hid).right⟩
        case inl hid =>
          subst hid
          refine ⟨ha, ?_⟩
          by_contra h
          exact (Db.hasActive_of_release (hs (by simpa using h))).right rfl
      · exact List.nodup_cons.mpr ⟨fun h => (hr' i h).right rfl, hn⟩

theorem insertRows_keeps (now : Int) (req : CreateRequest) (paths : List Str) (db : Db) :
    db.Keeps pf (insertRows now req paths db).1 := by
  induction paths generalizing db
  case nil => exact .refl db
  case cons path paths hi => exact (db.keeps_insertRow _).trans (hi _)

theorem createFileReservations_keeps {now : Int} {req : CreateRequest}
    {r : Except Str (List FileReservationRow)}
    (h : createFileReservations pf now req db = some (db', r)) : db.Keeps pf db' := by
  have ⟨busy, _, h⟩ := Option.bind_eq_some_iff.mp h
  cases busy
  case some => cases h; exact .refl db
  case none => cases h; exact insertRows_keeps now req req.paths db

theorem renewReservations_keeps (now : Int) (req : RenewRequest) (db : Db) :
    db.Keeps pf (renewReservations pf now req db).1 := by
  have h (rows : List FileReservationRow) (db : Db) : db.Keeps pf
      (rows.foldl (fun db row => db.setExpires row.id (renewedExpiry now req row)) db) := by
    induction rows generalizing db
    case nil => exact .refl db
    case cons row rows hi => exact (db.keeps_setExpires _ _).trans (hi _)
  exact h _ db

theorem applyReleaseMarkers_ids (rows : List FileReservationRow)
    (markers : List ReleasedReservationMarker) :
    ((applyReleaseMarkers rows markers).map FileReservationRow.id).Sublist
      (rows.map FileReservationRow.id) ∧
    ∀ id ∈ (applyReleaseMarkers rows markers).map FileReservationRow.id,
      id ∈ markers.map ReleasedReservationMarker.id := by
  induction rows
  case nil => exact ⟨.slnil, nofun⟩
  case cons row rows hi =>
    have ⟨hs, hm⟩ := hi
    cases hf : markers.reverse.find? (·.id = row.id)
    case none =>
      have he : applyReleaseMarkers (row :: rows) markers = applyReleaseMarkers rows markers := by
        simp [applyReleaseMarkers, hf]
      exact he ▸ ⟨hs.cons _, hm⟩
    case some m =>
      have he : (applyReleaseMarkers (row :: rows) markers).map FileReservationRow.id =
          row.id :: (applyReleaseMarkers rows markers).map FileReservationRow.id := by
        simp [applyReleaseMarkers, hf]
      rw [he]
      refine ⟨hs.cons_cons _, fun id hid => ?_⟩
      cases List.mem_cons.mp hid
      case inr hid => exact hm id hid
      case inl hid =>
        have hmi := List.find?_some hf
        have hmm := List.mem_of_find?_eq_some hf
        exact List.mem_map.mpr ⟨m, List.mem_reverse.mp hmm, (of_decide_eq_true hmi).trans hid.symm⟩

-- What a call has released so far, and what it is about to release.

def Call.released : Call → List Int
  | release _ _ _ released    => released.map FileReservationRow.id
  | selected _ _ _ _ released => released.map FileReservationRow.id
  | _                         => []

def Call.targets : Call → List Int
  | selected _ _ reservations _ _ => reservations.map FileReservationRow.id
  | _                             => []

def Progress.released : Progress → List Int
  | next call     => call.released
  | done reported => reported

def Progress.targets : Progress → List Int
  | next call => call.targets
  | done _    => []

-- After a transaction, a call reports what it has released so far and what it has just released.
structure Advances (pf : Platform) (db db' : Db) (released : List Int) (progress : Progress) :
    Prop where
  keeps    : db.Keeps pf db'
  released : ∀ id ∈ progress.released,
    id ∈ released ∨ db.hasActive pf id ∧ db'.hasActive pf id = false
  nodup    : progress.released.Nodup
  targets  : progress.targets.Nodup

theorem Call.advance_spec {call : Call} {clock : Int} {progress : Progress}
    (h : call.advance pf clock db = some (db', progress)) (hn : call.released.Nodup)
    (ht : call.targets.Nodup) (hr : ∀ id ∈ call.released, db.IsReleased pf id) :
    Advances pf db db' call.released progress := by
  have hsub (p : FileReservationRow → Bool) :
      ((db.reservations.rows.filter p).map FileReservationRow.id).Nodup :=
    (List.filter_sublist.map _).nodup db.reservations.nodup
  cases call
  case create now req =>
    have ⟨⟨_, r⟩, hc, he⟩ := Option.map_eq_some_iff.mp h
    cases he
    exact ⟨createFileReservations_keeps hc, nofun, .nil, .nil⟩
  case renew now req =>
    cases h
    exact ⟨renewReservations_keeps now req db, nofun, .nil, .nil⟩
  case byIds ids c =>
    cases h
    have ⟨hk, _, hr, hn⟩ := releaseByIds_releases pf c ids clock db
    exact ⟨hk, fun id hid => .inr (hr id hid), hn, .nil⟩
  case expired now projectId =>
    cases h
    exact ⟨.refl db, nofun, .nil, .nil⟩
  case release projectId agentId todo released =>
    cases todo
    case nil =>
      cases h
      exact ⟨.refl db, fun id hid => .inl hid, hn, .nil⟩
    case cons filter todo =>
      simp only [advance] at h
      split at h
      case h_1 =>
        cases h
        exact ⟨.refl db, fun id hid => .inl hid, hn, .nil⟩
      case h_2 =>
        split at h <;> cases h
        case isTrue  => exact ⟨.refl db, fun id hid => .inl hid, hn, .nil⟩
        case isFalse => exact ⟨.refl db, fun id hid => .inl hid, hn, hsub _⟩
  case selected projectId agentId rows todo released =>
    cases h
    have ⟨hk, _, hrel, _⟩ :=
      releaseByIds_releases pf .any (rows.map FileReservationRow.id) clock db
    have ⟨hs, hm⟩ := applyReleaseMarkers_ids rows
      (Reservation.releaseByIds pf .any (rows.map FileReservationRow.id) clock db).2
    refine ⟨hk, ?_, ?_, .nil⟩
    · intro id hid
      simp only [Progress.released, Call.released, List.map_append, List.mem_append] at hid
      cases hid
      case inl hid => exact .inl hid
      case inr hid => exact .inr (hrel id (hm id hid))
    · simp only [Progress.released, Call.released, List.map_append]
      refine List.nodup_append.mpr ⟨hn, hs.nodup ht, fun id hid id' hid' he => ?_⟩
      have ha := (hrel id' (hm id' hid')).left
      rw [← he, (hr id hid).not_hasActive] at ha
      cases ha

theorem mem_transitions : id ∈ db.transitions pf db' ↔
    db.hasActive pf id ∧ db'.hasActive pf id = false := by
  simp only [Db.transitions, List.mem_filter, Bool.and_eq_true, Bool.not_eq_true',
    and_iff_right_iff_imp]
  intro ⟨ha, _⟩
  rw [Db.hasActive_eq] at ha
  have ⟨row, hr, _⟩ := (Option.any_eq_true _ _).mp ha
  have ⟨hm, hi⟩ := Table.get?_eq_some_iff.mp hr
  exact List.mem_map.mpr ⟨row, hm, hi⟩

namespace System

variable {s s' : System} {e : Event}

-- The logs are consistent: what was performed is released for good, so that it was performed once,
-- and a call only reports what it has performed, when it returns.
structure Logged (pf : Platform) (s : System) : Prop where
  performed       : ∀ x ∈ s.performed, s.db.IsReleased pf x.2
  performed_nodup : (s.performed.map Prod.snd).Nodup
  reported        : ∀ x ∈ s.reported, x ∈ s.performed
  reported_nodup  : (s.reported.map Prod.snd).Nodup
  returned        : ∀ x ∈ s.reported, x.1 < s.started ∧ s.calls x.1 = none
  fresh           : ∀ {c}, s.started ≤ c → s.calls c = none
  released        : ∀ {c call}, s.calls c = some call → ∀ id ∈ call.released, (c, id) ∈ s.performed
  released_nodup  : ∀ {c call}, s.calls c = some call → call.released.Nodup
  targets_nodup   : ∀ {c call}, s.calls c = some call → call.targets.Nodup

theorem init_logged (db : Db) (clock : Int) : (init db clock).Logged pf where
  performed       := nofun
  performed_nodup := .nil
  reported        := nofun
  reported_nodup  := .nil
  returned        := nofun
  fresh           := fun _ => rfl
  released        := nofun
  released_nodup  := nofun
  targets_nodup   := nofun

theorem Logged.tick (h : s.Logged pf) (clock : Int) : { s with clock }.Logged pf :=
  { h with }

theorem Logged.begin (h : s.Logged pf) (request : Request) : Logged pf { s with
    started := s.started + 1
    calls   := Function.update s.calls s.started (some (request.call s.clock)) } := by
  have hreq : (request.call s.clock).released = [] ∧ (request.call s.clock).targets = [] := by
    cases request <;> exact ⟨rfl, rfl⟩
  have hcall {c : Nat} {call : Call}
      (hc : Function.update s.calls s.started (some (request.call s.clock)) c = some call) :
      call.released = [] ∧ call.targets = [] ∨ s.calls c = some call := by
    by_cases he : c = s.started
    case pos =>
      rw [he, Function.update_self, Option.some_inj] at hc
      exact .inl (hc ▸ hreq)
    case neg => exact .inr ((Function.update_of_ne he _ _).symm.trans hc)
  refine { h with
    returned := ?_, fresh := ?_, released := ?_, released_nodup := ?_, targets_nodup := ?_ }
  · intro x hx
    have ⟨hlt, hn⟩ := h.returned x hx
    exact ⟨hlt.trans (Nat.lt_succ_self _), (Function.update_of_ne hlt.ne _ _).trans hn⟩
  · intro c hc
    have hlt : s.started < c := hc
    exact (Function.update_of_ne hlt.ne' _ _).trans (h.fresh hlt.le)
  · intro c call hc id hid
    cases hcall hc
    case inl hn => simp [hn.left] at hid
    case inr hc => exact h.released hc id hid
  · intro c call hc
    cases hcall hc
    case inl hn => exact hn.left ▸ .nil
    case inr hc => exact h.released_nodup hc
  · intro c call hc
    cases hcall hc
    case inl hn => exact hn.right ▸ .nil
    case inr hc => exact h.targets_nodup hc

theorem Logged.fail (h : s.Logged pf) (c : Nat) :
    { s with calls := Function.update s.calls c none }.Logged pf := by
  have hcall {c' : Nat} {call : Call} (hc : Function.update s.calls c none c' = some call) :
      s.calls c' = some call := by
    by_cases he : c' = c
    case pos => simp [he] at hc
    case neg => exact (Function.update_of_ne he _ _).symm.trans hc
  have hnone {c' : Nat} (hn : s.calls c' = none) : Function.update s.calls c none c' = none := by
    by_cases he : c' = c
    case pos => simp [he]
    case neg => exact (Function.update_of_ne he _ _).trans hn
  exact { h with
    returned       := fun x hx => ⟨(h.returned x hx).left, hnone (h.returned x hx).right⟩
    fresh          := fun hc => hnone (h.fresh hc)
    released       := fun hc => h.released (hcall hc)
    released_nodup := fun hc => h.released_nodup (hcall hc)
    targets_nodup  := fun hc => h.targets_nodup (hcall hc) }

section

variable {c : Nat} {call : Call} {db : Db} {progress : Progress}

theorem Logged.advances (h : s.Logged pf) (hc : s.calls c = some call)
    (ha : call.advance pf s.clock s.db = some (db, progress)) :
    Advances pf s.db db call.released progress :=
  call.advance_spec ha (h.released_nodup hc) (h.targets_nodup hc)
    fun id hid => h.performed (c, id) (h.released hc id hid)

-- A call is only reported on by itself.
theorem Logged.disjoint (h : s.Logged pf) (hc : s.calls c = some call) {x : Nat × Int}
    (hx : x ∈ s.reported) : x.2 ∉ call.released ∧ s.db.hasActive pf x.2 = false := by
  have hp := h.reported x hx
  refine ⟨fun hr => ?_, (h.performed x hp).not_hasActive⟩
  have he := List.inj_on_of_nodup_map h.performed_nodup hp (h.released hc x.2 hr) rfl
  have hn := (h.returned x hx).right
  rw [he, hc] at hn
  cases hn

theorem Logged.performed_after (h : s.Logged pf) (hk : s.db.Keeps pf db) :
    (∀ x ∈ s.performed ++ (s.db.transitions pf db).map (c, ·), db.IsReleased pf x.2) ∧
      ((s.performed ++ (s.db.transitions pf db).map (c, ·)).map Prod.snd).Nodup := by
  constructor
  case left =>
    intro x hx
    cases List.mem_append.mp hx
    case inl hx => exact (hk.released (h.performed x hx)).left
    case inr hx =>
      have ⟨id, hid, he⟩ := List.mem_map.mp hx
      have ⟨ha, hn⟩ := mem_transitions.mp hid
      rw [Db.hasActive_eq] at ha
      have ⟨row, hr, _⟩ := (Option.any_eq_true _ _).mp ha
      exact he ▸ Db.isReleased_iff.mpr ⟨hk.rows (by rw [hr]; rfl), hn⟩
  case right =>
    rw [List.map_append, List.map_map, show Prod.snd ∘ (fun id => (c, id)) = id from rfl,
      List.map_id]
    refine List.nodup_append.mpr ⟨h.performed_nodup, ?_, fun id hid id' hid' he => ?_⟩
    · exact (List.filter_sublist).nodup s.db.reservations.nodup
    · have ⟨x, hx, hi⟩ := List.mem_map.mp hid
      have ha := (mem_transitions.mp hid').left
      rw [← he, ← hi, (h.performed x hx).not_hasActive] at ha
      cases ha

theorem Logged.reported_after (h : s.Logged pf) (hc : s.calls c = some call)
    (ha : Advances pf s.db db call.released progress) :
    ((s.reported ++ progress.reported.map (c, ·)).map Prod.snd).Nodup := by
  cases progress
  case next call' => simpa [Progress.reported] using h.reported_nodup
  case done reported =>
    rw [List.map_append, List.map_map, show Prod.snd ∘ (fun id => (c, id)) = id from rfl,
      List.map_id]
    refine List.nodup_append.mpr ⟨h.reported_nodup, ha.nodup, fun id hid id' hid' he => ?_⟩
    have ⟨x, hx, hi⟩ := List.mem_map.mp hid
    have ⟨hn, hn'⟩ := h.disjoint hc hx
    rw [hi, he] at hn hn'
    cases ha.released id' hid'
    case inl hr => exact hn hr
    case inr hr => simp [hn'] at hr

theorem Logged.advance (h : s.Logged pf) (hc : s.calls c = some call)
    (ha : call.advance pf s.clock s.db = some (db, progress)) :
    (s.after pf c db progress).Logged pf := by
  have ha := h.advances hc ha
  have ⟨hp, hpn⟩ := h.performed_after (c := c) ha.keeps
  have hperf : ∀ id ∈ progress.released, (c, id) ∈ (s.after pf c db progress).performed := by
    intro id hid
    cases ha.released id hid
    case inl hr => exact List.mem_append_left _ (h.released hc id hr)
    case inr hr => exact List.mem_append_right _ (List.mem_map_of_mem (mem_transitions.mpr hr))
  have hlt : c < s.started := by
    by_contra hn
    simp [h.fresh (Nat.le_of_not_lt hn)] at hc
  have hcall {c' : Nat} {call' : Call} (hc' : (s.after pf c db progress).calls c' = some call') :
      c' = c ∧ progress = .next call' ∨ s.calls c' = some call' := by
    by_cases he : c' = c
    case neg => exact .inr ((Function.update_of_ne he _ _).symm.trans hc')
    case pos =>
      subst he
      have hc' := (Function.update_self ..).symm.trans hc'
      cases progress
      case next => exact .inl ⟨rfl, by simpa [Progress.call] using hc'⟩
      case done => simp [Progress.call] at hc'
  exact {
    performed       := hp
    performed_nodup := hpn
    reported_nodup  := h.reported_after hc ha
    reported        := by
      intro x hx
      cases List.mem_append.mp hx
      case inl hx => exact List.mem_append_left _ (h.reported x hx)
      case inr hx =>
        have ⟨id, hid, he⟩ := List.mem_map.mp hx
        cases progress
        case next => simp [Progress.reported] at hid
        case done => exact he ▸ hperf id hid
    returned        := by
      intro x hx
      cases List.mem_append.mp hx
      case inl hx =>
        have ⟨hlt, hn⟩ := h.returned x hx
        have hne : x.1 ≠ c := fun he => by simp [he, hc] at hn
        exact ⟨hlt, (Function.update_of_ne hne _ _).trans hn⟩
      case inr hx =>
        have ⟨id, hid, he⟩ := List.mem_map.mp hx
        cases progress
        case next => simp [Progress.reported] at hid
        case done => exact he ▸ ⟨hlt, Function.update_self ..⟩
    fresh           := by
      intro c' hc'
      have hne : c' ≠ c := (Nat.lt_of_lt_of_le hlt hc').ne'
      exact (Function.update_of_ne hne _ _).trans (h.fresh hc')
    released        := by
      intro c' call' hc' id hid
      cases hcall hc'
      case inr hc' => exact List.mem_append_left _ (h.released hc' id hid)
      case inl he =>
        have ⟨he, hnext⟩ := he
        subst he hnext
        exact hperf id hid
    released_nodup  := by
      intro c' call' hc'
      cases hcall hc'
      case inr hc' => exact h.released_nodup hc'
      case inl he  =>
        have hn := ha.nodup
        rwa [he.right] at hn
    targets_nodup   := by
      intro c' call' hc'
      cases hcall hc'
      case inr hc' => exact h.targets_nodup hc'
      case inl he  =>
        have hn := ha.targets
        rwa [he.right] at hn }

end

theorem step_cases (h : s.step pf e = some s') :
    (∃ clock, s.clock ≤ clock ∧ s' = { s with clock }) ∨
    (∃ request : Request, s' = { s with
      started := s.started + 1
      calls   := Function.update s.calls s.started (some (request.call s.clock)) }) ∨
    (∃ c, s' = { s with calls := Function.update s.calls c none }) ∨
    (∃ c call db progress, e = .advance c ∧ s.calls c = some call ∧
      call.advance pf s.clock s.db = some (db, progress) ∧ s' = s.after pf c db progress) := by
  cases e
  case tick clock =>
    simp only [step] at h
    split at h
    case isTrue hc => cases h; exact .inl ⟨clock, hc, rfl⟩
    case isFalse   => cases h
  case begin request =>
    cases h
    exact .inr (.inl ⟨request, rfl⟩)
  case fail c =>
    cases h
    exact .inr (.inr (.inl ⟨c, rfl⟩))
  case advance c =>
    have ⟨call, hc, h⟩ := Option.bind_eq_some_iff.mp h
    have ⟨⟨db, progress⟩, ha, h⟩ := Option.bind_eq_some_iff.mp h
    cases h
    exact .inr (.inr (.inr ⟨c, call, db, progress, rfl, hc, ha, rfl⟩))

theorem step_logged (hl : s.Logged pf) (h : s.step pf e = some s') : s'.Logged pf := by
  rcases step_cases h with
    ⟨clock, _, rfl⟩ | ⟨request, rfl⟩ | ⟨c, rfl⟩ | ⟨c, call, db, progress, _, hc, ha, rfl⟩
  · exact hl.tick clock
  · exact hl.begin request
  · exact hl.fail c
  · exact hl.advance hc ha

theorem step_keeps (hl : s.Logged pf) (h : s.step pf e = some s') : s.db.Keeps pf s'.db := by
  rcases step_cases h with
    ⟨clock, _, rfl⟩ | ⟨request, rfl⟩ | ⟨c, rfl⟩ | ⟨c, call, db, progress, _, hc, ha, rfl⟩
  · exact .refl _
  · exact .refl _
  · exact .refl _
  · exact (hl.advances hc ha).keeps

theorem run_releases_once {db : Db} {clock : Int} {es es' : List Event}
    (h : run (step pf) (init db clock) es = some s) (h' : run (step pf) s es' = some s') :
    (∀ id, s.db.IsReleased pf id →
      s'.db.IsReleased pf id ∧ s'.db.recorded id = s.db.recorded id) ∧
    (∀ id, (s'.db.releases.rows.filter (·.1 = id)).length ≤ 1) ∧
    (∀ x ∈ s'.reported, x ∈ s'.performed) ∧ (s'.reported.map Prod.snd).Nodup := by
  have hl  : s.Logged pf := Run.invariant step_logged (init_logged db clock) h
  have hl' : s'.Logged pf := Run.invariant step_logged hl h'
  have hk : s.db.Keeps pf s'.db :=
    Run.preserves (R := fun s s' => s.db.Keeps pf s'.db) (fun s => .refl s.db) Db.Keeps.trans
      step_logged step_keeps hl h'
  exact ⟨fun id => hk.released, s'.db.releases.length_filter_le_one, hl'.reported,
    hl'.reported_nodup⟩

-- A reservation is created, released by its holder, and then renewed and released by force in vain.
theorem run_releases_once_renewed :
    ∃ s s', run (step ⟨.wildcard, false, fun _ => 0⟩) (init .empty 5)
        [.begin (.create ⟨1, 7, ["src".toList], 60, true, []⟩), .advance 0,
          .begin (.release 1 7 ⟨none, none⟩), .advance 1, .advance 1, .advance 1] = some s ∧
      run (step ⟨.wildcard, false, fun _ => 0⟩) s
        [.begin (.renew ⟨1, 7, 60, ⟨none, none⟩⟩), .advance 2,
          .begin (.forceRelease 1 none), .advance 3] = some s' ∧
      s.db.IsReleased ⟨.wildcard, false, fun _ => 0⟩ 1 ∧ s'.db.recorded 1 = s.db.recorded 1 ∧
      s'.reported = [(1, 1)] ∧ (s'.reported.map Prod.snd).Nodup := by
  have hrun : ((run (step ⟨.wildcard, false, fun _ => 0⟩) (init .empty 5)
      [.begin (.create ⟨1, 7, ["src".toList], 60, true, []⟩), .advance 0,
        .begin (.release 1 7 ⟨none, none⟩), .advance 1, .advance 1, .advance 1]).bind fun s =>
      (run (step ⟨.wildcard, false, fun _ => 0⟩) s
        [.begin (.renew ⟨1, 7, 60, ⟨none, none⟩⟩), .advance 2,
          .begin (.forceRelease 1 none), .advance 3]).map fun s' =>
      ((s.db.reservations.get? 1).isSome, s.db.hasActive ⟨.wildcard, false, fun _ => 0⟩ 1,
        s'.reported)) = some (true, false, [(1, 1)]) := by decide +kernel
  obtain ⟨s, h, hrun⟩ := Option.bind_eq_some_iff.mp hrun
  obtain ⟨s', h', hs⟩ := Option.map_eq_some_iff.mp hrun
  simp only [Prod.mk.injEq] at hs
  obtain ⟨hrow, hactive, hrep⟩ := hs
  have hr : s.db.IsReleased ⟨.wildcard, false, fun _ => 0⟩ 1 :=
    Db.isReleased_iff.mpr ⟨hrow, hactive⟩
  obtain ⟨hkeeps, _, _, hnodup⟩ := run_releases_once h h'
  exact ⟨s, s', h, h', hr, (hkeeps 1 hr).right, hrep, hnodup⟩

end System
end Reservation
