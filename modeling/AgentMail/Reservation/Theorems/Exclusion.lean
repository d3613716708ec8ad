import AgentMail.Reservation.System
import AgentMail.Reservation.Theorems.ConflictIndex
import AgentMail.Reservation.Theorems.Release

open Pattern

namespace Reservation

variable {pf : Platform} {db db' db'' : Db} {row row' : FileReservationRow}

-- The same reservation, apart from its times.
structure SameHolder (row row' : FileReservationRow) : Prop where
  id          : row.id = row'.id
  projectId   : row.projectId = row'.projectId
  agentId     : row.agentId = row'.agentId
  pathPattern : row.pathPattern = row'.pathPattern
  exclusive   : row.exclusive = row'.exclusive

theorem SameHolder.refl (row : FileReservationRow) : SameHolder row row :=
  ⟨rfl, rfl, rfl, rfl, rfl⟩

namespace System

variable {s s' : System} {e : Event}

-- Whatever is current was so before.
def Narrows (pf : Platform) (s s' : System) : Prop :=
  ∀ row', s'.IsCurrent pf row' → ∃ row, s.IsCurrent pf row ∧ SameHolder row row'

theorem Exclusive.narrow (h : s.Exclusive pf) (hn : s.Narrows pf s') : s'.Exclusive pf := by
  intro r' q' hr' hq' hp ha he
  have ⟨r, hr, hsr⟩ := hn r' hr'
  have ⟨q, hq, hsq⟩ := hn q' hq'
  rw [← hsr.projectId, ← hsq.projectId] at hp
  rw [← hsr.agentId, ← hsq.agentId] at ha
  rw [← hsr.exclusive, ← hsq.exclusive] at he
  rw [← hsr.pathPattern, ← hsq.pathPattern]
  exact h r q hr hq hp ha he

end System

-- Releases only make rows inactive.
theorem release_narrows {i ts : Int} (hr : row ∈ (db.release i ts).reservations.rows)
    (ha : (db.release i ts).isActive pf row) : row ∈ db.reservations.rows ∧ db.isActive pf row := by
  have hid : row.id ≠ i := by
    rintro rfl
    have hg := Table.get?_key hr
    have hn : (db.release row.id ts).hasActive pf row.id = false := Db.not_hasActive_release
    simp [Db.hasActive_eq, hg, ha] at hn
  have hg := (Db.get?_release hid).symm.trans (Table.get?_key hr)
  exact ⟨(Table.get?_eq_some_iff.mp hg).left, Db.isActive_release hid ▸ ha⟩

theorem releaseByIds_narrows {c : ExpiryConstraint} {ids : List Int} {ts : Int}
    (hr : row ∈ (releaseByIds pf c ids ts db).1.reservations.rows)
    (ha : (releaseByIds pf c ids ts db).1.isActive pf row) :
    row ∈ db.reservations.rows ∧ db.isActive pf row := by
  induction ids generalizing ts db
  case nil => exact ⟨hr, ha⟩
  case cons i ids hi =>
    simp only [releaseByIds] at hr ha
    split at hr <;> rename_i he <;> simp only [he] at ha
    case isFalse => exact hi hr ha
    case isTrue  =>
      obtain ⟨hr, ha⟩ := hi hr ha
      exact release_narrows hr ha

-- A renewal only changes the expiry of the given rows.
structure Renews (ids : List Int) (row row' : FileReservationRow) : Prop where
  same       : SameHolder row row'
  releasedTs : row.releasedTs = row'.releasedTs
  expiresTs  : row.expiresTs = row'.expiresTs ∨ row.id ∈ ids

theorem setExpires_renews {i ts : Int} (h : row' ∈ (db.setExpires i ts).reservations.rows) :
    ∃ row ∈ db.reservations.rows, Renews [i] row row' := by
  have ⟨row, hr, he⟩ := List.mem_map.mp h
  refine ⟨row, hr, ?_⟩
  subst he
  split
  case isTrue hi  => exact ⟨⟨rfl, rfl, rfl, rfl, rfl⟩, rfl, .inr (by simpa using hi)⟩
  case isFalse    => exact ⟨.refl row, rfl, .inl rfl⟩

theorem foldl_setExpires_renews {rows : List FileReservationRow} {f : FileReservationRow → Int}
    (h : row' ∈ (rows.foldl (fun db row => db.setExpires row.id (f row)) db).reservations.rows) :
    ∃ row ∈ db.reservations.rows, Renews (rows.map FileReservationRow.id) row row' := by
  induction rows generalizing db
  case nil => exact ⟨row', h, .refl row', rfl, .inl rfl⟩
  case cons r rows hi =>
    have ⟨q, hq, hs', hr', he'⟩ := hi h
    have ⟨row, hrow, hs, hr, he⟩ := setExpires_renews hq
    refine ⟨row, hrow, ⟨hs.id.trans hs'.id, hs.projectId.trans hs'.projectId,
      hs.agentId.trans hs'.agentId, hs.pathPattern.trans hs'.pathPattern,
      hs.exclusive.trans hs'.exclusive⟩, hr.trans hr', ?_⟩
    rw [List.map_cons, List.mem_cons]
    rcases he with he | he
    · rcases he' with he' | he'
      · exact .inl (he.trans he')
      · exact .inr (.inr (hs.id ▸ he'))
    · exact .inr (.inl (List.mem_singleton.mp he))

theorem releases_foldl_setExpires (rows : List FileReservationRow) (f : FileReservationRow → Int)
    (db : Db) :
    (rows.foldl (fun db row => db.setExpires row.id (f row)) db).releases = db.releases := by
  induction rows generalizing db
  case nil => rfl
  case cons row rows hi => exact hi _

theorem isActive_congr (hr : row.releasedTs = row'.releasedTs) (hi : row.id = row'.id)
    (hl : db.releases = db'.releases) : db.isActive pf row = db'.isActive pf row' := by
  simp only [Db.isActive, hr, hi, hl]

-- If nothing that is renewed has expired, then nothing becomes active again.
theorem renewReservations_narrows {now clock : Int} {req : RenewRequest}
    (hg : ∀ row ∈ renewable pf now req db, clock < row.expiresTs)
    (hr : row' ∈ (renewReservations pf now req db).1.reservations.rows)
    (ha : (renewReservations pf now req db).1.isActive pf row') (he : clock < row'.expiresTs) :
    ∃ row ∈ db.reservations.rows, db.isActive pf row ∧ clock < row.expiresTs ∧
      SameHolder row row' := by
  have ⟨row, hrow, hs, hrel, hexp⟩ := foldl_setExpires_renews hr
  have ha' : db.isActive pf row :=
    (isActive_congr hrel hs.id (releases_foldl_setExpires _ _ db).symm).trans ha
  refine ⟨row, hrow, ha', ?_, hs⟩
  cases hexp
  case inl hexp => exact hexp ▸ he
  case inr hid =>
    have ⟨q, hq, hi⟩ := List.mem_map.mp hid
    have hmem := List.mem_of_mem_filter hq
    rw [← List.inj_on_of_nodup_map db.reservations.nodup hmem hrow hi]
    exact hg q hq

theorem mem_insertRows {now : Int} {req : CreateRequest} {paths : List Str}
    (h : row ∈ (insertRows now req paths db).1.reservations.rows) :
    row ∈ db.reservations.rows ∨ ∃ path ∈ paths, ∃ id, row = newRow now req id path := by
  induction paths generalizing db
  case nil => exact .inl h
  case cons path paths hi =>
    cases hi h
    case inr h =>
      have ⟨path, hp, h⟩ := h
      exact .inr ⟨path, List.mem_cons_of_mem _ hp, h⟩
    case inl h =>
      cases List.mem_append.mp h
      case inl h => exact .inl h
      case inr h => exact .inr ⟨path, List.mem_cons_self, db.nextId, List.mem_singleton.mp h⟩

theorem releases_insertRows (now : Int) (req : CreateRequest) (paths : List Str) (db : Db) :
    (insertRows now req paths db).1.releases = db.releases := by
  induction paths generalizing db
  case nil => rfl
  case cons path paths hi => exact hi _

theorem of_firstBusy {index : ReservationConflictIndex} {paths : List Str}
    (h : firstBusy pf index paths = some none) : ∀ path ∈ paths,
      ReservationConflictIndex.firstConflict pf.caseInsensitive index (compiled pf path) =
        some none := by
  induction paths
  case nil => nofun
  case cons path paths hi =>
    have ⟨found, hf, h⟩ := Option.bind_eq_some_iff.mp h
    cases found
    case some => cases h
    case none => exact List.forall_mem_cons.mpr ⟨hf, hi h⟩

-- A request that is granted does not overlap the rivals.
theorem not_overlap_of_firstBusy {now : Int} {req : CreateRequest}
    (hg : NoHiddenConflict pf now req db)
    (h : firstBusy pf (.build pf.globset pf.caseInsensitive
      ((rivals pf now req db).map FileReservationRow.pathPattern)) req.paths = some none)
    {path : Str} (hp : path ∈ req.paths) (hr : row ∈ rivals pf now req db) :
    ¬overlap pf row.pathPattern path := by
  intro ho
  have ⟨path, hp, row, hr, ho, hk⟩ := hg ⟨path, hp, row, hr, ho⟩
  have hf : ∀ pre, (compiled pf path).firstLiteralSegment = some pre → pre ≠ [] :=
    fun pre h => (CompiledPattern.firstLiteralSegment_iff.mp h).right.left
  have hn := ReservationConflictIndex.overlaps_of_firstConflict (PrefixIndex.holds_build _) hf
    (of_firstBusy h path hp) (List.mem_map_of_mem (List.mem_map_of_mem hr)) hk
  exact nomatch hn.symm.trans ho

namespace System

variable {s s' : System} {e : Event} {c : Nat} {call : Call} {progress : Progress}

-- No call has read a time that is yet to come.
def Prompt (s : System) : Prop :=
  ∀ c now req, s.calls c = some (.create now req) → now ≤ s.clock

theorem init_prompt (db : Db) (clock : Int) : (init db clock).Prompt :=
  nofun

theorem Prompt.update {clock : Int} {call : Option Call} (h : s.Prompt) (hc : s.clock ≤ clock)
    (hn : ∀ now req, call = some (.create now req) → now ≤ clock) (c' : Nat) (now : Int)
    (req : CreateRequest) (hu : Function.update s.calls c call c' = some (.create now req)) :
    now ≤ clock := by
  by_cases he : c' = c
  case pos => exact hn now req (by simpa [he] using hu)
  case neg => exact Int.le_trans (h c' now req ((Function.update_of_ne he _ _).symm.trans hu)) hc

-- A call that goes on does not create anything.
theorem advance_ne_create {clock now : Int} {req : CreateRequest}
    (h : call.advance pf clock db = some (db', progress)) :
    progress.call ≠ some (.create now req) := by
  intro hp
  cases progress
  case done => cases hp
  case next =>
    cases hp
    cases call
    case create => simp [Call.advance] at h
    case release projectId agentId todo released =>
      cases todo
      case nil => simp [Call.advance] at h
      case cons =>
        simp only [Call.advance] at h
        split at h
        · simp at h
        · split at h <;> simp at h
    all_goals simp [Call.advance] at h

theorem step_prompt (hp : s.Prompt) (h : s.step pf e = some s') : s'.Prompt := by
  rcases step_cases h with
    ⟨clock, hc, rfl⟩ | ⟨request, rfl⟩ | ⟨c, rfl⟩ | ⟨c, call, db, progress, _, _, ha, rfl⟩
  · exact fun c now req hcall => Int.le_trans (hp c now req hcall) hc
  · refine hp.update (Int.le_refl _) fun now req hr => ?_
    cases request <;> cases hr
    exact Int.le_refl _
  · exact hp.update (Int.le_refl _) (by nofun)
  · exact hp.update (Int.le_refl _) fun now req hr => absurd hr (advance_ne_create ha)

theorem createFileReservations_cases {now : Int} {req : CreateRequest}
    {r : Except Str (List FileReservationRow)}
    (h : createFileReservations pf now req db = some (db', r)) : db' = db ∨
      firstBusy pf (.build pf.globset pf.caseInsensitive
        ((rivals pf now req db).map FileReservationRow.pathPattern)) req.paths = some none ∧
      db' = (insertRows now req req.paths db).1 := by
  have ⟨busy, hb, h⟩ := Option.bind_eq_some_iff.mp h
  cases busy <;> cases h
  case some => exact .inl rfl
  case none => exact .inr ⟨hb, rfl⟩

section

variable {now : Int} {req : CreateRequest}

theorem IsCurrent.of_insertRows (hd : s'.db = (insertRows now req req.paths s.db).1)
    (hc : s'.clock = s.clock) (h : s'.IsCurrent pf row) :
    s.IsCurrent pf row ∨ ∃ path ∈ req.paths, ∃ id, row = newRow now req id path := by
  have ⟨hr, ha, he⟩ := h
  rw [hd] at hr ha
  cases mem_insertRows hr
  case inr hr => exact .inr hr
  case inl hr =>
    rw [isActive_congr rfl rfl (releases_insertRows now req req.paths s.db)] at ha
    exact .inl ⟨hr, ha, hc ▸ he⟩

-- What is current now has not expired when the time was read.
theorem IsCurrent.mem_rivals (h : s.IsCurrent pf row) (hn : now ≤ s.clock)
    (hp : row.projectId = req.projectId) (ha : row.agentId ≠ req.agentId)
    (he : req.exclusive ∨ row.exclusive = 1) : row ∈ rivals pf now req s.db := by
  have ⟨hr, hactive, hexp⟩ := h
  have hlt : now < row.expiresTs := Int.lt_of_le_of_lt hn hexp
  simpa [rivals, hr, hp, ha, hactive, hlt] using he

theorem newRow_exclusive {id : Int} {path : Str} (h : (newRow now req id path).exclusive = 1) :
    req.exclusive := by
  simpa [newRow] using h

theorem Exclusive.create {r : Except Str (List FileReservationRow)} (h : s.Exclusive pf)
    (hn : now ≤ s.clock) (hg : NoHiddenConflict pf now req s.db)
    (hcreate : createFileReservations pf now req s.db = some (s'.db, r))
    (hc : s'.clock = s.clock) : s'.Exclusive pf := by
  cases createFileReservations_cases hcreate
  case inl hd =>
    refine h.narrow fun row hr => ⟨row, ?_, .refl row⟩
    rwa [IsCurrent, hd, hc] at hr
  case inr hd =>
    have ⟨hb, hd⟩ := hd
    have hnew {old : FileReservationRow} {path : Str} {id : Int} (ho : s.IsCurrent pf old)
        (hp : path ∈ req.paths) (hproj : old.projectId = req.projectId)
        (hagent : old.agentId ≠ req.agentId)
        (he : old.exclusive = 1 ∨ (newRow now req id path).exclusive = 1) :
        ¬overlap pf old.pathPattern path :=
      not_overlap_of_firstBusy hg hb hp <|
        ho.mem_rivals hn hproj hagent (he.symm.imp_left newRow_exclusive)
    intro row row' hr hr' hproj hagent he
    cases hr.of_insertRows hd hc
    case inl hr =>
      cases hr'.of_insertRows hd hc
      case inl hr' => exact h row row' hr hr' hproj hagent he
      case inr hr' =>
        have ⟨path, hp, id, hrow⟩ := hr'
        subst hrow
        exact hnew hr hp hproj hagent he
    case inr hr =>
      have ⟨path, hp, id, hrow⟩ := hr
      subst hrow
      cases hr'.of_insertRows hd hc
      case inr hr' =>
        have ⟨_, _, _, hrow⟩ := hr'
        exact absurd (hrow ▸ rfl) hagent
      case inl hr' =>
        intro ho
        exact hnew hr' hp hproj.symm hagent.symm he.symm (CompiledPattern.overlaps_comm.trans ho)

end

theorem Narrows.of_clock_le (hd : s'.db = s.db) (hc : s.clock ≤ s'.clock) : s.Narrows pf s' := by
  intro row ⟨hr, ha, he⟩
  rw [hd] at hr ha
  exact ⟨row, ⟨hr, ha, Int.lt_of_le_of_lt hc he⟩, .refl row⟩

theorem Narrows.of_releaseByIds {constraint : ExpiryConstraint} {ids : List Int} {ts : Int}
    (hd : s'.db = (Reservation.releaseByIds pf constraint ids ts s.db).1)
    (hc : s'.clock = s.clock) : s.Narrows pf s' := by
  intro row ⟨hr, ha, he⟩
  rw [hd] at hr ha
  have ⟨hr, ha⟩ := releaseByIds_narrows hr ha
  exact ⟨row, ⟨hr, ha, hc ▸ he⟩, .refl row⟩

theorem Narrows.of_renewReservations {now : Int} {req : RenewRequest}
    (hg : ∀ row ∈ renewable pf now req s.db, s.clock < row.expiresTs)
    (hd : s'.db = (renewReservations pf now req s.db).1) (hc : s'.clock = s.clock) :
    s.Narrows pf s' := by
  intro row' ⟨hr, ha, he⟩
  rw [hd] at hr ha
  rw [hc] at he
  have ⟨row, hr, ha, he, hs⟩ := renewReservations_narrows hg hr ha he
  exact ⟨row, ⟨hr, ha, he⟩, hs⟩

theorem Exclusive.advance (h : s.Exclusive pf) (hp : s.Prompt) (hg : s.Guarded pf (.advance c))
    (hc : s.calls c = some call) (ha : call.advance pf s.clock s.db = some (db, progress)) :
    (s.after pf c db progress).Exclusive pf := by
  have hg := hg call hc
  cases call
  case create now req =>
    have ⟨r, hcreate, hr⟩ := Option.map_eq_some_iff.mp ha
    cases hr
    exact h.create (hp c now req hc) hg hcreate rfl
  case renew now req =>
    cases ha
    exact h.narrow (.of_renewReservations hg rfl rfl)
  case selected =>
    cases ha
    exact h.narrow (.of_releaseByIds rfl rfl)
  case byIds =>
    cases ha
    exact h.narrow (.of_releaseByIds rfl rfl)
  case expired =>
    cases ha
    exact h.narrow (.of_clock_le rfl (Int.le_refl _))
  case release projectId agentId todo released =>
    -- Reservations are only selected here.
    have hd : db = s.db := by
      cases todo
      case nil => cases ha; rfl
      case cons =>
        simp only [Call.advance] at ha
        split at ha
        case h_1 => cases ha; rfl
        case h_2 => split at ha <;> cases ha <;> rfl
    exact h.narrow (.of_clock_le hd (Int.le_refl _))

theorem step_exclusive (hs : s.Prompt ∧ s.Exclusive pf) (hg : s.Guarded pf e)
    (h : s.step pf e = some s') : s'.Prompt ∧ s'.Exclusive pf := by
  refine ⟨step_prompt hs.left h, ?_⟩
  rcases step_cases h with
    ⟨clock, hc, rfl⟩ | ⟨request, rfl⟩ | ⟨c, rfl⟩ | ⟨c, call, db, progress, he, hc, ha, rfl⟩
  · exact hs.right.narrow (.of_clock_le rfl hc)
  · exact hs.right.narrow (.of_clock_le rfl (Int.le_refl _))
  · exact hs.right.narrow (.of_clock_le rfl (Int.le_refl _))
  · exact hs.right.advance hs.left (he ▸ hg) hc ha

theorem init_exclusive (clock : Int) : (init .empty clock).Exclusive pf :=
  fun _ _ hr => nomatch hr.left

theorem run_exclusive {clock : Int} {es : List Event}
    (hc : Along (step pf) (Guarded pf) (init .empty clock) es)
    (h : run (step pf) (init .empty clock) es = some s) : s.Exclusive pf := by
  have hs : s.Prompt ∧ s.Exclusive pf :=
    Run.invariant_along (I := fun s => s.Prompt ∧ s.Exclusive pf) step_exclusive
      ⟨init_prompt .empty clock, init_exclusive clock⟩ hc h
  exact hs.right

-- Two agents reserve files side by side, and the first one renews in time.
theorem run_exclusive_renewed :
    ∃ s, run (step ⟨.wildcard, false, fun _ => 0⟩) (init .empty 0)
        [.begin (.create ⟨1, 1, ["src/a.rs".toList], 60, true, []⟩), .advance 0,
          .begin (.create ⟨1, 2, ["src/b.rs".toList, "docs/*".toList], 60, true, []⟩), .tick 5,
          .advance 1, .begin (.renew ⟨1, 1, 60, ⟨none, none⟩⟩), .tick 7, .advance 2] = some s ∧
      s.Exclusive ⟨.wildcard, false, fun _ => 0⟩ := by
  have hrun : (run (step ⟨.wildcard, false, fun _ => 0⟩) (init .empty 0)
      [.begin (.create ⟨1, 1, ["src/a.rs".toList], 60, true, []⟩), .advance 0,
        .begin (.create ⟨1, 2, ["src/b.rs".toList, "docs/*".toList], 60, true, []⟩), .tick 5,
        .advance 1, .begin (.renew ⟨1, 1, 60, ⟨none, none⟩⟩), .tick 7, .advance 2]).isSome := by
    decide +kernel
  have ⟨s, h⟩ := Option.isSome_iff_exists.mp hrun
  exact ⟨s, h, run_exclusive (by decide +kernel) h⟩

-- Agent 2 asks for a renewal, but by the time of the transaction the reservation has expired, and
-- agent 1 has reserved the file.
theorem not_exclusive_revived :
    ∃ s, run (step ⟨.wildcard, false, fun _ => 0⟩) (init .empty 0)
        [.begin (.create ⟨1, 2, ["src/a.rs".toList], 1, true, []⟩), .advance 0, .tick 500000,
          .begin (.renew ⟨1, 2, 10, ⟨none, none⟩⟩), .tick 2000000,
          .begin (.create ⟨1, 1, ["src/a.rs".toList], 60, true, []⟩), .advance 2, .advance 1] =
        some s ∧
      ¬s.Exclusive ⟨.wildcard, false, fun _ => 0⟩ := by
  have hrun : ((run (step ⟨.wildcard, false, fun _ => 0⟩) (init .empty 0)
      [.begin (.create ⟨1, 2, ["src/a.rs".toList], 1, true, []⟩), .advance 0, .tick 500000,
        .begin (.renew ⟨1, 2, 10, ⟨none, none⟩⟩), .tick 2000000,
        .begin (.create ⟨1, 1, ["src/a.rs".toList], 60, true, []⟩), .advance 2, .advance 1]).map
      fun s => decide (
        s.IsCurrent ⟨.wildcard, false, fun _ => 0⟩
          ⟨1, 1, 2, "src/a.rs".toList, 1, [], 0, 11000000, .null⟩ ∧
        s.IsCurrent ⟨.wildcard, false, fun _ => 0⟩
          ⟨2, 1, 1, "src/a.rs".toList, 1, [], 2000000, 62000000, .null⟩)) = some true := by
    decide +kernel
  have ⟨s, h, hs⟩ := Option.map_eq_some_iff.mp hrun
  have ⟨hc, hc'⟩ := of_decide_eq_true hs
  refine ⟨s, h, fun he => ?_⟩
  exact he _ _ hc hc' rfl (by decide) (.inl rfl) (by decide +kernel)

end System
end Reservation
