import AgentMail.Reservation.Cleanup
import AgentMail.Reservation.Theorems.Exclusion

open Pattern

namespace Reservation

variable {pf : Platform} {db db' db'' : Db} {row : FileReservationRow} {id t : Int}

namespace Db

def expiry (db : Db) (id : Int) : Option Int :=
  (db.reservations.get? id).map FileReservationRow.expiresTs

theorem expiry_of_mem (h : row ∈ db.reservations.rows) : db.expiry row.id = some row.expiresTs :=
  congrArg (Option.map _) (Table.get?_key h)

theorem expiry_insertRow (h : db.expiry id = some t) : (db.insertRow row).expiry id = some t := by
  obtain ⟨r, hr, rfl⟩ := Option.map_eq_some_iff.mp h
  have hid : db.nextId ≠ id := by
    rintro rfl
    simp [db.get?_nextId] at hr
  have hg : (db.insertRow row).reservations.get? id = some r :=
    (Table.get?_insert db.get?_nextId).trans ((if_neg hid).trans hr)
  exact congrArg (Option.map _) hg

theorem expiry_release {i ts : Int} : (db.release i ts).expiry id = db.expiry id := by
  rw [expiry, expiry, reservations_release, setReleased, get?_updateRow, Option.map_map]
  refine congrArg (Option.map · _) (funext fun row => ?_)
  simp only [Function.comp_apply]
  split <;> rfl

theorem expiry_setExpires (i ts : Int) (h : db.expiry id = some t) :
    (db.setExpires i ts).expiry id = some (if id = i then ts else t) := by
  obtain ⟨r, hr, rfl⟩ := Option.map_eq_some_iff.mp h
  have hid := (Table.get?_eq_some_iff.mp hr).right
  rw [expiry, setExpires, get?_updateRow, hr, Option.map_some, Option.map_some, hid]
  split <;> rfl

end Db

theorem expiry_insertRows {now : Int} {req : CreateRequest} {paths : List Str}
    (h : db.expiry id = some t) : (insertRows now req paths db).1.expiry id = some t := by
  induction paths generalizing db
  case nil              => exact h
  case cons path _ hi   => exact hi (Db.expiry_insertRow h)

theorem expiry_createFileReservations {now : Int} {req : CreateRequest}
    {r : Except Str (List FileReservationRow)}
    (hc : createFileReservations pf now req db = some (db', r)) (h : db.expiry id = some t) :
    db'.expiry id = some t := by
  obtain ⟨busy, _, hc⟩ := Option.bind_eq_some_iff.mp hc
  cases busy
  case some =>
    cases hc
    exact h
  case none =>
    cases hc
    exact expiry_insertRows h

theorem expiry_releaseByIds {c : ExpiryConstraint} {ids : List Int} {ts : Int} :
    (releaseByIds pf c ids ts db).1.expiry id = db.expiry id := by
  induction ids generalizing ts db
  case nil => rfl
  case cons i ids hi =>
    rw [releaseByIds]
    split
    case isTrue  => exact hi.trans Db.expiry_release
    case isFalse => exact hi

theorem expiry_foldl_setExpires (rows : List FileReservationRow) (f : FileReservationRow → Int)
    (h : db.expiry id = some t) :
    ∃ t', (rows.foldl (fun db row => db.setExpires row.id (f row)) db).expiry id = some t' ∧
      (t' = t ∧ id ∉ rows.map FileReservationRow.id ∨ ∃ row ∈ rows, row.id = id ∧ t' = f row) := by
  induction rows generalizing db t
  case nil => exact ⟨t, h, .inl ⟨rfl, List.not_mem_nil⟩⟩
  case cons r rows hi =>
    obtain ⟨t', he, ht' | ⟨row, hr, hid, ht'⟩⟩ := hi (Db.expiry_setExpires r.id (f r) h)
    case inr => exact ⟨t', he, .inr ⟨row, List.mem_cons_of_mem r hr, hid, ht'⟩⟩
    case inl =>
      obtain ⟨ht', hn⟩ := ht'
      refine ⟨t', he, ?_⟩
      split at ht'
      case isTrue hid  => exact .inr ⟨r, List.mem_cons_self, hid.symm, ht'⟩
      case isFalse hid => exact .inl ⟨ht', by simp [hid, hn]⟩

-- No expiry gets lost or is shortened, and those of the given ids are extended beyond the time.
structure Prolongs (clock : Int) (db db' : Db) (ids : List Int) : Prop where
  keeps : ∀ {id t}, db.expiry id = some t →
    ∃ t', db'.expiry id = some t' ∧ t ≤ t' ∧ (id ∈ ids → t < t' ∧ clock < t')
  known : ∀ id ∈ ids, ∃ t, db.expiry id = some t

theorem Prolongs.of_expiry {clock : Int}
    (h : ∀ {id t}, db.expiry id = some t → db'.expiry id = some t) : Prolongs clock db db' [] where
  keeps he := ⟨_, h he, Int.le_refl _, fun hm => absurd hm List.not_mem_nil⟩
  known _ hm := absurd hm List.not_mem_nil

theorem Prolongs.refl {clock : Int} : Prolongs clock db db [] :=
  .of_expiry id

theorem renewReservations_prolongs {now clock : Int} {req : RenewRequest}
    (he : (Call.renew now req).Extends pf clock db) :
    Prolongs clock db (renewReservations pf now req db).1
      ((Call.renew now req).extended pf db) := by
  have hmem {id : Int} (hm : id ∈ (Call.renew now req).extended pf db) :
      ∃ row ∈ renewable pf now req db, row.expiresTs < renewedExpiry now req row ∧ row.id = id := by
    obtain ⟨row, hr, hid⟩ := List.mem_map.mp hm
    obtain ⟨hr, hlt⟩ := List.mem_filter.mp hr
    exact ⟨row, hr, of_decide_eq_true hlt, hid⟩
  constructor
  case known =>
    intro id hm
    obtain ⟨row, hr, _, rfl⟩ := hmem hm
    exact ⟨_, Db.expiry_of_mem (List.mem_of_mem_filter hr)⟩
  case keeps =>
    intro id t ht
    obtain ⟨t', ht', ⟨rfl, hn⟩ | ⟨row, hr, rfl, rfl⟩⟩ :=
      expiry_foldl_setExpires (renewable pf now req db) (renewedExpiry now req) ht
    case inl =>
      refine ⟨t', ht', Int.le_refl _, fun hm => ?_⟩
      obtain ⟨row, hr, _, rfl⟩ := hmem hm
      exact absurd (List.mem_map_of_mem hr) hn
    case inr =>
      have hrow := Table.get?_key (List.mem_of_mem_filter hr)
      obtain rfl : row.expiresTs = t := by
        rw [Db.expiry_of_mem (List.mem_of_mem_filter hr)] at ht
        exact Option.some_inj.mp ht
      obtain ⟨hle, hclock⟩ := he row hr
      refine ⟨_, ht', hle, fun hm => ⟨?_, hclock⟩⟩
      obtain ⟨r, hr', hlt, hid⟩ := hmem hm
      have hrow' := Table.get?_key (List.mem_of_mem_filter hr')
      rw [hid, hrow] at hrow'
      cases hrow'
      exact hlt

theorem Call.advance_prolongs {call : Call} {clock : Int} {progress : Progress}
    (h : call.advance pf clock db = some (db', progress)) (he : call.Extends pf clock db) :
    Prolongs clock db db' (call.extended pf db) := by
  cases call
  case create now req =>
    obtain ⟨⟨_, r⟩, hc, h⟩ := Option.map_eq_some_iff.mp h
    cases h
    exact .of_expiry (expiry_createFileReservations hc)
  case renew now req =>
    cases h
    exact renewReservations_prolongs he
  case byIds ids c =>
    cases h
    exact .of_expiry expiry_releaseByIds.trans
  case selected projectId agentId rows todo released =>
    cases h
    exact .of_expiry expiry_releaseByIds.trans
  case expired now projectId =>
    cases h
    exact .refl
  case release projectId agentId todo released =>
    obtain rfl : db' = db := by
      cases todo
      case nil =>
        cases h
        rfl
      case cons filter todo =>
        simp only [advance] at h
        repeat' split at h
        all_goals
          cases h
          rfl
    exact .refl

namespace System

variable {s s' : System} {e : Event}

theorem clock_step (h : s.step pf e = some s') : s.clock ≤ s'.clock := by
  rcases step_cases h with ⟨_, hc, rfl⟩ | ⟨_, rfl⟩ | ⟨_, rfl⟩ | ⟨_, _, _, _, _, _, _, rfl⟩
  · exact hc
  · exact Int.le_refl _
  · exact Int.le_refl _
  · exact Int.le_refl _

theorem step_prolongs (h : s.step pf e = some s')
    (he : ∀ c, e = .advance c → ∀ call ∈ s.calls c, call.Extends pf s.clock s.db) :
    Prolongs s.clock s.db s'.db (Cleanup.extended pf s e) := by
  cases e
  case advance c =>
    obtain ⟨call, hc, h⟩ := Option.bind_eq_some_iff.mp h
    obtain ⟨⟨db, progress⟩, ha, h⟩ := Option.bind_eq_some_iff.mp h
    cases h
    rw [Cleanup.extended, hc]
    exact call.advance_prolongs ha (he c rfl call hc)
  case tick clock =>
    simp only [step] at h
    split at h <;> cases h
    exact .refl
  case begin request =>
    cases h
    exact .refl
  case fail c =>
    cases h
    exact .refl

end System

theorem isEligible_of_release {c : ExpiryConstraint} {i ts : Int}
    (h : isEligible pf c (db.release i ts) id) : isEligible pf c db id := by
  simp only [isEligible, List.any_eq_true, Bool.and_eq_true] at h ⊢
  obtain ⟨row, hr, ⟨hid, ha⟩, hc⟩ := h
  obtain ⟨hr, ha⟩ := release_narrows hr ha
  exact ⟨row, hr, ⟨hid, ha⟩, hc⟩

-- Only given ids are released, and only those that satisfied the constraint from the start.
theorem releaseByIds_eligible {c : ExpiryConstraint} {ids : List Int} {ts : Int}
    (h : id ∈ (releaseByIds pf c ids ts db).2.map ReleasedReservationMarker.id) : id ∈ ids ∧
    isEligible pf c db id := by
  induction ids generalizing ts db
  case nil => exact absurd h List.not_mem_nil
  case cons i ids hi =>
    rw [releaseByIds] at h
    split at h
    case isFalse =>
      obtain ⟨hm, he⟩ := hi h
      exact ⟨List.mem_cons_of_mem i hm, he⟩
    case isTrue hc =>
      rcases List.mem_cons.mp h with rfl | h
      · exact ⟨List.mem_cons_self, hc⟩
      · obtain ⟨hm, he⟩ := hi h
        exact ⟨List.mem_cons_of_mem i hm, isEligible_of_release he⟩

-- What becomes inactive is reported.
theorem releaseByIds_complete {c : ExpiryConstraint} {ids : List Int} {ts : Int}
    (ha : db.hasActive pf id) (hn : (releaseByIds pf c ids ts db).1.hasActive pf id = false) :
    id ∈ (releaseByIds pf c ids ts db).2.map ReleasedReservationMarker.id := by
  induction ids generalizing ts db
  case nil => exact absurd ha (Bool.eq_false_iff.mp hn)
  case cons i ids hi =>
    rw [releaseByIds] at hn ⊢
    split at hn
    case isFalse hc =>
      rw [if_neg hc]
      exact hi ha hn
    case isTrue hc =>
      rw [if_pos hc, List.map_cons, List.mem_cons]
      by_cases hid : id = i
      case pos => exact .inl hid
      case neg => exact .inr (hi ((Db.hasActive_release hid).trans ha) hn)

theorem releaseByIds_reports {c : ExpiryConstraint} {ids : List Int} {ts : Int} :
    ((releaseByIds pf c ids ts db).2.map ReleasedReservationMarker.id).Perm
      (db.transitions pf (releaseByIds pf c ids ts db).1) := by
  have hr := releaseByIds_releases pf c ids ts db
  refine (List.perm_ext_iff_of_nodup hr.nodup (List.filter_sublist.nodup db.reservations.nodup)).mpr
    fun id => ?_
  refine Iff.trans ?_ mem_transitions.symm
  exact ⟨hr.released id, fun ⟨ha, hn⟩ => releaseByIds_complete ha hn⟩

theorem expiry_of_isEligible {c : ExpiryConstraint} (h : isEligible pf c db id) :
    ∃ row, db.expiry id = some row.expiresTs ∧ c.allows row := by
  simp only [isEligible, List.any_eq_true, Bool.and_eq_true, decide_eq_true_eq] at h
  obtain ⟨row, hr, ⟨rfl, _⟩, hc⟩ := h
  exact ⟨row, Db.expiry_of_mem hr, hc⟩

namespace Cleanup

variable {config : Config} {s s' : Cleanup} {e : Event} {renewed : List Int}
  {active : List FileReservationRow}

-- The expiries of the listed rows have not become earlier, and those of the renewed ones are later.
def Listed (db : Db) (renewed : List Int) (active : List FileReservationRow) : Prop :=
  ∀ row ∈ active, ∃ t, db.expiry row.id = some t ∧ row.expiresTs ≤ t ∧
    (row.id ∈ renewed → row.expiresTs < t)

-- What has been renewed does not expire up to the time.
def Later (db : Db) (renewed : List Int) (now : Int) : Prop :=
  ∀ id ∈ renewed, ∃ t, db.expiry id = some t ∧ now < t

def Phase.Sound (agents : System) (renewed : List Int) : Phase → Prop
  | .expiring _ now                         => now ≤ agents.clock
  | .releasingExpired _ now _               => now ≤ agents.clock ∧ Later agents.db renewed now
  | .probing _ active todo _ staleIds       =>
    Listed agents.db renewed active ∧ todo ⊆ active ∧ staleIds ⊆ active.map FileReservationRow.id
  | .releasing active staleIds              =>
    Listed agents.db renewed active ∧ staleIds ⊆ active.map FileReservationRow.id
  | _                                       => True

structure Sound (s : Cleanup) : Prop extends s.Spares where
  phase : s.phase.Sound s.agents s.renewed

theorem sound_init (db : Db) (clock : Int) : (init db clock).Sound where
  renewals := rfl
  reports  := .nil
  phase    := trivial

theorem Listed.prolongs {clock : Int} {ids : List Int} (h : Listed db renewed active)
    (hp : Prolongs clock db db' ids) : Listed db' (renewed ++ ids) active := by
  intro row hr
  obtain ⟨t, ht, hle, hlt⟩ := h row hr
  obtain ⟨t', ht', hle', hlt'⟩ := hp.keeps ht
  refine ⟨t', ht', hle.trans hle', fun hm => ?_⟩
  rcases List.mem_append.mp hm with hm | hm
  · exact (hlt hm).trans_le hle'
  · exact hle.trans_lt (hlt' hm).left

theorem Later.prolongs {clock now : Int} {ids : List Int} (h : Later db renewed now)
    (hn : now ≤ clock) (hp : Prolongs clock db db' ids) : Later db' (renewed ++ ids) now := by
  intro id hm
  rcases List.mem_append.mp hm with hm | hm
  · obtain ⟨t, ht, hlt⟩ := h id hm
    obtain ⟨t', ht', hle, _⟩ := hp.keeps ht
    exact ⟨t', ht', hlt.trans_le hle⟩
  · obtain ⟨t, ht⟩ := hp.known id hm
    obtain ⟨t', ht', _, hlt⟩ := hp.keeps ht
    exact ⟨t', ht', hn.trans_lt (hlt hm).right⟩

theorem Phase.Sound.prolongs {phase : Phase} {agents agents' : System} {ids : List Int}
    (h : phase.Sound agents renewed) (hc : agents.clock ≤ agents'.clock)
    (hp : Prolongs agents.clock agents.db agents'.db ids) :
    phase.Sound agents' (renewed ++ ids) := by
  cases phase
  case expiring projectId now             => exact Int.le_trans h hc
  case releasingExpired projectId now _   =>
    exact ⟨Int.le_trans h.left hc, h.right.prolongs h.left hp⟩
  case probing now active todo _ staleIds => exact ⟨h.left.prolongs hp, h.right⟩
  case releasing active staleIds          => exact ⟨h.left.prolongs hp, h.right⟩
  case start | next | detecting | listing | finished => trivial

theorem listed_rows (projectId now : Int) :
    Listed db [] (activeReservationsForStaleCleanup pf projectId now db) := by
  intro row hr
  have hr := List.mem_of_mem_filter ((List.mem_insertionSort _).mp (List.mem_of_mem_filter hr))
  exact ⟨_, Db.expiry_of_mem hr, Int.le_refl _, fun hm => absurd hm List.not_mem_nil⟩

-- A release spares what was renewed if the constraint does not allow its expiry.
theorem Spares.release {constraint : ExpiryConstraint} {ids : List Int} {phase : Phase}
    (h : s.Spares) (hn : ∀ id ∈ ids, id ∈ s.renewed → ¬isEligible pf constraint s.agents.db id) :
    (s.release pf constraint ids phase).Spares where
  reports  := h.reports.append releaseByIds_reports
  renewals := by
    rw [Cleanup.release, h.renewals, List.nil_append, List.filter_eq_nil_iff]
    intro id hm hr
    obtain ⟨hid, he⟩ := releaseByIds_eligible (releaseByIds_reports.mem_iff.mpr hm)
    exact hn id hid (of_decide_eq_true hr) he

theorem Listed.not_eligible (h : Listed db renewed active) (hr : row ∈ active)
    (hm : row.id ∈ renewed) : ¬isEligible pf (.exact row.expiresTs) db row.id := by
  intro he
  obtain ⟨t, ht, _, hlt⟩ := h row hr
  obtain ⟨r, hr, hc⟩ := expiry_of_isEligible he
  have hlt := hlt hm
  rw [ht, Option.some_inj] at hr
  have hc : r.expiresTs = row.expiresTs := of_decide_eq_true hc
  omega

theorem Later.not_eligible {now : Int} (h : Later db renewed now) (hm : id ∈ renewed) :
    ¬isEligible pf (.onOrBefore now) db id := by
  intro he
  obtain ⟨t, ht, hlt⟩ := h id hm
  obtain ⟨r, hr, hc⟩ := expiry_of_isEligible he
  rw [ht, Option.some_inj] at hr
  have hc : r.expiresTs ≤ now := of_decide_eq_true hc
  omega

theorem Sound.work {activity : Activity} (h : s.Sound) (hc : s.phase.Current pf s.agents.db)
    (hw : s.work pf config activity = some s') : s'.Sound := by
  have hs := h.phase
  simp only [Cleanup.work] at hw
  split at hw
  case h_1 =>
    cases hw
    exact { h with phase := trivial }
  case h_2 =>
    split at hw <;> cases hw
    case h_1 => exact { h with phase := trivial }
    case h_2 => exact { h with phase := Int.le_refl _ }
  case h_3 projectId now hp =>
    rw [hp] at hs
    cases hw
    refine { h with phase := ?_ }
    split
    case isTrue  => trivial
    case isFalse => exact ⟨hs, fun _ hm => absurd hm List.not_mem_nil⟩
  case h_4 projectId now ids hp =>
    rw [hp] at hs
    cases hw
    exact ⟨h.toSpares.release fun id _ => hs.right.not_eligible, trivial⟩
  case h_5 =>
    cases hw
    exact { h with phase := trivial }
  case h_6 projectId now hp =>
    cases hw
    refine { h with phase := ?_ }
    dsimp only
    split
    case isTrue  => trivial
    case isFalse => exact ⟨listed_rows projectId now, List.Subset.refl _, List.nil_subset _⟩
  case h_7 now active res todo caches staleIds hp =>
    rw [hp] at hs
    cases hw
    obtain ⟨hl, ht, hi⟩ := hs
    obtain ⟨hres, ht⟩ := List.cons_subset.mp ht
    refine { h with phase := ⟨hl, ht, ?_⟩ }
    split
    case isFalse => exact hi
    case isTrue  =>
      exact List.append_subset.mpr ⟨hi, List.cons_subset.mpr ⟨List.mem_map_of_mem hres,
        List.nil_subset _⟩⟩
  case h_8 now active caches staleIds hp =>
    rw [hp] at hs
    cases hw
    refine { h with phase := ?_ }
    dsimp only
    split
    case isTrue  => trivial
    case isFalse => exact ⟨hs.left, hs.right.right⟩
  case h_9 active staleIds hp =>
    rw [hp] at hs hc
    cases hw
    refine ⟨h.toSpares.release fun id hid hm he => ?_, trivial⟩
    obtain ⟨row, hr, rfl⟩ := List.mem_map.mp (hs.right hid)
    exact hs.left.not_eligible hr hm (hc row hr hid (hasActive_of_isEligible he))
  case h_10 => cases hw

theorem step_sound (h : s.Sound) (hc : s.Undisturbed pf e) (hs : s.step pf config e = some s') :
    s'.Sound := by
  cases e
  case work activity => exact h.work hc hs
  case fail =>
    cases hs
    refine { h with phase := ?_ }
    dsimp only
    cases s.phase <;> trivial
  case agent e =>
    obtain ⟨agents, ha, hs⟩ := Option.map_eq_some_iff.mp hs
    cases hs
    refine { h with
      phase := h.phase.prolongs (System.clock_step ha) (System.step_prolongs ha fun c he => ?_) }
    subst he
    exact hc

theorem spares_of_undisturbed {clock : Int} {es : List Event}
    (hc : Along (step pf config) (Undisturbed pf) (init db clock) es)
    (h : run (step pf config) (init db clock) es = some s) : s.Spares :=
  (Run.invariant_along step_sound (sound_init db clock) hc h).toSpares

-- Agent 7 is idle for longer than half an hour and then renews its reservation, after it was found
-- to be idle.
def renewedLate : List Event :=
  [.agent (.begin (.create ⟨1, 7, ["src".toList], 3600, true, []⟩)), .agent (.advance 0),
    .agent (.tick 2000000000)] ++
    List.replicate 5 (.work ⟨none, none, false⟩) ++
      [.work ⟨some ⟨0, 0⟩, none, false⟩, .work ⟨none, none, false⟩,
    .agent (.begin (.renew ⟨1, 7, 3600, ⟨none, none⟩⟩)), .agent (.advance 1),
      .work ⟨none, none, false⟩]

theorem not_spares_renewedLate : ∃ s,
    run (step ⟨.wildcard, false, fun _ => 0⟩ ⟨1800000000, 900000000⟩) (init .empty 0) renewedLate =
      some s ∧ ¬s.Spares := by
  have hrun : (run (step ⟨.wildcard, false, fun _ => 0⟩ ⟨1800000000, 900000000⟩)
      (init .empty 0) renewedLate).map
      Cleanup.takenBack = some [1] := by decide +kernel
  obtain ⟨s, h, ht⟩ := Option.map_eq_some_iff.mp hrun
  refine ⟨s, h, fun hs => ?_⟩
  rw [hs.renewals] at ht
  cases ht

-- Agent 7 is idle and loses its reservation, while agent 8 renews another one.
def renewedElsewhere : List Event :=
  [.agent (.begin (.create ⟨1, 7, ["src".toList], 3600, true, []⟩)), .agent (.advance 0),
    .agent (.begin (.create ⟨1, 8, ["docs".toList], 3600, true, []⟩)), .agent (.advance 1),
    .agent (.tick 2000000000)] ++
    List.replicate 5 (.work ⟨none, none, false⟩) ++ [.work ⟨some ⟨0, 0⟩, none, false⟩,
    .work ⟨some ⟨0, 1900000000⟩, none, false⟩, .work ⟨none, none, false⟩,
    .agent (.begin (.renew ⟨1, 8, 3600, ⟨none, none⟩⟩)), .agent (.advance 2),
    .work ⟨none, none, false⟩]

theorem spares_of_undisturbed_renewedElsewhere : ∃ s,
    run (step ⟨.wildcard, false, fun _ => 0⟩ ⟨1800000000, 900000000⟩)
      (init .empty 0) renewedElsewhere = some s ∧
      s.renewed = [2] ∧ s.reported = [1] ∧ s.Spares := by
  have hrun : (run (step ⟨.wildcard, false, fun _ => 0⟩ ⟨1800000000, 900000000⟩)
      (init .empty 0) renewedElsewhere).map
      (fun s => (s.renewed, s.reported)) = some ([2], [1]) := by decide +kernel
  obtain ⟨s, h, hs⟩ := Option.map_eq_some_iff.mp hrun
  obtain ⟨hrenewed, hreported⟩ := Prod.mk.inj hs
  exact ⟨s, h, hrenewed, hreported, spares_of_undisturbed (by decide +kernel) h⟩

end Cleanup

end Reservation
