import AgentMail.Experience.Theorems.Basic

namespace Experience

open ExperienceState

variable {d : Decoder} {store store' : Store} {id : Nat} {e : Event} {req : TransitionRequest}
  {stored decoded row row' : ExperienceRow} {outcome : ExperienceOutcome}

namespace ExperienceRow

theorem Follows.refl (row : ExperienceRow) : row.Follows row where
  transition := validateTransition_self
  terminal   := fun _ => rfl
  dispatched := fun _ h => h
  executed   := fun _ h => h
  resolved   := fun _ h => h

theorem opened_of_resolved (h : validateTransition row.state resolved = .ok ())
    (hne : row.state ≠ resolved) : row.state = opened := by
  cases hs : row.state <;> simp_all [validateTransition]

theorem dispatchedTsMicros_moved {ts : Int} (h : row.dispatchedTsMicros = some ts) :
    (row.moved req).dispatchedTsMicros = some ts := by
  rw [moved, setReason, stamp.eq_def]
  split <;> cases req.newState <;> simp [h]

theorem executedTsMicros_moved {ts : Int} (h : row.executedTsMicros = some ts) :
    (row.moved req).executedTsMicros = some ts := by
  rw [moved, setReason, stamp.eq_def]
  split <;> cases req.newState <;> simp [h]

theorem resolvedTsMicros_moved {ts : Int} (h : row.resolvedTsMicros = some ts) :
    (row.moved req).resolvedTsMicros = some ts := by
  rw [moved, setReason, stamp.eq_def]
  split <;> cases req.newState <;> simp [h]

theorem follows_transition (hd : d.decode stored = .ok decoded)
    (ht : decoded.transition id req = .ok row) : stored.Follows (row.write stored) := by
  have ⟨hs, _, hdis, hex, hres⟩ := d.lifecycle hd
  have ⟨hv, _, _, context, _, he⟩ := transition_eq_ok_iff.mp ht
  subst he
  have hstate : (decoded.moved req).state = req.newState := by simp [moved]
  constructor
  case transition => exact (congrArg₂ validateTransition hs.symm hstate).trans hv
  case terminal   => exact fun ht => hstate.trans (eq_of_terminal ht (hs ▸ hv))
  case dispatched => exact fun ts h => dispatchedTsMicros_moved (hdis.trans h)
  case executed   => exact fun ts h => executedTsMicros_moved (hex.trans h)
  case resolved   => exact fun ts h => resolvedTsMicros_moved (hres.trans h)

theorem reason_transition (hl : stored.Lifecycle) (hd : d.decode stored = .ok decoded)
    (ht : decoded.transition id req = .ok row) :
    (row.write stored).nonExecutionReason.isSome ↔ (row.write stored).state.isNonExecution := by
  have ⟨hs, hr, _⟩ := d.lifecycle hd
  have ⟨_, _, hreq, context, _, he⟩ := transition_eq_ok_iff.mp ht
  subst he
  have hstate : (decoded.moved req).state = req.newState := by simp [moved]
  change (decoded.moved req).nonExecutionReason.isSome ↔ (decoded.moved req).state.isNonExecution
  rw [hstate, moved, setReason]
  by_cases hn : req.newState.isNonExecution
  case neg => simp [hn]
  case pos =>
    rw [if_pos hn, nonExecutionReason_stamp, Option.isSome_or, Bool.or_eq_true, iff_true_right hn]
    by_cases hst : decoded.state = req.newState
    case neg => exact .inl (hreq hn hst)
    case pos =>
      refine .inr (hr ▸ hl.reason_iff.mpr ?_)
      rwa [← hs, hst]

theorem outcome_transition (hl : stored.Lifecycle) (hd : d.decode stored = .ok decoded)
    (ht : decoded.transition id req = .ok row) :
    ((row.write stored).outcome.isSome ↔ (row.write stored).state = resolved) ↔
      ¬(stored.state = opened ∧ req.newState = resolved) := by
  have ⟨hs, _⟩ := d.lifecycle hd
  have ⟨hv, _, _, context, _, he⟩ := transition_eq_ok_iff.mp ht
  subst he
  have hstate : (decoded.moved req).state = req.newState := by simp [moved]
  change (stored.outcome.isSome ↔ (decoded.moved req).state = resolved) ↔ _
  rw [hstate, hl.outcome_iff]
  rw [hs] at hv
  by_cases hr : req.newState = resolved
  case pos =>
    rw [hr] at hv
    refine ⟨fun h ⟨ho, _⟩ => ?_, fun h => iff_of_true ?_ hr⟩
    · exact nomatch ho.symm.trans (h.mpr hr)
    · by_contra hne
      exact h ⟨opened_of_resolved hv hne, hr⟩
  case neg =>
    have hne : stored.state ≠ resolved := fun h => hr ((eq_of_terminal (h ▸ rfl) hv).trans h)
    simp [hr, hne]

theorem follows_resolveWith (hs : stored.state = opened)
    (ht : ∀ ts, stored.resolvedTsMicros = some ts → ts = outcome.observedTsMicros) :
    stored.Follows (stored.resolveWith outcome) where
  transition := by rw [hs]; rfl
  terminal   := fun h => nomatch hs ▸ h
  dispatched := fun _ h => h
  executed   := fun _ h => h
  resolved   := fun ts h => congrArg some (ht ts h).symm

theorem lifecycle_resolveWith (hl : stored.Lifecycle) (hs : stored.state = opened) :
    (stored.resolveWith outcome).Lifecycle where
  reason_iff  := by
    have hr : ¬stored.nonExecutionReason.isSome := fun h => nomatch hs ▸ hl.reason_iff.mp h
    exact iff_of_false hr nofun
  outcome_iff := iff_of_true rfl rfl

end ExperienceRow

section Step

theorem get?_transition {eid : Nat} {faults : Faults}
    (h : transitionAtcExperience d store eid req faults = .ok store')
    (hr : store.get? id = some stored) : eid ≠ id ∧ store'.get? id = some stored ∨
    eid = id ∧ ∃ decoded row, d.decode stored = .ok decoded ∧ decoded.transition id req = .ok row ∧
      store'.get? id = some (row.write stored) := by
  have hk := (Table.get?_eq_some_iff.mp hr).right
  have ⟨_, _, stored', decoded, row, hr', hd, ht, hs⟩ := transitionAtcExperience_eq_ok_iff.mp h
  have hg : store'.get? id = some (if stored.experienceId = eid then row.write stored
      else stored) := by
    rw [hs, Table.get?_update, hr, Option.map_some]
    simp only [decide_eq_true_eq]
  rw [hk] at hg
  by_cases he : eid = id
  case neg => exact .inl ⟨he, by simpa [Ne.symm he] using hg⟩
  case pos =>
    subst he
    cases hr.symm.trans hr'
    exact .inr ⟨rfl, decoded, row, hd, ht, by simpa using hg⟩

theorem get?_resolve {eid : Nat} {faults : Faults}
    (h : resolveAtcExperience store eid outcome faults = .ok store')
    (hr : store.get? id = some stored) :
    (eid = id → stored.state ≠ opened) ∧ store'.get? id = some stored ∨
    eid = id ∧ stored.state = opened ∧ store'.get? id = some (stored.resolveWith outcome) := by
  have hk := (Table.get?_eq_some_iff.mp hr).right
  have ⟨_, _, hs⟩ := resolveAtcExperience_eq_ok_iff.mp h
  have hg : store'.get? id =
      some (if stored.experienceId = eid ∧ stored.state = opened then stored.resolveWith outcome
        else stored) := by
    rw [hs, Table.get?_update, hr, Option.map_some]
    simp only [decide_eq_true_eq]
  rw [hk] at hg
  by_cases he : id = eid ∧ stored.state = opened
  case pos => exact .inr ⟨he.left.symm, he.right, by simpa [he] using hg⟩
  case neg => exact .inl ⟨fun hid ho => he ⟨hid.symm, ho⟩, by simpa [he] using hg⟩

theorem step_of_ok (h : transaction d store e = .ok store') : step d store e = some store' := by
  rw [step, h]

-- A failed transaction leaves the store as it is.
theorem step_of_error {error : DbError} (h : transaction d store e = .error error) :
    step d store e = some store := by
  rw [step, h]

theorem meets_of_stepHolds (hr : store.get? id = some stored) (hl : stored.Lifecycle)
    (h : StepHolds d id store e) : Meets d id store e := by
  intro hid
  constructor
  case left =>
    intro ⟨row, decoded, req, hc, hr', ho, hn, hreq, hlt, hf, hd, context, hm⟩
    cases hr.symm.trans hr'
    have ht : decoded.transition id req = .ok { decoded.moved req with context := context } := by
      refine ExperienceRow.transition_eq_ok_iff.mpr ⟨?_, by simp [hreq],
        by simp [hn, isNonExecution], context, hm, rfl⟩
      rw [(d.lifecycle hd).left, ho, hn]
      rfl
    have ⟨store', htx⟩ : ∃ store', transitionAtcExperience d store id req e.faults = .ok store' :=
      ⟨_, transitionAtcExperience_eq_ok_iff.mpr ⟨hlt, hf, stored, decoded, _, hr, hd, ht, rfl⟩⟩
    have hstep : step d store e = some store' := step_of_ok (by simp [transaction, hc, hid, htx])
    cases get?_transition htx hr
    case inl h' => exact h'.left rfl
    case inr h' =>
      have ⟨_, decoded', row', hd', ht', hr''⟩ := h'
      cases hd.symm.trans hd'
      cases ht.symm.trans ht'
      have ⟨_, hl'⟩ := h.follows store' stored _ hstep hr hr''
      exact ((ExperienceRow.outcome_transition hl hd ht).mp hl'.outcome_iff) ⟨ho, hn⟩
  case right =>
    intro ⟨row, outcome, hc, hr', hlt, hf, hs⟩
    cases hr.symm.trans hr'
    have ⟨store', htx⟩ : ∃ store', resolveAtcExperience store id outcome e.faults = .ok store' :=
      ⟨_, resolveAtcExperience_eq_ok_iff.mpr ⟨hlt, hf, rfl⟩⟩
    have htx' : transaction d store e = .ok store' := by simp [transaction, hc, hid, htx]
    cases get?_resolve htx hr
    case inl h' =>
      have ⟨hno, hr'⟩ := h'
      have ⟨row, hrow, hres⟩ := h.resolve_ok store' outcome hid hc htx'
      cases hr'.symm.trans hrow
      cases hs
      case inl hs => exact hs.right hres
      case inr hs => exact hno rfl hs.left
    case inr h' =>
      have ⟨_, ho, hr''⟩ := h'
      cases hs
      case inl hs => exact hs.left ho
      case inr hs =>
        have ⟨_, ts, hts, hne⟩ := hs
        have hf := (h.follows store' stored _ (step_of_ok htx') hr hr'').left.resolved ts hts
        exact hne (Option.some.inj hf).symm

theorem follows_of_transition (hr : store.get? id = some stored) (hl : stored.Lifecycle)
    (h : Meets d id store e) (hc : e.call = .transition req) (hr' : store'.get? id = some row)
    (htx : transitionAtcExperience d store e.experienceId req e.faults = .ok store') :
    stored.Follows row ∧ row.Lifecycle := by
  cases get?_transition htx hr
  case inl hs =>
    cases hs.right.symm.trans hr'
    exact ⟨.refl _, hl⟩
  case inr hs =>
    have ⟨hid, decoded, _, hd, ht, hs⟩ := hs
    cases hs.symm.trans hr'
    refine ⟨ExperienceRow.follows_transition hd ht, ExperienceRow.reason_transition hl hd ht, ?_⟩
    refine (ExperienceRow.outcome_transition hl hd ht).mpr fun ⟨ho, hn⟩ => (h hid).left ?_
    have ⟨hlt, hf, _⟩ := transitionAtcExperience_eq_ok_iff.mp htx
    have ⟨_, hreq, _, context, hm, _⟩ := ExperienceRow.transition_eq_ok_iff.mp ht
    have hreq : req.nonExecutionReason = none := by
      by_contra hne
      exact nomatch hn ▸ hreq (Option.isSome_iff_ne_none.mpr hne)
    exact ⟨stored, decoded, req, hc, hr, ho, hn, hreq, hid ▸ hlt, hf, hd, context, hm⟩

theorem follows_of_resolve (hr : store.get? id = some stored) (hl : stored.Lifecycle)
    (h : Meets d id store e) (hc : e.call = .resolve outcome) (hr' : store'.get? id = some row)
    (htx : resolveAtcExperience store e.experienceId outcome e.faults = .ok store') :
    stored.Follows row ∧ row.Lifecycle := by
  cases get?_resolve htx hr
  case inl hs =>
    cases hs.right.symm.trans hr'
    exact ⟨.refl _, hl⟩
  case inr hs =>
    have ⟨hid, ho, hs⟩ := hs
    cases hs.symm.trans hr'
    refine ⟨ExperienceRow.follows_resolveWith ho fun ts hts => ?_,
      ExperienceRow.lifecycle_resolveWith hl ho⟩
    by_contra hne
    have ⟨hlt, hf, _⟩ := resolveAtcExperience_eq_ok_iff.mp htx
    exact (h hid).right ⟨stored, outcome, hc, hr, hid ▸ hlt, hf, .inr ⟨ho, ts, hts, hne⟩⟩

theorem stepHolds_of_meets (hr : store.get? id = some stored) (hl : stored.Lifecycle)
    (h : Meets d id store e) : StepHolds d id store e := by
  constructor
  case err_same =>
    intro error store' htx hstep
    exact Option.some.inj (hstep.symm.trans (step_of_error htx))
  case resolve_ok =>
    intro store' outcome hid hc htx
    have htx : resolveAtcExperience store id outcome e.faults = .ok store' := by
      simpa [transaction, hc, hid] using htx
    have ⟨hlt, hf, _⟩ := resolveAtcExperience_eq_ok_iff.mp htx
    cases get?_resolve htx hr
    case inr hr' => exact ⟨_, hr'.right.right, rfl⟩
    case inl hr' =>
      refine ⟨stored, hr'.right, ?_⟩
      by_contra hne
      exact (h hid).right ⟨stored, outcome, hc, hr, hlt, hf, .inl ⟨hr'.left rfl, hne⟩⟩
  case follows =>
    intro store' row row' hstep hrow hrow'
    cases hr.symm.trans hrow
    cases htx : transaction d store e
    case error error =>
      cases hstep.symm.trans (step_of_error htx)
      cases hr.symm.trans hrow'
      exact ⟨.refl _, hl⟩
    case ok =>
      cases hstep.symm.trans (step_of_ok htx)
      cases hc : e.call
      case transition req =>
        exact follows_of_transition hr hl h hc hrow' (by simpa [transaction, hc] using htx)
      case resolve outcome =>
        exact follows_of_resolve hr hl h hc hrow' (by simpa [transaction, hc] using htx)

theorem exists_get?_step (hr : store.get? id = some stored) (h : step d store e = some store') :
    ∃ row, store'.get? id = some row := by
  cases htx : transaction d store e
  case error =>
    cases h.symm.trans (step_of_error htx)
    exact ⟨stored, hr⟩
  case ok =>
    cases h.symm.trans (step_of_ok htx)
    cases hc : e.call
    case transition req =>
      cases get?_transition (by simpa [transaction, hc] using htx) hr
      case inl h => exact ⟨_, h.right⟩
      case inr h =>
        have ⟨_, _, _, _, _, h⟩ := h
        exact ⟨_, h⟩
    case resolve outcome =>
      cases get?_resolve (by simpa [transaction, hc] using htx) hr
      case inl h => exact ⟨_, h.right⟩
      case inr h => exact ⟨_, h.right.right⟩

end Step

theorem along_iff {events : List Event} (hr : store.get? id = some row) (hl : row.Lifecycle) :
    Along (step d) (StepHolds d id) store events ↔ Along (step d) (Meets d id) store events := by
  induction events generalizing store row
  case nil => exact Iff.rfl
  case cons e es hi =>
    have hs : StepHolds d id store e ↔ Meets d id store e :=
      ⟨meets_of_stepHolds hr hl, stepHolds_of_meets hr hl⟩
    refine and_congr_right_iff.mpr ?_ |>.trans (and_congr_left' hs)
    intro h
    refine forall₂_congr fun store' hstep => ?_
    have ⟨row', hr'⟩ := exists_get?_step hr hstep
    exact hi hr' (h.follows store' row row' hstep hr hr').right

theorem lifecycle_iff (d : Decoder) (id : Nat) (store : Store) (events : List Event)
    (row : ExperienceRow) (hr : store.get? id = some row) (hp : row.state = planned) :
    Holds d id store events ↔
      row.nonExecutionReason = none ∧ row.outcome = none ∧
        Along (step d) (Meets d id) store events := by
  have hl : (∀ row, store.get? id = some row → row.Lifecycle) ↔ row.nonExecutionReason = none ∧
      row.outcome = none := by
    constructor
    case mp =>
      intro h
      have hl := h row hr
      exact ⟨by simpa [hp, isNonExecution] using hl.reason_iff, by simpa [hp] using hl.outcome_iff⟩
    case mpr =>
      intro ⟨hreason, hout⟩ row' hr'
      cases hr.symm.trans hr'
      exact ⟨by simp [hreason, hp, isNonExecution], by simp [hout, hp]⟩
  rw [Holds, ← and_assoc, ← hl]
  exact and_congr_right fun h => along_iff hr (h row hr)

section Sample

def sampleDecoder : Decoder where
  decode    := .ok
  lifecycle := by
    intro stored row h
    cases h
    exact ⟨rfl, rfl, rfl, rfl, rfl⟩

def sampleRow : ExperienceRow where
  experienceId       := 1
  state              := planned
  nonExecutionReason := none
  outcome            := none
  dispatchedTsMicros := none
  executedTsMicros   := none
  resolvedTsMicros   := none
  context            := none

def storeOf (row : ExperienceRow) : Store where
  rows  := [row]
  nodup := List.nodup_singleton _

def sampleTransition (newState : ExperienceState) (tsMicros : Int) : Event where
  experienceId := 1
  call         :=
    .transition { newState, tsMicros, nonExecutionReason := none, contextPatch := none }
  faults       := fun _ => none

def sampleResolve : Event where
  experienceId := 1
  call         := .resolve ⟨5, [], true, none, none, none⟩
  faults       := fun _ => none

def sampleRun : List Event :=
  [sampleTransition dispatched 1, sampleTransition executed 2, sampleTransition opened 3]

theorem lifecycle_iff_planned :
    (storeOf sampleRow).get? 1 = some sampleRow ∧ sampleRow.state = planned ∧
    (Holds sampleDecoder 1 (storeOf sampleRow) (sampleRun ++ [sampleResolve]) ↔
      sampleRow.nonExecutionReason = none ∧ sampleRow.outcome = none ∧
      Along (step sampleDecoder) (Meets sampleDecoder 1) (storeOf sampleRow)
        (sampleRun ++ [sampleResolve])) :=
  ⟨rfl, rfl, lifecycle_iff sampleDecoder 1 (storeOf sampleRow)
    (sampleRun ++ [sampleResolve]) sampleRow rfl rfl⟩

-- The transition to the resolved state stores no outcome, and resolving a planned row does nothing
-- but succeeds.
theorem not_holds_bareOrPlanned :
    ¬Holds sampleDecoder 1 (storeOf sampleRow) (sampleRun ++ [sampleTransition resolved 4]) ∧
    ¬Holds sampleDecoder 1 (storeOf sampleRow) [sampleResolve] := by
  constructor
  case left =>
    let row₁ := { sampleRow with state := dispatched, dispatchedTsMicros := some 1 }
    let row₂ := { row₁ with state := executed, executedTsMicros := some 2 }
    let row₃ := { row₂ with state := opened }
    let row₄ := { row₃ with state := resolved, resolvedTsMicros := some 4 }
    have h₁ : step sampleDecoder (storeOf sampleRow) (sampleTransition dispatched 1) =
        some (storeOf row₁) := rfl
    have h₂ : step sampleDecoder (storeOf row₁) (sampleTransition executed 2) =
        some (storeOf row₂) := rfl
    have h₃ : step sampleDecoder (storeOf row₂) (sampleTransition opened 3) = some (storeOf row₃) :=
      rfl
    have h₄ : step sampleDecoder (storeOf row₃) (sampleTransition resolved 4) =
        some (storeOf row₄) := rfl
    intro ⟨_, _, h⟩
    have ⟨_, h⟩ := h _ h₁
    have ⟨_, h⟩ := h _ h₂
    have ⟨h, _⟩ := h _ h₃
    have ⟨_, hl⟩ := h.follows (storeOf row₄) row₃ row₄ h₄ rfl rfl
    exact nomatch hl.outcome_iff.mpr rfl
  case right =>
    intro ⟨_, h, _⟩
    have ht : transaction sampleDecoder (storeOf sampleRow) sampleResolve =
        .ok (storeOf sampleRow) := rfl
    have ⟨row, hr, hs⟩ := h.resolve_ok (storeOf sampleRow) _ rfl rfl ht
    cases hr
    exact nomatch hs

end Sample

end Experience
