import AgentMail.Fairness.Basic
import Mathlib.Algebra.GroupWithZero.Nat
import Mathlib.Algebra.Order.BigOperators.Group.List
import Mathlib.Algebra.Order.Group.Nat
import Mathlib.Data.List.Induction

open Pattern (Str)

namespace Fairness

variable {s : FairnessSnapshot} {steps : List FairnessStep} {step : FairnessStep}
  {event : FairnessEvent} {id : Str} {newRegimeId discountBp : Nat}

namespace FairnessSnapshot

theorem after_append : s.after (steps ++ [step]) = (s.after steps).step step := by
  simp [after]

theorem record_of_ne (h : event.target.scope ≠ s.scope) : s.record event = s :=
  if_pos h

@[simp]
theorem scope_record : (s.record event).scope = s.scope := by
  unfold record
  split <;> rfl

@[simp]
theorem metric_record : (s.record event).metric = s.metric := by
  unfold record
  split <;> rfl

@[simp]
theorem scope_applyRegimeShift : (s.applyRegimeShift newRegimeId discountBp).scope = s.scope := by
  unfold applyRegimeShift
  split <;> rfl

@[simp]
theorem metric_applyRegimeShift :
    (s.applyRegimeShift newRegimeId discountBp).metric = s.metric := by
  unfold applyRegimeShift
  split <;> rfl

@[simp]
theorem scope_after : (s.after steps).scope = s.scope := by
  induction steps using List.reverseRecOn
  case nil => rfl
  case append_singleton steps step hi =>
    cases step <;> simp [after_append, FairnessSnapshot.step, hi]

@[simp]
theorem metric_after : (s.after steps).metric = s.metric := by
  induction steps using List.reverseRecOn
  case nil => rfl
  case append_singleton steps step hi =>
    cases step <;> simp [after_append, FairnessSnapshot.step, hi]

def mark (s : FairnessSnapshot) (field : TargetFairnessState → Option Int) (id : Str) :
    Option Int :=
  (s.targets.get? id).bind (field ·.2)

section Mark

-- A mark is the time of the last event of one kind.
variable {field : TargetFairnessState → Option Int} {records : FairnessEventKind → Bool}
  (hrecord : ∀ state kind points now,
    field (TargetFairnessState.record state kind points now) = if records kind then some now
      else field state)
  (hdiscount : ∀ state discountBp, field (TargetFairnessState.discount state discountBp) =
      field state)
  (hnew : ∀ now, field (.new now) = none)

include hrecord hnew in
theorem mark_record (h : event.target.scope = s.scope) :
    (s.record event).mark field id =
      if event.target.id = id ∧ records event.kind then some event.observedTsMicros
        else s.mark field id := by
  unfold record mark
  rw [if_neg (not_not.mpr h), Table.get?_modifyOrInsert]
  by_cases hid : event.target.id = id
  case neg => simp [hid]
  case pos =>
    cases s.targets.get? id <;> simp [hid, hrecord, hnew]

include hdiscount in
theorem mark_applyRegimeShift : (s.applyRegimeShift newRegimeId discountBp).mark field id =
    s.mark field id := by
  unfold applyRegimeShift mark
  split
  case isTrue  => rfl
  case isFalse =>
    rw [Table.get?_update]
    cases s.targets.get? id <;> simp [hdiscount]

end Mark

end FairnessSnapshot

section Latest

-- The last time at which something is so, if there is one.
def Latest (o : Option Int) (p : Int → Prop) : Prop :=
  (∀ t, o = some t → p t) ∧ ∀ t, p t → ∃ u, o = some u ∧ t ≤ u

theorem Latest.congr {o : Option Int} {p q : Int → Prop} (h : Latest o p) (hq : ∀ t, q t ↔ p t) :
    Latest o q :=
  funext (fun t => propext (hq t)) ▸ h

variable {records : FairnessEventKind → Bool} {scope : FairnessScope} {metric : FairnessMetric}
  {regime : Nat} {t : Int}

theorem notes_append :
    Notes records scope (steps ++ [step]) id t ↔
      Notes records scope steps id t ∨
      ∃ event, step = .record event ∧ event.target = ⟨scope, id⟩ ∧ records event.kind ∧
        event.observedTsMicros = t := by
  simp only [Notes, List.mem_append, List.mem_singleton, or_and_right, exists_or,
    eq_comm (a := step)]

theorem notes_append_iff
    (h : ∀ event, step = .record event → ¬(event.target = ⟨scope, id⟩ ∧ records event.kind)) :
    Notes records scope (steps ++ [step]) id t ↔ Notes records scope steps id t := by
  refine notes_append.trans (or_iff_left ?_)
  intro ⟨event, he, ht, hr, _⟩
  exact h event he ⟨ht, hr⟩

theorem mem_ts_of_notes (h : Notes records scope steps id t) :
    t ∈ steps.filterMap FairnessStep.ts? := by
  have ⟨event, he, _, _, ht⟩ := h
  exact List.mem_filterMap.mpr ⟨.record event, he, congrArg some ht⟩

theorem ordered_append (h : ((steps ++ [step]).filterMap FairnessStep.ts?).Pairwise (· ≤ ·)) :
    (steps.filterMap FairnessStep.ts?).Pairwise (· ≤ ·) ∧
    ∀ event, step = .record event → ∀ t ∈ steps.filterMap FairnessStep.ts?,
      t ≤ event.observedTsMicros := by
  rw [List.filterMap_append, List.pairwise_append] at h
  refine ⟨h.left, ?_⟩
  rintro event rfl t ht
  exact h.right.right t ht _ (List.mem_singleton_self _)

variable {field : TargetFairnessState → Option Int}
  (hrecord : ∀ state kind points now,
    field (TargetFairnessState.record state kind points now) = if records kind then some now
      else field state)
  (hdiscount : ∀ state discountBp, field (TargetFairnessState.discount state discountBp) =
      field state)
  (hnew : ∀ now, field (.new now) = none)

include hrecord hdiscount hnew in
theorem latest_mark (h : (steps.filterMap FairnessStep.ts?).Pairwise (· ≤ ·)) :
    Latest (((FairnessSnapshot.new scope metric regime).after steps).mark field id)
      (Notes records scope steps id) := by
  induction steps using List.reverseRecOn
  case nil =>
    constructor
    case left =>
      intro t ht
      cases ht
    case right =>
      intro t ⟨_, h, _⟩
      cases h
  case append_singleton steps step hi =>
    have ⟨hsteps, hle⟩ := ordered_append h
    have hi := hi hsteps
    have hscope : ((FairnessSnapshot.new scope metric regime).after steps).scope = scope :=
      FairnessSnapshot.scope_after
    rw [FairnessSnapshot.after_append]
    cases step
    case applyRegimeShift =>
      rw [FairnessSnapshot.step, FairnessSnapshot.mark_applyRegimeShift hdiscount]
      exact hi.congr fun t => notes_append_iff fun _ h => FairnessStep.noConfusion h
    case record event =>
      rw [FairnessSnapshot.step]
      by_cases hs : event.target.scope = scope
      case neg =>
        rw [FairnessSnapshot.record_of_ne (hscope.symm ▸ hs)]
        refine hi.congr fun t => notes_append_iff ?_
        rintro _ ⟨⟩ ⟨ht, _⟩
        exact hs (congrArg FairnessTarget.scope ht)
      case pos =>
        rw [FairnessSnapshot.mark_record hrecord hnew (hs.trans hscope.symm)]
        split
        case isFalse hn =>
          refine hi.congr fun t => notes_append_iff ?_
          rintro _ ⟨⟩ ⟨ht, hr⟩
          exact hn ⟨congrArg FairnessTarget.id ht, hr⟩
        case isTrue hr =>
          constructor
          case left =>
            rintro _ ⟨⟩
            exact notes_append.mpr (.inr ⟨event, rfl, by rw [← hs, ← hr.left], hr.right, rfl⟩)
          case right =>
            intro t ht
            refine ⟨_, rfl, ?_⟩
            cases notes_append.mp ht
            case inl ht => exact hle event rfl t (mem_ts_of_notes ht)
            case inr ht =>
              obtain ⟨_, ⟨⟩, _, _, rfl⟩ := ht
              exact Int.le_refl _

end Latest

section Total

namespace TargetFairnessState

variable {state : TargetFairnessState}

theorem burdenPoints_discount_le (h : discountBp ≤ 10000) :
    (state.discount discountBp).burdenPoints ≤ state.burdenPoints :=
  calc
    _ ≤ state.burdenPoints * discountBp / 10000 := Nat.div_le_div_right (U64.saturate_le _)
    _ ≤ state.burdenPoints * 10000 / 10000      := Nat.div_le_div_right (Nat.mul_le_mul_left _ h)
    _ = state.burdenPoints                      := Nat.mul_div_cancel _ (by decide)

end TargetFairnessState

theorem foldl_saturate {rows : List (Str × TargetFairnessState)} {total : Nat}
    (h : total + (rows.map (·.2.burdenPoints)).sum < 2 ^ 64) :
    rows.foldl (fun total row => U64.saturate (total + row.2.burdenPoints)) total =
      total + (rows.map (·.2.burdenPoints)).sum := by
  induction rows generalizing total
  case nil => rfl
  case cons row rows hi =>
    rw [List.map_cons, List.sum_cons, ← Nat.add_assoc] at h ⊢
    rw [List.foldl_cons, U64.saturate_of_lt (Nat.lt_of_le_of_lt (Nat.le_add_right ..) h), hi h]

namespace FairnessSnapshot

def burdens (s : FairnessSnapshot) : List Nat :=
  s.targets.rows.map (·.2.burdenPoints)

theorem sum_record (hs : event.target.scope = s.scope)
    (h : s.burdens.sum + event.kind.burdenPoints s.metric < 2 ^ 64) :
    (s.record event).burdens.sum = s.burdens.sum + event.kind.burdenPoints s.metric := by
  unfold record
  rw [if_neg (not_not.mpr hs)]
  unfold burdens at h ⊢
  dsimp only
  unfold Table.modifyOrInsert
  split
  case isTrue =>
    rw [Table.insert, List.map_append, List.sum_append_nat, List.map_singleton, List.sum_singleton]
    simp only [TargetFairnessState.record, TargetFairnessState.new, Nat.zero_add]
    rw [U64.saturate_of_lt (Nat.lt_of_le_of_lt (Nat.le_add_left ..) h)]
  case isFalse hn =>
    obtain ⟨row, hrow⟩ := Option.ne_none_iff_exists'.mp hn
    have hsum := ((s.targets.perm_of_get? hrow).map (·.2.burdenPoints)).sum_nat
    rw [((Table.perm_update hrow).map _).sum_nat, hsum]
    rw [hsum] at h
    simp only [List.map_cons, List.sum_cons, Prod.map_snd, TargetFairnessState.record] at h ⊢
    rw [U64.saturate_of_lt (by omega)]
    omega

theorem sum_applyRegimeShift_le (h : discountBp ≤ 10000) :
    (s.applyRegimeShift newRegimeId discountBp).burdens.sum ≤ s.burdens.sum := by
  unfold applyRegimeShift
  split
  case isTrue  => exact Nat.le_refl _
  case isFalse =>
    simp only [burdens, Table.update, if_true, List.map_map]
    refine List.sum_le_sum fun row _ => ?_
    exact TargetFairnessState.burdenPoints_discount_le h

-- The total is the sum of the burdens.
structure Totaled (s : FairnessSnapshot) : Prop where
  eq_sum : s.totalBurdenPoints = s.burdens.sum
  lt     : s.totalBurdenPoints < 2 ^ 64

theorem Totaled.record (ht : s.Totaled)
    (h : s.totalBurdenPoints + event.kind.burdenPoints s.metric < 2 ^ 64) :
    (s.record event).Totaled := by
  by_cases hs : event.target.scope = s.scope
  case neg =>
    rw [record_of_ne hs]
    exact ht
  case pos =>
    have htotal : (s.record event).totalBurdenPoints =
        s.totalBurdenPoints + event.kind.burdenPoints s.metric := by
      unfold FairnessSnapshot.record
      rw [if_neg (not_not.mpr hs)]
      exact U64.saturate_of_lt h
    constructor
    case eq_sum => rw [htotal, sum_record hs (ht.eq_sum ▸ h), ht.eq_sum]
    case lt     => rwa [htotal]

theorem Totaled.applyRegimeShift (ht : s.Totaled) (h : discountBp ≤ 10000) :
    (s.applyRegimeShift newRegimeId discountBp).Totaled := by
  have hle : (s.applyRegimeShift newRegimeId discountBp).burdens.sum ≤ s.burdens.sum :=
    sum_applyRegimeShift_le h
  rw [← ht.eq_sum] at hle
  unfold FairnessSnapshot.applyRegimeShift at hle ⊢
  split_ifs with hr
  case pos => exact ht
  case neg =>
    rw [if_neg hr] at hle
    have hlt := Nat.lt_of_le_of_lt hle ht.lt
    have hfold := foldl_saturate ((Nat.zero_add _).trans_lt hlt)
    rw [Nat.zero_add] at hfold
    exact ⟨hfold, hfold.trans_lt hlt⟩

end FairnessSnapshot

theorem Regular.of_append (h : Regular s (steps ++ [step])) : Regular s steps where
  ordered   := (ordered_append h.ordered).left
  discounts := fun newRegimeId discountBp hm =>
    h.discounts newRegimeId discountBp (List.mem_append_left _ hm)
  fits      := fun pre event hp => h.fits pre event (hp.trans (List.prefix_append ..))

theorem Regular.totaled {metric : FairnessMetric} {scope : FairnessScope} {regime : Nat}
    (h : Regular (.new scope metric regime) steps) :
    ((FairnessSnapshot.new scope metric regime).after steps).Totaled := by
  induction steps using List.reverseRecOn
  case nil => exact ⟨rfl, Nat.two_pow_pos 64⟩
  case append_singleton steps step hi =>
    have hi := hi h.of_append
    rw [FairnessSnapshot.after_append]
    cases step
    case record event =>
      refine hi.record ?_
      rw [FairnessSnapshot.metric_after]
      exact h.fits steps event (List.prefix_refl _)
    case applyRegimeShift newRegimeId discountBp =>
      exact hi.applyRegimeShift (h.discounts newRegimeId discountBp (by simp))

end Total

end Fairness
