import AgentMail.Fairness.Theorems.Basic

open Pattern (Str)

namespace Fairness

variable {s : FairnessSnapshot} {steps : List FairnessStep} {budget : FairnessBudget}
  {target : FairnessTarget} {scope : FairnessScope} {metric : FairnessMetric} {regime points : Nat}
    {utility now w deadline : Int} {id : Str}

namespace FairnessSnapshot

-- What the marks of a target tell about it.
structure Waits (s : FairnessSnapshot) (id : Str) (deadline need : Int) : Prop where
  needs : s.mark TargetFairnessState.lastNeedTsMicros id = some need
  acts  : ∀ t, s.mark TargetFairnessState.lastActionTsMicros id = some t → t < need
  le    : need ≤ deadline

theorem starvedTarget_eq_some_iff {row : Str × TargetFairnessState} {entry : StarvedTarget} :
    s.starvedTarget w now row = some entry ↔
      ∃ need, row.2.lastNeedTsMicros = some need ∧
        (∀ t, row.2.lastActionTsMicros = some t → t < need) ∧
        w ≤ I64.saturatingSub now need ∧
        entry = ⟨⟨s.scope, row.1⟩, I64.saturatingSub now need, need⟩ := by
  rw [starvedTarget.eq_def]
  cases row.2.lastNeedTsMicros
  case none => simp
  case some need =>
    have ha : row.2.lastActionTsMicros.any (need ≤ ·) = false ↔
        ∀ t, row.2.lastActionTsMicros = some t → t < need := by
      cases row.2.lastActionTsMicros <;> simp
    simp only [Option.some_inj, exists_eq_left', ← ha]
    cases row.2.lastActionTsMicros.any (need ≤ ·)
    case true  => simp
    case false => simp [eq_comm]

theorem exists_starved_iff (hb : budget.starvationWindowMicros = some w) (hw : 0 < w ∧ w < 2 ^ 63) :
    (∃ entry ∈ s.starvedTargets budget now, entry.target = target) ↔
      target.scope = s.scope ∧ ∃ need, s.Waits target.id (now - w) need := by
  simp only [starvedTargets, hb, List.mem_mergeSort, List.mem_filterMap, starvedTarget_eq_some_iff]
  have hle (need : Int) : w ≤ I64.saturatingSub now need ↔ need ≤ now - w := by
    rw [I64.saturatingSub, I64.le_saturate_iff (by omega) hw.right]
    omega
  constructor
  case mp =>
    rintro ⟨_, ⟨row, hrow, need, hneed, hact, hwait, rfl⟩, rfl⟩
    have hg : s.targets.get? row.1 = some row := Table.get?_key hrow
    refine ⟨rfl, need, ?_, ?_, (hle need).mp hwait⟩
    case refine_1 => simpa [mark, hg] using hneed
    case refine_2 => simpa [mark, hg] using hact
  case mpr =>
    rintro ⟨hs, need, h⟩
    obtain ⟨row, hg, hneed⟩ := Option.bind_eq_some_iff.mp h.needs
    obtain ⟨hrow, hid⟩ := Table.get?_eq_some_iff.mp hg
    have hact : ∀ t, row.2.lastActionTsMicros = some t → t < need := by
      intro t ht
      exact h.acts t (Option.bind_eq_some_iff.mpr ⟨row, hg, ht⟩)
    refine ⟨_, ⟨row, hrow, need, hneed, hact, (hle need).mpr h.le, rfl⟩, ?_⟩
    rw [← hs, hid]

end FairnessSnapshot

section Run

variable (h : (steps.filterMap FairnessStep.ts?).Pairwise (· ≤ ·))

include h

theorem latest_need : Latest (((FairnessSnapshot.new scope metric regime).after steps).mark
    TargetFairnessState.lastNeedTsMicros id) (Signals scope steps id) :=
  latest_mark (fun _ _ _ _ => rfl) (fun _ _ => rfl) (fun _ => rfl) h

theorem latest_action : Latest (((FairnessSnapshot.new scope metric regime).after steps).mark
    TargetFairnessState.lastActionTsMicros id) (Acts scope steps id) :=
  latest_mark (fun _ _ _ _ => rfl) (fun _ _ => rfl) (fun _ => rfl) h

-- The marks know about a starving target if its last need is old enough.
theorem waits_iff :
    (∃ need, ((FairnessSnapshot.new scope metric regime).after steps).Waits id deadline need) ↔
      Starves scope steps id deadline ∧ ∀ t, Signals scope steps id t → t ≤ deadline := by
  let s := (FairnessSnapshot.new scope metric regime).after steps
  have ⟨hneed, hlast⟩ : Latest (s.mark _ id) (Signals scope steps id) := latest_need h
  have ⟨hact, hlast'⟩ : Latest (s.mark _ id) (Acts scope steps id) := latest_action h
  constructor
  case mp =>
    intro ⟨need, hn⟩
    refine ⟨⟨need, hn.le, hneed need hn.needs, fun t ht => ?_⟩, fun t ht => ?_⟩
    case refine_1 =>
      have ⟨u, hu, hle⟩ := hlast' t ht
      exact Int.lt_of_le_of_lt hle (hn.acts u hu)
    case refine_2 =>
      have ⟨u, hu, hle⟩ := hlast t ht
      cases hn.needs.symm.trans hu
      exact Int.le_trans hle hn.le
  case mpr =>
    intro ⟨⟨t, _, hs, ha⟩, hall⟩
    have ⟨u, hu, hle⟩ := hlast t hs
    exact ⟨u, hu, fun t' ht' => Int.lt_of_lt_of_le (ha t' (hact t' ht')) hle, hall u (hneed u hu)⟩

end Run

namespace FairnessSnapshot

-- The budget is made for the snapshot.
def Matches (s : FairnessSnapshot) (budget : FairnessBudget) : Prop :=
  budget.scope = s.scope ∧ budget.metric = s.metric

theorem assessCandidate_of_not (h : ¬(s.Matches budget ∧ target.scope = s.scope)) :
    s.assessCandidate budget target points utility now = mismatched utility := by
  refine if_pos ?_
  simp only [Matches, not_and_or] at h
  rcases h with (h | h) | h <;> simp [h]

theorem violations_assessCandidate (h : s.Matches budget) (ht : target.scope = s.scope) :
    (s.assessCandidate budget target points utility now).violations =
      s.violations budget target points now := by
  unfold assessCandidate
  rw [if_neg (by simp [h.left, h.right, ht])]

theorem disposition_eq_veto_iff (h : s.Matches budget) (ht : target.scope = s.scope) :
    (s.assessCandidate budget target points utility now).disposition = .veto ↔
      ∃ code ∈ s.violations budget target points now, isVeto code := by
  unfold assessCandidate
  rw [if_neg (by simp [h.left, h.right, ht]), ← List.any_eq_true]
  dsimp only
  cases (s.violations budget target points now).any isVeto
  case true  => simp
  case false =>
    simp only [Bool.false_eq_true, if_false, iff_false]
    split <;> exact FairnessDisposition.noConfusion

theorem otherTargetStarved_mem_iff (points : Nat) :
    .otherTargetStarved ∈ s.violations budget target points now ↔
      ∃ entry ∈ s.starvedTargets budget now, entry.target ≠ target := by
  unfold violations
  dsimp only
  split_ifs <;> simp_all

theorem disposition_mismatched : (mismatched utility).disposition = .veto :=
  rfl

theorem limited_or_other {code : FairnessViolationCode} (h : isVeto code)
    (hc : code ∈ s.violations budget target points now) :
    Limited (s.violations budget target points now) ∨
      .otherTargetStarved ∈ s.violations budget target points now := by
  cases code
  case hardBudgetExceeded    => exact .inl (.inl hc)
  case concentrationExceeded => exact .inl (.inr hc)
  case otherTargetStarved    => exact .inr hc
  all_goals cases h

end FairnessSnapshot

section Final

open FairnessSnapshot

variable (hw : 0 < w ∧ w < 2 ^ 63) (hb : budget.starvationWindowMicros = some w)
  (hordered : (steps.filterMap FairnessStep.ts?).Pairwise (· ≤ ·))
  (hs : s = (FairnessSnapshot.new scope metric regime).after steps)

include hw hb hordered hs

-- The targets that the snapshot lists starve, and it lists those that have been quiet since.
theorem listed_iff :
    (∃ entry ∈ s.starvedTargets budget now, entry.target = target) ↔
      target.scope = s.scope ∧ Starves s.scope steps target.id (now - w) ∧
      ∀ t, Signals s.scope steps target.id t → t ≤ now - w := by
  have hscope : s.scope = scope := hs ▸ scope_after
  rw [exists_starved_iff hb hw, hscope, hs, waits_iff hordered]

theorem attended_of_fair (h : Fair s steps budget now (now - w)) :
    Attended s steps budget (now - w) := by
  have hquiet (id : Str) (hst : Starves s.scope steps id (now - w)) :
      ∃ entry ∈ s.starvedTargets budget now, entry.target = ⟨s.scope, id⟩ :=
    (h.starved ⟨s.scope, id⟩).mpr ⟨rfl, hst⟩
  have hmatched (id : Str) (hst : Starves s.scope steps id (now - w)) : s.Matches budget := by
    by_contra hm
    have hmis (target : FairnessTarget) : s.assessCandidate budget target 0 0 now = mismatched 0 :=
      assessCandidate_of_not fun h => hm h.left
    have ⟨target, hd⟩ := h.served 0 0 ⟨id, hst⟩ fun target => by simp [hmis, mismatched, Limited]
    exact hd (hmis target ▸ disposition_mismatched)
  constructor
  case matched => exact hmatched
  case quiet =>
    intro id t hst hsig
    exact ((listed_iff hw hb hordered hs).mp (hquiet id hst)).right.right t hsig
  case alone =>
    intro id id' hst hst'
    by_contra hne
    have he := h.exempt id 0 0 hst
    rw [violations_assessCandidate (hmatched id hst) rfl, otherTargetStarved_mem_iff] at he
    have ⟨entry, hentry, ht⟩ := hquiet id' hst'
    refine he ⟨entry, hentry, ?_⟩
    rw [ht]
    exact fun h => hne (congrArg FairnessTarget.id h).symm

theorem fair_of_attended (htotal : s.Totaled) (h : Attended s steps budget (now - w)) :
    Fair s steps budget now (now - w) := by
  have hstarved (target : FairnessTarget) :
      (∃ entry ∈ s.starvedTargets budget now, entry.target = target) ↔
      target.scope = s.scope ∧ Starves s.scope steps target.id (now - w) := by
    rw [listed_iff hw hb hordered hs]
    exact and_congr_right fun _ => and_iff_left_of_imp fun hst t => h.quiet target.id t hst
  have hexempt (id : Str) (points : Nat) (hst : Starves s.scope steps id (now - w)) :
      .otherTargetStarved ∉ s.violations budget ⟨s.scope, id⟩ points now := by
    rw [otherTargetStarved_mem_iff]
    intro ⟨entry, hentry, hne⟩
    have ⟨hsc, hst'⟩ := (hstarved entry.target).mp ⟨entry, hentry, rfl⟩
    have hid := h.alone id entry.target.id hst hst'
    exact hne (by rw [hid, ← hsc])
  constructor
  case total   => exact htotal.eq_sum
  case starved => exact hstarved
  case exempt =>
    intro id points utility hst
    rw [violations_assessCandidate (h.matched id hst) rfl]
    exact hexempt id points hst
  case served =>
    intro points utility ⟨id, hst⟩ hlim
    refine ⟨⟨s.scope, id⟩, ?_⟩
    have hm := h.matched id hst
    have hlim := hlim ⟨s.scope, id⟩
    rw [violations_assessCandidate hm rfl] at hlim
    rw [Ne, disposition_eq_veto_iff hm rfl]
    intro ⟨code, hcode, hv⟩
    exact (limited_or_other hv hcode).elim hlim (hexempt id points hst)

end Final

theorem fair_iff (scope : FairnessScope) (metric : FairnessMetric) (regime : Nat)
    (steps : List FairnessStep) (budget : FairnessBudget) (now w : Int)
    (h : Regular (.new scope metric regime) steps) (hb : budget.starvationWindowMicros = some w)
    (hw : 0 < w ∧ w < 2 ^ 63) :
    Fair ((FairnessSnapshot.new scope metric regime).after steps) steps budget now (now - w) ↔
      Attended ((FairnessSnapshot.new scope metric regime).after steps) steps budget (now - w) :=
  ⟨attended_of_fair hw hb h.ordered rfl, fair_of_attended hw hb h.ordered rfl h.totaled⟩

section Sample

def sampleBudget (metric : FairnessMetric) : FairnessBudget where
  scope                   := .agent
  metric                  := metric
  softLimitPoints         := 250
  hardLimitPoints         := 350
  maxConcentrationShareBp := 2500
  starvationWindowMicros  := some 10

def sampleNeed (id : Str) (ts : Int) : FairnessStep :=
  .record ⟨⟨.agent, id⟩, .needDetected, ts⟩

def sampleStart : FairnessSnapshot :=
  .new .agent .probeBurden 0

theorem regular_needs {id id' : Str} {ts ts' : Int} (h : ts ≤ ts') :
    Regular sampleStart [sampleNeed id ts, sampleNeed id' ts'] := by
  constructor
  case ordered   => simpa [sampleNeed, FairnessStep.ts?] using h
  case discounts => simp [sampleNeed]
  case fits =>
    intro pre event hp
    cases pre
    case nil =>
      cases (List.cons_prefix_cons.mp hp).left
      exact Nat.two_pow_pos 64
    case cons step pre =>
      have ⟨hstep, htail⟩ := List.cons_prefix_cons.mp hp
      subst hstep
      cases pre
      case nil =>
        obtain rfl : event = ⟨⟨.agent, id'⟩, .needDetected, ts'⟩ :=
          FairnessStep.record.inj (List.cons_prefix_cons.mp htail).left
        have ht : (sampleStart.after [sampleNeed id ts]).totalBurdenPoints = 0 := rfl
        rw [ht]
        exact Nat.two_pow_pos 64
      case cons =>
        have hl := htail.length_le
        simp at hl

theorem starves_sampleNeed {id : Str} {ts : Int} (h : sampleNeed id ts ∈ steps)
    (hneed : ∀ event, .record event ∈ steps → event.kind = .needDetected) (hle : ts ≤ deadline) :
    Starves .agent steps id deadline := by
  refine ⟨ts, hle, ⟨_, h, rfl, rfl, rfl⟩, ?_⟩
  rintro _ ⟨event, he, _, hact, _⟩
  rw [hneed event he] at hact
  cases hact

theorem kind_sampleNeed {id id' : Str} {ts ts' : Int} {event : FairnessEvent}
    (h : .record event ∈ [sampleNeed id ts, sampleNeed id' ts']) : event.kind = .needDetected := by
  simp only [sampleNeed, List.mem_cons, FairnessStep.record.injEq, List.not_mem_nil, or_false] at h
  cases h with
  | inl h => rw [h]
  | inr h => rw [h]

theorem fair_iff_signaledOnce :
    Regular sampleStart [sampleNeed ['a'] 0, sampleNeed ['a'] 5] ∧
    (Fair (sampleStart.after [sampleNeed ['a'] 0, sampleNeed ['a'] 5])
      [sampleNeed ['a'] 0, sampleNeed ['a'] 5]
      (sampleBudget .probeBurden) 15 (15 - 10) ↔
    Attended (sampleStart.after [sampleNeed ['a'] 0, sampleNeed ['a'] 5])
      [sampleNeed ['a'] 0, sampleNeed ['a'] 5]
      (sampleBudget .probeBurden) (15 - 10)) :=
  ⟨regular_needs (by decide),
    fair_iff .agent .probeBurden 0 [sampleNeed ['a'] 0, sampleNeed ['a'] 5]
    (sampleBudget .probeBurden) 15 10 (regular_needs (by decide)) rfl ⟨by decide, by decide⟩⟩

-- The need of one target is signaled again, or a second target has one.
theorem not_fair_needAgainOrElsewhere :
    Regular sampleStart [sampleNeed ['a'] 0, sampleNeed ['a'] 10] ∧
    ¬Fair (sampleStart.after [sampleNeed ['a'] 0, sampleNeed ['a'] 10])
      [sampleNeed ['a'] 0, sampleNeed ['a'] 10]
      (sampleBudget .probeBurden) 15 (15 - 10) ∧
    Regular sampleStart [sampleNeed ['a'] 0, sampleNeed ['b'] 0] ∧
    ¬Fair (sampleStart.after [sampleNeed ['a'] 0, sampleNeed ['b'] 0])
      [sampleNeed ['a'] 0, sampleNeed ['b'] 0]
      (sampleBudget .probeBurden) 10 (10 - 10) := by
  refine ⟨regular_needs (by decide), fun h => ?_, regular_needs (by decide), fun h => ?_⟩
  case refine_1 =>
    have ha := attended_of_fair ⟨by decide, by decide⟩ rfl (regular_needs (by decide)).ordered rfl h
    have hst : Starves .agent [sampleNeed ['a'] 0, sampleNeed ['a'] 10] ['a'] (15 - 10) :=
      starves_sampleNeed List.mem_cons_self (fun _ => kind_sampleNeed) (by decide)
    exact absurd (ha.quiet ['a'] 10 hst ⟨⟨⟨.agent, ['a']⟩, .needDetected, 10⟩, by simp [sampleNeed],
      rfl, rfl, rfl⟩) (by decide)
  case refine_2 =>
    have ha := attended_of_fair ⟨by decide, by decide⟩ rfl (regular_needs (by decide)).ordered rfl h
    have hst (id : Str) (hm : sampleNeed id 0 ∈ [sampleNeed ['a'] 0, sampleNeed ['b'] 0]) :
        Starves .agent [sampleNeed ['a'] 0, sampleNeed ['b'] 0] id (10 - 10) :=
      starves_sampleNeed hm (fun _ => kind_sampleNeed) (by decide)
    exact absurd (ha.alone ['a'] ['b'] (hst _ (by simp)) (hst _ (by simp))) (by decide)

end Sample

end Fairness
