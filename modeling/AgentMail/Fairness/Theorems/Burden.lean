import AgentMail.Fairness.Theorems.Starvation

open Pattern (Str)

namespace Fairness

variable {s : FairnessSnapshot} {budget : FairnessBudget} {target : FairnessTarget} {points : Nat}
  {utility now : Int} {a b : Str}

theorem shareBp_mono {m n : Nat} (h : m ≤ n) (d : Nat) : shareBp m d ≤ shareBp n d := by
  unfold shareBp
  by_cases hm : m = 0 ∨ d = 0
  case pos => simp [hm]
  case neg =>
    have hn : ¬(n = 0 ∨ d = 0) := by omega
    rw [if_neg hm, if_neg hn]
    exact min_le_min_right _ (Nat.div_le_div_right (Nat.mul_le_mul_right _ h))

namespace FairnessSnapshot

theorem hardBudgetExceeded_mem_iff (now : Int) :
    .hardBudgetExceeded ∈ s.violations budget target points now ↔
      budget.hardLimitPoints < s.projectedBurden target points := by
  unfold violations
  dsimp only
  split_ifs <;> simp_all

theorem concentrationExceeded_mem_iff (now : Int) :
    .concentrationExceeded ∈ s.violations budget target points now ↔
      2 ≤ s.projectedPopulated target points ∧
        budget.maxConcentrationShareBp < s.projectedShareBp target points := by
  unfold violations
  dsimp only
  split_ifs <;> simp_all

theorem vetoes_iff :
    (∃ code ∈ s.violations budget target points now, isVeto code) ↔
      budget.hardLimitPoints < s.projectedBurden target points ∨
      (2 ≤ s.projectedPopulated target points ∧
        budget.maxConcentrationShareBp < s.projectedShareBp target points) ∨
      ∃ entry ∈ s.starvedTargets budget now, entry.target ≠ target := by
  rw [← hardBudgetExceeded_mem_iff now, ← concentrationExceeded_mem_iff now,
    ← otherTargetStarved_mem_iff points, ← or_assoc]
  constructor
  case mp =>
    intro ⟨code, hcode, hv⟩
    exact limited_or_other hv hcode
  case mpr =>
    rintro ((h | h) | h)
    all_goals exact ⟨_, h, rfl⟩

theorem projectedBurden_mono (points : Nat) (h : s.burdenOf a ≤ s.burdenOf b) :
    s.projectedBurden ⟨s.scope, a⟩ points ≤ s.projectedBurden ⟨s.scope, b⟩ points :=
  U64.saturate_mono (Nat.add_le_add_right h points)

theorem projectedShareBp_mono (h : s.burdenOf a ≤ s.burdenOf b) :
    s.projectedShareBp ⟨s.scope, a⟩ points ≤ s.projectedShareBp ⟨s.scope, b⟩ points :=
  shareBp_mono (projectedBurden_mono points h) _

theorem populatedTargets_pos (h : 0 < s.burdenOf b) : 0 < s.populatedTargets := by
  unfold burdenOf at h
  cases hg : s.targets.get? b
  case none => simp [hg] at h
  case some row =>
    rw [hg] at h
    exact List.countP_pos_iff.mpr ⟨row, (Table.get?_eq_some_iff.mp hg).left, decide_eq_true h⟩

-- A second target comes into being only if `a` is new to the burden and `b` carries all of it.
theorem projectedPopulated_le (h : s.burdenOf a ≤ s.burdenOf b) (hp : 0 < points) :
    2 ≤ s.projectedPopulated ⟨s.scope, a⟩ points → 2 ≤ s.projectedPopulated ⟨s.scope, b⟩ points ∨
      s.burdenOf a = 0 ∧ 0 < s.burdenOf b ∧ s.populatedTargets = 1 := by
  have hpos (hb : 0 < s.burdenOf b) : 0 < s.populatedTargets := populatedTargets_pos hb
  have hab (ha : 0 < s.burdenOf a) : 0 < s.burdenOf b := Nat.lt_of_lt_of_le ha h
  unfold projectedPopulated
  dsimp only
  split_ifs <;> omega

theorem vetoes_mono (h : s.Ordered budget now a b) (hp : 0 < points)
    (hx : ¬s.Second budget a b points)
    (hv : ∃ code ∈ s.violations budget ⟨s.scope, a⟩ points now, isVeto code) :
    ∃ code ∈ s.violations budget ⟨s.scope, b⟩ points now, isVeto code := by
  rw [vetoes_iff] at hv ⊢
  rcases hv with hv | ⟨hpop, hshare⟩ | ⟨entry, hentry, _⟩
  case inl => exact .inl (hv.trans_le (projectedBurden_mono points h.le))
  case inr.inr =>
    exact .inr (.inr ⟨entry, hentry, fun he => h.right ⟨entry, hentry, he⟩⟩)
  case inr.inl =>
    cases projectedPopulated_le h.le hp hpop
    case inl hpop => exact .inr (.inl ⟨hpop, hshare.trans_le (projectedShareBp_mono h.le)⟩)
    case inr ho   => exact (hx ⟨ho.left, ho.right, hshare⟩).elim

theorem fairnessPenaltyBp_eq (h : s.Matches budget) (ht : target.scope = s.scope) :
    (s.assessCandidate budget target points utility now).tradeoff.fairnessPenaltyBp =
      I32.saturate (if (s.violations budget target points now).any isVeto then
        max (s.projectedBurden target points - budget.softLimitPoints) points
      else
        s.projectedBurden target points - budget.softLimitPoints : Nat) := by
  unfold assessCandidate
  rw [if_neg (by simp [h.left, h.right, ht])]

end FairnessSnapshot

open FairnessSnapshot

theorem favors_of_ordered (s : FairnessSnapshot) (budget : FairnessBudget) (a b : Str)
    (points : Nat) (utility now : Int) (h : s.Ordered budget now a b) (hp : 0 < points)
    (hx : ¬s.Second budget a b points) : s.Favors budget now a b points utility := by
  have hv := vetoes_mono h hp hx
  by_cases hm : s.Matches budget
  case neg =>
    have hmis (id : Str) : s.assessCandidate budget ⟨s.scope, id⟩ points utility now =
        mismatched utility :=
      assessCandidate_of_not fun h => hm h.left
    constructor
    case admits  => exact fun hd => (hd (hmis b ▸ disposition_mismatched)).elim
    case penalty => rw [hmis, hmis]
  case pos =>
    constructor
    case admits =>
      rw [Ne, Ne, disposition_eq_veto_iff hm rfl, disposition_eq_veto_iff hm rfl]
      exact mt hv
    case penalty =>
      rw [fairnessPenaltyBp_eq hm rfl, fairnessPenaltyBp_eq hm rfl]
      refine I32.saturate_mono (Int.ofNat_le.mpr ?_)
      simp only [List.any_eq_true]
      have hdebt := Nat.sub_le_sub_right (projectedBurden_mono points h.le) budget.softLimitPoints
      by_cases ha : ∃ code ∈ s.violations budget ⟨s.scope, a⟩ points now, isVeto code
      case pos =>
        rw [if_pos ha, if_pos (hv ha)]
        exact max_le_max_right points hdebt
      case neg =>
        rw [if_neg ha]
        split
        case isTrue  => exact hdebt.trans (le_max_left ..)
        case isFalse => exact hdebt

section Sample

def sampleProbe (id : Str) : FairnessStep :=
  .record ⟨⟨.agent, id⟩, .probe, 0⟩

def sampleSnapshot (ids : List Str) : FairnessSnapshot :=
  (FairnessSnapshot.new .agent .probeBurden 0).after (ids.map sampleProbe)

-- No probe tells about a need.
theorem starvedTargets_of_quiet {s : FairnessSnapshot} {budget : FairnessBudget}
    (hw : budget.starvationWindowMicros = some 10)
    (h : s.targets.rows.filterMap (s.starvedTarget 10 0) = []) :
    s.starvedTargets budget 0 = [] := by
  simp only [starvedTargets, hw]
  rw [h, List.mergeSort_nil]

theorem ordered_of_quiet {s : FairnessSnapshot} {budget : FairnessBudget}
    (hle : s.burdenOf a ≤ s.burdenOf b) (hw : budget.starvationWindowMicros = some 10)
    (h : s.targets.rows.filterMap (s.starvedTarget 10 0) = []) : s.Ordered budget 0 a b := by
  have hnot (target : FairnessTarget) : ¬s.Starved budget 0 target := by
    rintro ⟨entry, hentry, _⟩
    rw [starvedTargets_of_quiet hw h] at hentry
    cases hentry
  exact ⟨hle, hnot _, hnot _⟩

def roomyBudget : FairnessBudget :=
  { sampleBudget .probeBurden with maxConcentrationShareBp := 8000 }

-- With another probe, `b` is over the soft limit, but not over the hard one.
theorem favors_of_ordered_oneAndTwo :
    let s := sampleSnapshot [['a'], ['b'], ['b']]
    s.Ordered roomyBudget 0 ['a'] ['b'] ∧ ¬s.Second roomyBudget ['a'] ['b'] 100 ∧
    (s.assessCandidate roomyBudget ⟨s.scope, ['b']⟩ 100 0 0).disposition ≠ .veto ∧
    (s.assessCandidate roomyBudget ⟨s.scope, ['a']⟩ 100 0 0).disposition ≠ .veto := by
  intro s
  have ho : s.Ordered roomyBudget 0 ['a'] ['b'] := ordered_of_quiet (by decide) rfl rfl
  have hx : ¬s.Second roomyBudget ['a'] ['b'] 100 := fun h => by cases h.free
  have hb : (s.assessCandidate roomyBudget ⟨s.scope, ['b']⟩ 100 0 0).disposition ≠ .veto := by
    rw [Ne, disposition_eq_veto_iff ⟨rfl, rfl⟩ rfl, vetoes_iff, starvedTargets_of_quiet rfl rfl]
    rintro (hv | ⟨_, hv⟩ | ⟨_, hv, _⟩)
    case inl     => exact absurd hv (by decide)
    case inr.inl => exact absurd hv (by decide)
    case inr.inr => cases hv
  exact ⟨ho, hx, hb,
    (favors_of_ordered s roomyBudget ['a'] ['b'] 100 0 0 ho (by decide) hx).admits hb⟩

-- The first probe has gone to `b`. With the next one, `a` would be a second target that carries
-- half of the burden.
theorem not_favors_newTarget :
    (sampleSnapshot [['b']]).Ordered (sampleBudget .probeBurden) 0 ['a'] ['b'] ∧
    (sampleBudget .probeBurden).softLimitPoints ≤ (sampleBudget .probeBurden).hardLimitPoints ∧
    ¬(sampleSnapshot [['b']]).Favors (sampleBudget .probeBurden) 0 ['a'] ['b'] 100 0 := by
  refine ⟨ordered_of_quiet (by decide) rfl rfl, by decide, fun h => h.admits ?_ ?_⟩
  case refine_1 =>
    rw [Ne, disposition_eq_veto_iff ⟨rfl, rfl⟩ rfl, vetoes_iff, starvedTargets_of_quiet rfl rfl]
    rintro (hv | ⟨hv, _⟩ | ⟨_, hv, _⟩)
    case inl     => exact absurd hv (by decide)
    case inr.inl => exact absurd hv (by decide)
    case inr.inr => cases hv
  case refine_2 =>
    rw [disposition_eq_veto_iff ⟨rfl, rfl⟩ rfl, vetoes_iff]
    exact .inr (.inl (by decide))

end Sample

end Fairness
