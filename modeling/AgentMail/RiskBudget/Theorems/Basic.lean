import AgentMail.RiskBudget.Basic
import Mathlib.Algebra.Order.Field.Basic

open Experience (EffectKind)

namespace RiskBudget

section Call

open BudgetHealth

variable {s : BudgetState} {call : Call} {calls calls' : List Call} {falseAction : Bool}
  {now t t₀ : Int}

theorem Call.le_of_clocked (h : Clocked (calls ++ [call])) : ∀ c ∈ calls, c.time ≤ call.time := by
  rw [Clocked, List.map_append, List.pairwise_append] at h
  exact fun c hm => h.right.right _ (List.mem_map_of_mem hm) _ (List.mem_singleton_self _)

namespace BudgetState

theorem health_recordOutcome :
    (s.recordOutcome falseAction now).health = (s.count falseAction).computeHealth now :=
  rfl

@[simp]
theorem config_step : (s.step call).config = s.config := by
  cases call <;> rfl

theorem after_cons : s.after (call :: calls) = (s.step call).after calls :=
  rfl

theorem after_append : s.after (calls ++ calls') = (s.after calls).after calls' :=
  List.foldl_append

@[simp]
theorem config_after : (s.after calls).config = s.config := by
  induction calls generalizing s
  case nil => rfl
  case cons call calls hi => rw [after_cons, hi, config_step]

theorem guarded_cons : s.Guarded (call :: calls) ↔ s.Meets call ∧ (s.step call).Guarded calls :=
  and_congr_right' ⟨fun h => h _ rfl, fun h _ he => Option.some.inj he ▸ h⟩

theorem guarded_append : s.Guarded (calls ++ calls') ↔ s.Guarded calls ∧
    (s.after calls).Guarded calls' := by
  induction calls generalizing s
  case nil => exact ⟨fun h => ⟨trivial, h⟩, fun h => h.right⟩
  case cons call calls hi =>
    rw [List.cons_append, guarded_cons, guarded_cons, hi, and_assoc, after_cons]

theorem Counts.totalActions (h : s.Counts falseAction) :
    (s.count falseAction).totalActions = s.totalActions + 1 :=
  Nat.mod_eq_of_lt h.total

theorem Counts.correctStreak (h : s.Counts false) :
    (s.count false).correctStreak = s.correctStreak + 1 :=
  Nat.mod_eq_of_lt (h.streak Bool.false_ne_true)

variable (hmax : s.config.maxFalseActionRate < 1)

include hmax

theorem health_checkAdmissibility : (s.checkAdmissibility now).health = s.computeHealth now := by
  rw [checkAdmissibility, if_neg (not_le.mpr hmax)]

theorem permitted_checkAdmissibility :
    (s.checkAdmissibility now).permitted = (s.computeHealth now).allowsAction := by
  rw [checkAdmissibility, if_neg (not_le.mpr hmax)]

theorem computeHealth_of_insufficient (h : s.totalActions < s.config.minObservations) :
    s.computeHealth now = s.health := by
  rw [computeHealth, if_neg (not_le.mpr hmax), if_pos (by simpa [hasSufficientData] using h)]

section Sufficient

variable (h : s.config.minObservations ≤ s.totalActions)

include h

-- A budget that blocks either keeps blocking or has recovered.
theorem computeHealth_of_blocked (hb : ¬s.health.allowsAction) :
    s.Recovering now ∧ s.computeHealth now = healthy ∨
    ¬s.Recovering now ∧ ¬(s.computeHealth now).allowsAction := by
  rw [computeHealth, if_neg (not_le.mpr hmax), if_neg (by simpa [hasSufficientData] using h)]
  cases hh : s.health
  case healthy  => exact (hb (hh ▸ rfl)).elim
  case stressed => exact (hb (hh ▸ rfl)).elim
  case coolingDown =>
    dsimp only
    by_cases he : I64.saturatingSub now s.cooldownStartedMicros < s.config.cooldownMicros
    case pos =>
      rw [if_pos he]
      refine .inr ⟨fun hr => ?_, Bool.false_ne_true⟩
      cases hr.blocked
      case inl hb => cases hh.symm.trans hb
      case inr hb => exact not_lt.mpr hb.right he
    case neg =>
      rw [if_neg he]
      by_cases hs : s.config.recoveryStreak ≤ s.correctStreak
      case pos => exact .inl ⟨⟨h, hs, .inr ⟨hh, not_lt.mp he⟩⟩, if_pos hs⟩
      case neg =>
        rw [if_neg hs]
        exact .inr ⟨fun hr => hs hr.streak, Bool.false_ne_true⟩
  case blocking =>
    dsimp only
    by_cases hs : s.config.recoveryStreak ≤ s.correctStreak
    case pos => exact .inl ⟨⟨h, hs, .inl hh⟩, if_pos hs⟩
    case neg =>
      rw [if_neg hs]
      exact .inr ⟨fun hr => hs hr.streak, Bool.false_ne_true⟩

theorem computeHealth_of_allows (ha : s.health.allowsAction) :
    (s.computeHealth now).allowsAction ↔ s.falseActionRate ≤ s.config.maxFalseActionRate := by
  rw [computeHealth, if_neg (not_le.mpr hmax), if_neg (by simpa [hasSufficientData] using h)]
  cases hh : s.health
  case coolingDown => rw [hh] at ha; cases ha
  case blocking    => rw [hh] at ha; cases ha
  all_goals
    dsimp only
    split_ifs with hr
    case pos => exact iff_of_false Bool.false_ne_true (not_le.mpr hr)
    all_goals exact iff_of_true rfl (not_lt.mp hr)

omit h in
theorem computeHealth_of_cooling (hh : s.health = coolingDown)
    (he : I64.saturatingSub now s.cooldownStartedMicros < s.config.cooldownMicros) :
    s.computeHealth now = coolingDown := by
  rw [computeHealth, if_neg (not_le.mpr hmax), hh, if_pos he]
  exact ite_self coolingDown

end Sufficient

end BudgetState

end Call

section Table

open BudgetHealth

variable {s : BudgetState} {effectKind : EffectKind} {falseAction : Bool} {now : Int}

namespace BudgetState

-- Without enough data a budget has not left the health that it starts with.
structure Tracks (s : BudgetState) (effectKind : EffectKind) : Prop where
  config  : s.config = defaultBudgetConfig effectKind
  healthy : s.totalActions < s.config.minObservations → s.health = healthy

theorem tracks_new : (new effectKind).Tracks effectKind :=
  ⟨rfl, fun _ => rfl⟩

theorem Tracks.recordOutcome (h : s.Tracks effectKind) (hc : s.Counts falseAction) :
    (s.recordOutcome falseAction now).Tracks effectKind where
  config  := h.config
  healthy := by
    intro hlt
    rw [health_recordOutcome]
    by_cases hmax : s.config.maxFalseActionRate < 1
    case pos =>
      rw [computeHealth_of_insufficient (s := s.count falseAction) hmax hlt]
      exact h.healthy (Nat.lt_of_succ_lt (hc.totalActions.symm.trans_lt hlt))
    case neg => exact if_pos (not_lt.mp hmax)

theorem permitted_of_unlimited (h : 1 ≤ s.config.maxFalseActionRate) :
    (s.checkAdmissibility now).permitted := by
  rw [checkAdmissibility, if_pos h]

theorem Tracks.permitted (h : s.Tracks effectKind) (hs : ¬s.hasSufficientData) :
    (s.checkAdmissibility now).permitted := by
  by_cases hmax : s.config.maxFalseActionRate < 1
  case pos =>
    have hlt : s.totalActions < s.config.minObservations := by simpa [hasSufficientData] using hs
    rw [permitted_checkAdmissibility hmax, computeHealth_of_insufficient hmax hlt, h.healthy hlt]
    rfl
  case neg => exact permitted_of_unlimited (not_lt.mp hmax)

theorem permitted_new : ((new effectKind).checkAdmissibility now).permitted := by
  by_cases hs : (new effectKind).hasSufficientData
  case neg => exact tracks_new.permitted hs
  case pos =>
    -- Only the unlimited budgets ask for no data.
    refine permitted_of_unlimited ?_
    cases effectKind
    case probe    => exact le_rfl
    case noAction => exact le_rfl
    all_goals exact absurd hs (by decide)

end BudgetState

namespace RiskBudgetTable

open BudgetState

variable {t : RiskBudgetTable} {key key' : StratumKey}

-- The budget that `get_or_create` returns.
def budget (t : RiskBudgetTable) (key : StratumKey) : BudgetState :=
  ((t.get? key).map Prod.snd).getD (.new key.effectKind)

-- The tables that recorded outcomes lead to while no counter overflows.
inductive Reachable : RiskBudgetTable → Prop
  | empty : Reachable .empty
  | recordOutcome {t : RiskBudgetTable} {key : StratumKey} {falseAction : Bool} {now : Int}
      (h : Reachable t) (hc : (t.budget key).Counts falseAction) :
      Reachable (t.recordOutcome key falseAction now)

theorem budget_recordOutcome : (t.recordOutcome key falseAction now).budget key' =
    if key' = key then (t.budget key).recordOutcome falseAction now else t.budget key' := by
  rw [budget, recordOutcome, Table.get?_modifyOrInsert]
  by_cases hk : key' = key
  case neg => rw [if_neg (Ne.symm hk), if_neg hk, budget]
  case pos =>
    rw [if_pos hk.symm, if_pos hk, hk, budget]
    cases t.get? key <;> rfl

theorem Reachable.tracks (h : Reachable t) : (t.budget key).Tracks key.effectKind := by
  induction h
  case empty => exact BudgetState.tracks_new
  case recordOutcome t key' falseAction now h hc hi =>
    rw [budget_recordOutcome]
    split
    case isTrue heq => exact heq ▸ hi.recordOutcome (heq ▸ hc)
    case isFalse    => exact hi

-- The fallback permits nothing that the budget of the stratum denies.
theorem Reachable.permitted_checkAdmissibility (h : Reachable t) :
    (t.checkAdmissibility key now).permitted =
      ((t.budget key).checkAdmissibility now).permitted := by
  have hf (h : (t.get? key).filter (·.2.hasSufficientData) = none) :
      (t.checkAdmissibility key now).permitted := by
    rw [checkAdmissibility, h]
    dsimp only
    split <;> rfl
  cases ht : t.get? key
  case none =>
    rw [hf (by rw [ht, Option.filter_none]), budget, ht]
    exact permitted_new.symm
  case some row =>
    have hb : t.budget key = row.2 := by rw [budget, ht, Option.map_some, Option.getD_some]
    by_cases hs : row.2.hasSufficientData
    case pos => rw [checkAdmissibility, ht, Option.filter_some, if_pos hs, hb]
    case neg =>
      rw [hf (by rw [ht, Option.filter_some, if_neg hs])]
      exact (h.tracks.permitted (hb ▸ hs)).symm

end RiskBudgetTable

end Table

end RiskBudget
