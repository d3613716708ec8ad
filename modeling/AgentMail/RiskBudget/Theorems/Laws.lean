import AgentMail.RiskBudget.Theorems.Basic

namespace RiskBudget

open BudgetHealth

variable {s : BudgetState} {call : Call} {calls pre mid : List Call} {falseAction : Bool}
  {now t t₀ : Int}

namespace BudgetState

section Cooldown

-- The budget cools down since `t₀`.
structure Cooling (s : BudgetState) (t₀ : Int) : Prop where
  health  : s.health = coolingDown
  started : s.cooldownStartedMicros = t₀

theorem cooling_recordOutcome (h : s.health ≠ coolingDown)
    (h' : (s.recordOutcome falseAction t₀).health = coolingDown) :
    (s.recordOutcome falseAction t₀).Cooling t₀ where
  health  := h'
  started := if_pos ⟨h', h⟩

variable (hmax : s.config.maxFalseActionRate < 1) (hcool : 0 ≤ s.config.cooldownMicros)

include hmax hcool

theorem Cooling.computeHealth (h : s.Cooling t₀) (hlt : now < t₀ + s.config.cooldownMicros) :
    s.computeHealth now = coolingDown := by
  refine computeHealth_of_cooling hmax h.health ?_
  rw [h.started]
  exact I64.saturatingSub_lt hlt hcool

theorem Cooling.step (h : s.Cooling t₀) (hlt : call.time < t₀ + s.config.cooldownMicros) :
    (s.step call).Cooling t₀ := by
  cases call
  case checkAdmissibility => exact h
  case recordOutcome falseAction t =>
    have hc : (s.count falseAction).Cooling t₀ := ⟨h.health, h.started⟩
    have hh : (s.count falseAction).computeHealth t = coolingDown := hc.computeHealth hmax hcool hlt
    exact ⟨hh, (if_neg fun hn => hn.right h.health).trans h.started⟩

theorem Cooling.after (h : s.Cooling t₀)
    (hlt : ∀ call ∈ calls, call.time < t₀ + s.config.cooldownMicros) :
    (s.after calls).Cooling t₀ := by
  induction calls generalizing s
  case nil => exact h
  case cons call calls hi =>
    have ⟨hc, hcs⟩ := List.forall_mem_cons.mp hlt
    have hconf : (s.step call).config = s.config := config_step
    rw [after_cons]
    refine hi ?_ ?_ (h.step hmax hcool hc) ?_
    all_goals rwa [hconf]

end Cooldown

section Earned

variable (hmax : s.config.maxFalseActionRate < 1)

include hmax

omit hmax in
theorem blocked_after (hb : ¬s.health.allowsAction)
    (h : ∀ health ∈ s.reports calls, ¬health.allowsAction) :
    ¬(s.after calls).health.allowsAction := by
  induction calls generalizing s
  case nil => exact hb
  case cons call calls hi =>
    have ⟨hr, hrs⟩ := List.forall_mem_cons.mp h
    rw [after_cons]
    refine hi ?_ hrs
    cases call
    case checkAdmissibility => exact hb
    case recordOutcome      => exact hr

-- The first call to find a blocked budget open again finds the streak that opens it.
theorem streak_of_allows (hb : ¬s.health.allowsAction) (h : (s.computeHealth now).allowsAction) :
    s.Recovering now := by
  by_cases hs : s.config.minObservations ≤ s.totalActions
  case neg =>
    rw [computeHealth_of_insufficient hmax (not_le.mp hs)] at h
    exact (hb h).elim
  case pos =>
    cases computeHealth_of_blocked hmax hs hb
    case inl hr => exact hr.left
    case inr hr => exact (hr.right h).elim

theorem streak_of_report (hb : ¬s.health.allowsAction) (h : (s.report call).allowsAction) :
    s.config.recoveryStreak ≤ (s.step call).correctStreak := by
  cases call
  case checkAdmissibility now =>
    rw [report, health_checkAdmissibility hmax] at h
    exact (streak_of_allows hmax hb h).streak
  case recordOutcome falseAction now =>
    have hb : ¬(s.count falseAction).health.allowsAction := hb
    exact (streak_of_allows (s := s.count falseAction) hmax hb h).streak

theorem not_permitted_of_exceeded (hr : s.config.maxFalseActionRate < s.falseActionRate)
    (hs : s.config.minObservations ≤ s.totalActions)
    (hk : s.correctStreak < s.config.recoveryStreak) : ¬(s.checkAdmissibility now).permitted := by
  rw [permitted_checkAdmissibility hmax]
  by_cases ha : s.health.allowsAction
  case pos => exact fun h => not_le.mpr hr ((computeHealth_of_allows hmax hs ha).mp h)
  case neg => exact fun h => not_le.mpr hk (streak_of_allows hmax ha h).streak

end Earned

section Lasting

theorem falseActionRate_le_iff (h : 0 < s.totalActions) :
    s.falseActionRate ≤ s.config.maxFalseActionRate ↔
      s.falseActions ≤ s.config.maxFalseActionRate * s.totalActions := by
  rw [falseActionRate, if_neg h.ne']
  exact div_le_iff₀ (Nat.cast_pos.mpr h)

theorem falseActionRate_count_le_iff (hc : s.Counts false) :
    (s.count false).falseActionRate ≤ (s.count false).config.maxFalseActionRate ↔
      s.falseActions ≤ s.config.maxFalseActionRate * (s.totalActions + 1) := by
  rw [falseActionRate_le_iff (hc.totalActions ▸ Nat.succ_pos _), hc.totalActions, Nat.cast_succ]
  rfl

theorem Recovering.mono (h : s.Recovering t) (ht : t ≤ now) : s.Recovering now where
  sufficient := h.sufficient
  streak     := h.streak
  blocked    := h.blocked.imp_right fun hc =>
    ⟨hc.left, hc.right.trans (I64.saturatingSub_mono ht _)⟩

theorem Recovering.not_allows (h : s.Recovering now) : ¬s.health.allowsAction := by
  cases h.blocked
  case inl hb => exact hb ▸ Bool.false_ne_true
  case inr hb => exact hb.left ▸ Bool.false_ne_true

-- From here on only false actions can block the budget.
structure Safe (s : BudgetState) (now : Int) : Prop where
  sufficient : s.config.minObservations ≤ s.totalActions
  open_or    : s.health.allowsAction ∧ 0 < s.totalActions ∧
      s.falseActions ≤ s.config.maxFalseActionRate * s.totalActions ∨
    ¬s.health.allowsAction ∧ s.Recovering now ∧
      s.falseActions ≤ s.config.maxFalseActionRate * (s.totalActions + 1)

variable (hmax : s.config.maxFalseActionRate < 1)

include hmax

theorem Safe.allows (h : s.Safe t) (ht : t ≤ now) : (s.computeHealth now).allowsAction := by
  cases h.open_or
  case inl ho =>
    exact (computeHealth_of_allows hmax h.sufficient ho.left).mpr
      ((falseActionRate_le_iff ho.right.left).mpr ho.right.right)
  case inr hb =>
    cases computeHealth_of_blocked hmax h.sufficient hb.left
    case inl hr => exact hr.right ▸ rfl
    case inr hr => exact (hr.left (hb.right.left.mono ht)).elim

theorem Safe.count (h : s.Safe t) (ht : t ≤ now) (hc : s.Counts false) :
    ((s.count false).computeHealth now).allowsAction ∧
      s.falseActions ≤ s.config.maxFalseActionRate * (s.totalActions + 1) := by
  have hs : (s.count false).config.minObservations ≤ (s.count false).totalActions :=
    hc.totalActions ▸ Nat.le_succ_of_le h.sufficient
  cases h.open_or
  case inl ho =>
    have ⟨ha, hpos, hf⟩ := ho
    have hmax₀ : 0 ≤ s.config.maxFalseActionRate :=
      nonneg_of_mul_nonneg_left ((Nat.cast_nonneg _).trans hf) (Nat.cast_pos.mpr hpos)
    have hf' : s.falseActions ≤ s.config.maxFalseActionRate * (s.totalActions + 1) :=
      hf.trans (mul_le_mul_of_nonneg_left (lt_add_one _).le hmax₀)
    refine ⟨(computeHealth_of_allows (s := s.count false) hmax hs ha).mpr ?_, hf'⟩
    exact (falseActionRate_count_le_iff hc).mpr hf'
  case inr hb =>
    have hr : (s.count false).Recovering now := {
      sufficient := hs
      streak     := hc.correctStreak ▸ Nat.le_succ_of_le hb.right.left.streak
      blocked    := (hb.right.left.mono ht).blocked
    }
    refine ⟨?_, hb.right.right⟩
    cases computeHealth_of_blocked (s := s.count false) hmax hs hb.left
    case inl h => exact h.right ▸ rfl
    case inr h => exact (h.left hr).elim

theorem Safe.step (h : s.Safe t) (ht : t ≤ call.time) (hm : s.Meets call)
    (hf : ¬call.isFalseAction) : (s.report call).allowsAction ∧ (s.step call).Safe call.time := by
  cases call
  case checkAdmissibility now =>
    rw [report, health_checkAdmissibility hmax]
    refine ⟨h.allows hmax ht, h.sufficient, ?_⟩
    exact h.open_or.imp_right fun hb => ⟨hb.left, hb.right.left.mono ht, hb.right.right⟩
  case recordOutcome falseAction now =>
    obtain rfl : falseAction = false := Bool.eq_false_of_not_eq_true hf
    have hm : s.Counts false := hm
    have htotal : (s.recordOutcome false now).totalActions = s.totalActions + 1 := hm.totalActions
    have ⟨ha, hc⟩ := h.count hmax ht hm
    refine ⟨ha, htotal ▸ Nat.le_succ_of_le h.sufficient, .inl ⟨ha, htotal ▸ Nat.succ_pos _, ?_⟩⟩
    exact hc.trans_eq (congrArg _ ((congrArg _ htotal).trans (Nat.cast_succ _)).symm)

theorem Safe.reports (h : s.Safe t)
    (hc : Call.Clocked (.checkAdmissibility t :: (calls ++ [.checkAdmissibility now])))
    (hg : s.Guarded calls) (hf : ∀ call ∈ calls, ¬call.isFalseAction) :
    ∀ health ∈ s.reports (calls ++ [.checkAdmissibility now]), health.allowsAction := by
  induction calls generalizing s t
  case nil =>
    have ht : t ≤ now := (List.pairwise_cons.mp hc).left _ (List.mem_singleton_self _)
    refine List.forall_mem_singleton.mpr ?_
    rw [report, health_checkAdmissibility hmax]
    exact h.allows hmax ht
  case cons call calls hi =>
    have ⟨hf₀, hfs⟩ := List.forall_mem_cons.mp hf
    have ⟨ht, hcs⟩ := List.pairwise_cons.mp hc
    have ⟨hm, hgs⟩ := guarded_cons.mp hg
    have ⟨ha, hn⟩ := h.step hmax (ht _ (List.mem_cons_self ..)) hm hf₀
    have hconf : (s.step call).config = s.config := config_step
    exact List.forall_mem_cons.mpr ⟨ha, hi (hconf ▸ hmax) hn hcs hgs hfs⟩

-- A budget that has blocked opens only on enough outcomes.
theorem opened_step
    (h : s.health.allowsAction → s.config.minObservations ≤ s.totalActions ∧ 0 < s.totalActions)
    (hm : s.Meets call) (ha : (s.step call).health.allowsAction) :
    s.config.minObservations ≤ (s.step call).totalActions ∧ 0 < (s.step call).totalActions := by
  cases call
  case checkAdmissibility => exact h ha
  case recordOutcome falseAction now =>
    have hm : s.Counts falseAction := hm
    have htotal : (s.recordOutcome falseAction now).totalActions = s.totalActions + 1 :=
      hm.totalActions
    rw [step, htotal]
    refine ⟨?_, Nat.succ_pos _⟩
    by_cases hs : s.config.minObservations ≤ s.totalActions + 1
    case pos => exact hs
    case neg =>
      have hlt : (s.count falseAction).totalActions < s.config.minObservations :=
        hm.totalActions ▸ not_le.mp hs
      have hh : (s.count falseAction).computeHealth now = s.health :=
        computeHealth_of_insufficient (s := s.count falseAction) hmax hlt
      exact Nat.le_succ_of_le (h (hh ▸ ha)).left

theorem opened_after
    (h : s.health.allowsAction → s.config.minObservations ≤ s.totalActions ∧ 0 < s.totalActions)
    (hg : s.Guarded calls) (ha : (s.after calls).health.allowsAction) :
    s.config.minObservations ≤ (s.after calls).totalActions ∧ 0 < (s.after calls).totalActions := by
  induction calls generalizing s
  case nil => exact h ha
  case cons call calls hi =>
    have ⟨hm, hgs⟩ := guarded_cons.mp hg
    have hconf : (s.step call).config = s.config := config_step
    have h' := hi (hconf ▸ hmax) (hconf.symm ▸ opened_step hmax h hm) hgs ha
    exact hconf ▸ h'

-- A budget that reports `healthy` after it has blocked.
theorem safe_of_healthy (hb : ¬(s.after pre).health.allowsAction) (hg : (s.after pre).Guarded mid)
    (hh : (((s.after pre).after mid).checkAdmissibility now).health = healthy)
    (hs : ((s.after pre).after mid).Meets (.checkAdmissibility now)) :
    ((s.after pre).after mid).Safe now := by
  have hconf : ((s.after pre).after mid).config = s.config := config_after.trans config_after
  have hmax' : ((s.after pre).after mid).config.maxFalseActionRate < 1 := hconf ▸ hmax
  have hp : (((s.after pre).after mid).computeHealth now).allowsAction := by
    rw [← health_checkAdmissibility hmax', hh]
    rfl
  by_cases ha : ((s.after pre).after mid).health.allowsAction
  case pos =>
    have ⟨hsuf, hpos⟩ :=
      opened_after (s := s.after pre) (config_after (s := s) ▸ hmax) (fun h => (hb h).elim) hg ha
    have hsuf :
        ((s.after pre).after mid).config.minObservations ≤ ((s.after pre).after mid).totalActions :=
      config_after (s := s.after pre) ▸ hsuf
    have hr := (computeHealth_of_allows hmax' hsuf ha).mp hp
    exact ⟨hsuf, .inl ⟨ha, hpos, (falseActionRate_le_iff hpos).mp hr⟩⟩
  case neg =>
    have hr := streak_of_allows hmax' ha hp
    exact ⟨hr.sufficient, .inr ⟨ha, hr, hs hr⟩⟩

theorem computeHealth_of_recovering (h : s.Recovering now) : s.computeHealth now = healthy := by
  cases computeHealth_of_blocked hmax h.sufficient h.not_allows
  case inl hr => exact hr.right
  case inr hr => exact (hr.left h).elim

-- One more correct outcome stores the recovery, and the rate counts again.
theorem exceeded_of_recovering (hr : s.Recovering now) (hc : s.Counts false)
    (hf : s.config.maxFalseActionRate * (s.totalActions + 1) < s.falseActions) :
    ¬(((s.recordOutcome false now).checkAdmissibility now).health).allowsAction := by
  have hs : (s.count false).config.minObservations ≤ (s.count false).totalActions :=
    hc.totalActions ▸ Nat.le_succ_of_le hr.sufficient
  have hr' : (s.count false).Recovering now :=
    ⟨hs, hc.correctStreak ▸ Nat.le_succ_of_le hr.streak, hr.blocked⟩
  have ha : (s.recordOutcome false now).health.allowsAction := by
    show ((s.count false).computeHealth now).allowsAction
    rw [computeHealth_of_recovering (s := s.count false) hmax hr']
    rfl
  rw [health_checkAdmissibility (s := s.recordOutcome false now) hmax]
  rw [computeHealth_of_allows (s := s.recordOutcome false now) hmax hs ha]
  exact fun hle => not_le.mpr hf ((falseActionRate_count_le_iff hc).mp hle)

end Lasting

theorem not_lawful_of_recovering (hmax : s.config.maxFalseActionRate < 1)
    (hr : (s.after calls).Recovering now) (hc : (s.after calls).Counts false)
    (hf : s.config.maxFalseActionRate * ((s.after calls).totalActions + 1) <
      (s.after calls).falseActions) :
    ¬s.Lawful (calls ++ [.checkAdmissibility now, .recordOutcome false now]) now := by
  have hconf : (s.after calls).config = s.config := config_after
  have heq : s.after (calls ++ []) = s.after calls := congrArg s.after (List.append_nil calls)
  refine fun h => exceeded_of_recovering (hconf ▸ hmax) hr hc (hconf ▸ hf) ?_
  refine h.lasting calls [] now [.recordOutcome false now] rfl hr.not_allows ?_ ?_ _ ?_
  · rw [heq, health_checkAdmissibility (hconf ▸ hmax)]
    exact computeHealth_of_recovering (hconf ▸ hmax) hr
  · simp [Call.isFalseAction]
  · rw [heq]
    exact List.mem_cons_of_mem _ (List.mem_cons_self ..)

-- The cooldown, the streak that is earned and the exhausted budget hold of every run. Only the last
-- law can fail.
theorem lawful_of_guarded (hmax : s.config.maxFalseActionRate < 1)
    (hcool : 0 ≤ s.config.cooldownMicros) (hc : Call.Clocked (calls ++ [.checkAdmissibility now]))
    (hg : s.Guarded calls) : s.Lawful calls now ∧
      (¬(s.after calls).Meets (.checkAdmissibility now) →
        (s.after calls).Meets (.recordOutcome false now) →
        ¬s.Lawful (calls ++ [.checkAdmissibility now, .recordOutcome false now]) now) := by
  have hconf : (s.after calls).config = s.config := config_after
  constructor
  case right =>
    intro hn hcount
    rw [Meets, Classical.not_imp, not_le, hconf] at hn
    exact not_lawful_of_recovering hmax hn.left hcount hn.right
  case left =>
    refine ⟨?cooldown, ?earned, ?exhausted, ?lasting⟩
    case cooldown =>
      rintro pre falseAction t₀ mid rfl hn hh hlt
      have hcp : ((s.after pre).recordOutcome falseAction t₀).config = s.config := config_after
      have hle : ∀ call ∈ mid,
          call.time < t₀ + ((s.after pre).recordOutcome falseAction t₀).config.cooldownMicros :=
        fun call hm =>
          hcp ▸ (Call.le_of_clocked hc call
            (List.mem_append_right _ (List.mem_cons_of_mem _ hm))).trans_lt hlt
      have hcl := (cooling_recordOutcome hn hh).after (hcp ▸ hmax) (hcp ▸ hcool) hle
      have heq : s.after (pre ++ .recordOutcome falseAction t₀ :: mid) =
          ((s.after pre).recordOutcome falseAction t₀).after mid := after_append
      rw [permitted_checkAdmissibility (hconf ▸ hmax), heq]
      rw [heq] at hconf
      rw [hcl.computeHealth (hconf ▸ hmax) (hconf ▸ hcool) (hconf ▸ hlt)]
      exact Bool.false_ne_true
    case earned =>
      rintro pre mid call rfl hb hr ha
      rw [after_append] at ha ⊢
      have hcm : ((s.after pre).after mid).config = s.config := config_after.trans config_after
      exact hcm ▸ streak_of_report (hcm ▸ hmax) (blocked_after hb hr) ha
    case exhausted =>
      exact fun hr hm hk =>
        not_permitted_of_exceeded (hconf ▸ hmax) (hconf ▸ hr) (hconf ▸ hm) (hconf ▸ hk)
    case lasting =>
      rintro pre mid t later rfl hb hh hf
      rw [guarded_append, guarded_append, guarded_cons] at hg
      have ⟨_, hgm, hgt, hgl⟩ := hg
      rw [after_append] at hh ⊢
      have hcm : ((s.after pre).after mid).config = s.config := config_after.trans config_after
      have hcl : Call.Clocked (.checkAdmissibility t :: (later ++ [.checkAdmissibility now])) := by
        rw [Call.Clocked, List.append_assoc, List.append_assoc, List.map_append,
          List.map_append] at hc
        exact (List.pairwise_append.mp (List.pairwise_append.mp hc).right.left).right.left
      exact (safe_of_healthy hmax hb hgm hh hgt).reports (hcm ▸ hmax) hcl hgl hf

-- Two of forty outcomes are false, and the streak of ten has fallen into the cooldown. The budget
-- has recovered for good, whatever correct outcomes come.
theorem lawful_of_guarded_advisory :
    let outcome falseAction := Call.recordOutcome falseAction 0
    (new .advisory).Lawful
      (List.replicate 28 (outcome false) ++ List.replicate 2 (outcome true) ++
        List.replicate 10 (outcome false) ++
        [.checkAdmissibility 120000000, .recordOutcome false 120000001]) 120000002 :=
  (lawful_of_guarded (by decide +kernel) (by decide) (by decide +kernel) (by decide +kernel)).left

-- One false action of twenty has been outlived by a streak of ten, and the next correct outcome
-- blocks the budget.
theorem not_lawful_forceReservation :
    ¬∀ (s : BudgetState) calls now, s.config.maxFalseActionRate < 1 → 0 ≤ s.config.cooldownMicros →
      Call.Clocked (calls ++ [.checkAdmissibility now]) → s.Lawful calls now := by
  intro h
  let outcome falseAction := Call.recordOutcome falseAction 0
  let calls :=
    List.replicate 9 (outcome false) ++ [outcome true] ++ List.replicate 10 (outcome false)
  have hr : ((new .forceReservation).after calls).Recovering 300000000 := by decide +kernel
  have hl := h (new .forceReservation)
    (calls ++ [.checkAdmissibility 300000000, .recordOutcome false 300000000]) 300000000
    (by decide +kernel) (by decide) (by decide +kernel)
  exact not_lawful_of_recovering (by decide +kernel) hr (by decide +kernel) (by decide +kernel) hl

end BudgetState

end RiskBudget
