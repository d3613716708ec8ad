import AgentMail.Experience.Theorems.Basic

namespace Experience

open ExperienceState (isNonExecution)

variable {input : LabelingInput} {anchor now : Int} {evidence : ExecutionEvidence}
  {window : AttributionWindow} {r labeled : LabelingResult} {expiredRule awaitingRule : String}

-- What every exit of the automaton that decides about an experience returns.
def LabelingResult.Settled (r : LabelingResult) : Prop :=
  r.label.hasLearningSignal = true ∧ r.newState = .resolved ∨
  r.label.hasLearningSignal = false ∧ (r.newState = .censored ∨ r.newState = .expired)

theorem LabelingResult.Settled.signal_iff (h : r.Settled) : r.label.hasLearningSignal ↔
    r.newState = .resolved := by
  cases h
  case inl h => simp [h]
  case inr h => cases h.right <;> simp [*]

theorem LabelingResult.settled_resolved {label : OutcomeLabel} {ruleId : String}
    (h : label.hasLearningSignal) : (resolved label ruleId).Settled :=
  .inl ⟨h, rfl⟩

theorem LabelingResult.settled_censored {reason : CensorReason} {ruleId : String} :
    (censored reason .censored ruleId).Settled :=
  .inr ⟨rfl, .inl rfl⟩

theorem LabelingResult.settled_expired {reason : CensorReason} {ruleId : String} :
    (censored reason .expired ruleId).Settled :=
  .inr ⟨rfl, .inr rfl⟩

open LabelingResult

theorem settled_validateEvidenceTiming
    (h : validateEvidenceTiming anchor window evidence = some r) : r.Settled := by
  rw [validateEvidenceTiming, censorPreAnchorEvidence] at h
  split_ifs at h <;> simp at h
  case pos      => exact h ▸ settled_censored
  case neg      =>
    split at h
    case isTrue => exact Option.some.inj h ▸ settled_expired
    case isFalse =>
      split at h
      case isTrue  => exact Option.some.inj h ▸ settled_censored
      case isFalse => cases h

theorem settled_censorExogenousRecovery (h : censorExogenousRecovery window evidence = some r) :
    r.Settled := by
  rw [censorExogenousRecovery] at h
  split_ifs at h
  exact Option.some.inj h ▸ settled_censored

-- One case for each family of actions, and in it one for each branch.
theorem settled_labelFromEvidence (evidence : ExecutionEvidence) (kind : EffectKind) :
    (labelFromEvidence evidence kind).Settled := by
  cases kind
  case probe             => rw [labelFromEvidence, labelProbe]; split <;> exact settled_resolved rfl
  case advisory          =>
    rw [labelFromEvidence, labelAdvisory]; split <;> exact settled_resolved rfl
  case release           =>
    rw [labelFromEvidence, labelRelease]; split <;> exact settled_resolved rfl
  case forceReservation  =>
    rw [labelFromEvidence, labelForceReservation]; split <;> exact settled_resolved rfl
  case routingSuggestion =>
    rw [labelFromEvidence, labelRouting]; split <;> exact settled_resolved rfl
  case backpressure      =>
    rw [labelFromEvidence, labelBackpressure]; split <;> exact settled_resolved rfl
  case noAction          =>
    rw [labelFromEvidence, labelNoAction]; split <;> exact settled_resolved rfl

namespace LabelingInput

theorem settled_labelInaction (reason : NonExecutionReason) (evidence : ExecutionEvidence) :
    (labelInaction reason evidence).Settled := by
  cases reason <;> exact settled_resolved rfl

theorem settled_confounded (h : input.confounded = some r) : r.Settled := by
  rw [confounded] at h
  split at h
  case isTrue  => exact Option.some.inj h ▸ settled_censored
  case isFalse =>
    split at h
    case h_1 => exact Option.some.inj h ▸ settled_censored
    case h_2 =>
      split at h
      case isTrue  => exact Option.some.inj h ▸ settled_censored
      case isFalse => cases h

theorem confounded_eq_none_iff :
    input.confounded = none ↔
      input.subjectDeparted = false ∧ input.operatorChange = none ∧
      input.concurrentInterventionCount ≤ input.window.maxConcurrentInterventions := by
  rw [confounded]
  cases input.subjectDeparted <;> cases input.operatorChange <;> simp

theorem settled_withEvidence (h : labeled.Settled) :
    (input.withEvidence anchor evidence labeled).Settled := by
  rw [withEvidence]
  split
  case h_1 hv => exact settled_validateEvidenceTiming hv
  case h_2 =>
    cases hx : censorExogenousRecovery input.window evidence
    case none => exact h
    case some => exact settled_censorExogenousRecovery hx

theorem withoutEvidence_of_le
    (h : I64.saturatingSub input.nowMicros anchor ≤ input.window.maxWindowMicros) :
    input.withoutEvidence anchor expiredRule awaitingRule =
      censored (.insufficientEvidence 1 0) input.state awaitingRule :=
  if_neg (not_lt.mpr h)

theorem withoutEvidence_of_lt
    (h : input.window.maxWindowMicros < I64.saturatingSub input.nowMicros anchor) :
    input.withoutEvidence anchor expiredRule awaitingRule =
      censored .windowExpired .expired expiredRule :=
  if_pos h

theorem settled_withoutEvidence
    (h : ¬I64.saturatingSub input.nowMicros anchor ≤ input.window.maxWindowMicros) :
    (input.withoutEvidence anchor expiredRule awaitingRule).Settled := by
  rw [withoutEvidence_of_lt (not_le.mp h)]
  exact settled_expired

theorem Undecided.confounded_eq_none (h : input.Undecided anchor) : input.confounded = none :=
  confounded_eq_none_iff.mpr ⟨h.subject, h.operator, h.concurrent⟩

theorem Undecided.confounded_ne_some (h : input.Undecided anchor) : input.confounded ≠ some r := by
  rw [h.confounded_eq_none]
  exact (Option.some_ne_none r).symm

theorem Undecided.evidence_ne_some (h : input.Undecided anchor) :
    input.executionEvidence ≠ some evidence := by
  rw [h.evidence]
  exact (Option.some_ne_none evidence).symm

section Groups

variable (input)

-- The two groups of states decide unless nothing is known yet, and then keep the state.
theorem labelOpenOrExecuted_cases :
    input.Undecided (input.executedTsMicros.getD input.createdTsMicros) ∧
      input.labelOpenOrExecuted = censored (.insufficientEvidence 1 0) input.state
        "awaiting_evidence" ∨
    ¬input.Undecided (input.executedTsMicros.getD input.createdTsMicros) ∧
      input.labelOpenOrExecuted.Settled := by
  unfold labelOpenOrExecuted
  cases hc : input.confounded
  case some r =>
    exact .inr ⟨fun h => h.confounded_ne_some hc, settled_confounded hc⟩
  case none =>
    have ⟨hs, ho, hn⟩ := confounded_eq_none_iff.mp hc
    cases he : input.executionEvidence
    case some evidence =>
      exact .inr ⟨fun h => h.evidence_ne_some he,
        settled_withEvidence (settled_labelFromEvidence ..)⟩
    case none =>
      by_cases hw :
        I64.saturatingSub input.nowMicros (input.executedTsMicros.getD input.createdTsMicros) ≤
        input.window.maxWindowMicros
      case pos => exact .inl ⟨⟨hs, ho, hn, he, hw⟩, withoutEvidence_of_le hw⟩
      case neg => exact .inr ⟨fun h => hw h.open_window, settled_withoutEvidence hw⟩

theorem labelNonExecution_cases :
    (input.nonExecutionReason.isSome ∧ input.Undecided input.createdTsMicros) ∧
      input.labelNonExecution =
        censored (.insufficientEvidence 1 0) input.state "non_execution_awaiting_evidence" ∨
    ¬(input.nonExecutionReason.isSome ∧ input.Undecided input.createdTsMicros) ∧
      input.labelNonExecution.Settled := by
  unfold labelNonExecution
  cases hc : input.confounded
  case some r =>
    exact .inr ⟨fun h => h.right.confounded_ne_some hc, settled_confounded hc⟩
  case none =>
    have ⟨hs, ho, hn⟩ := confounded_eq_none_iff.mp hc
    cases hr : input.nonExecutionReason
    case none => exact .inr ⟨fun h => Bool.false_ne_true h.left, settled_censored⟩
    case some reason =>
      cases he : input.executionEvidence
      case some evidence =>
        exact .inr ⟨fun h => h.right.evidence_ne_some he,
          settled_withEvidence (settled_labelInaction ..)⟩
      case none =>
        by_cases hw : I64.saturatingSub input.nowMicros input.createdTsMicros ≤
          input.window.maxWindowMicros
        case pos => exact .inl ⟨⟨rfl, hs, ho, hn, he, hw⟩, withoutEvidence_of_le hw⟩
        case neg => exact .inr ⟨fun h => hw h.right.open_window, settled_withoutEvidence hw⟩

end Groups

theorem labelExperience_of_group (h : input.state = .executed ∨ input.state = .opened) :
    input.labelExperience = input.labelOpenOrExecuted := by
  unfold labelExperience
  cases h <;> simp [*, isNonExecution]

theorem labelExperience_of_nonExecution (h : input.state.isNonExecution) :
    input.labelExperience = input.labelNonExecution :=
  if_pos h

-- Outside of the two groups the state is kept, and nothing is learned.
theorem labelExperience_of_other (hg : ¬(input.state = .executed ∨ input.state = .opened))
    (hn : ¬input.state.isNonExecution) :
    ∃ reason ruleId, ∀ now, { input with nowMicros := now }.labelExperience =
      censored reason input.state ruleId := by
  unfold labelExperience
  cases hs : input.state <;> simp_all [isNonExecution] <;> exact ⟨_, _, rfl⟩

section Now

-- Only an input without evidence reads the clock.
variable (now)

theorem confounded_at : { input with nowMicros := now }.confounded = input.confounded :=
  rfl

theorem withEvidence_at :
    { input with nowMicros := now }.withEvidence anchor evidence labeled =
      input.withEvidence anchor evidence labeled :=
  rfl

theorem withoutEvidence_at (hn : input.nowMicros ≤ now) (hs : input.state ≠ .expired)
    (hx : (input.withoutEvidence anchor expiredRule awaitingRule).newState = .expired) :
    { input with nowMicros := now }.withoutEvidence anchor expiredRule awaitingRule =
      input.withoutEvidence anchor expiredRule awaitingRule := by
  have hw : input.window.maxWindowMicros < I64.saturatingSub input.nowMicros anchor := by
    by_contra hw
    rw [withoutEvidence_of_le (not_lt.mp hw)] at hx
    exact hs hx
  rw [withoutEvidence_of_lt hw]
  exact withoutEvidence_of_lt (hw.trans_le (I64.saturatingSub_mono hn anchor))

theorem labelOpenOrExecuted_at (hs : input.state ≠ .expired)
    (h : input.executionEvidence = none → input.nowMicros ≤ now ∧
      input.labelOpenOrExecuted.newState = .expired) :
    { input with nowMicros := now }.labelOpenOrExecuted = input.labelOpenOrExecuted := by
  unfold labelOpenOrExecuted at h ⊢
  rw [confounded_at]
  cases hc : input.confounded
  case some => rfl
  case none =>
    cases he : input.executionEvidence
    case some => exact withEvidence_at now
    case none =>
      have ⟨hn, hx⟩ := h he
      simp only [hc, he] at hx
      exact withoutEvidence_at now hn hs hx

theorem labelNonExecution_at (hs : input.state ≠ .expired)
    (h : input.executionEvidence = none → input.nowMicros ≤ now ∧
      input.labelNonExecution.newState = .expired) :
    { input with nowMicros := now }.labelNonExecution = input.labelNonExecution := by
  unfold labelNonExecution at h ⊢
  rw [confounded_at]
  cases hc : input.confounded
  case some => rfl
  case none =>
    cases hr : input.nonExecutionReason
    case none => rfl
    case some =>
      cases he : input.executionEvidence
      case some => exact withEvidence_at now
      case none =>
        have ⟨hn, hx⟩ := h he
        simp only [hc, hr, he] at hx
        exact withoutEvidence_at now hn hs hx

theorem labelExperience_at
    (h : input.executionEvidence = none → input.nowMicros ≤ now ∧
      input.labelExperience.newState = .expired) :
    { input with nowMicros := now }.labelExperience = input.labelExperience := by
  by_cases hg : input.state = .executed ∨ input.state = .opened
  case pos =>
    have hs : input.state ≠ .expired := by cases hg <;> simp [*]
    rw [labelExperience_of_group hg] at h ⊢
    exact Eq.trans (labelExperience_of_group hg) (labelOpenOrExecuted_at now hs h)
  case neg =>
    by_cases hne : input.state.isNonExecution
    case pos =>
      have hs : input.state ≠ .expired := by
        intro hs
        simp [hs, isNonExecution] at hne
      rw [labelExperience_of_nonExecution hne] at h ⊢
      exact Eq.trans (labelExperience_of_nonExecution hne) (labelNonExecution_at now hs h)
    case neg =>
      have ⟨reason, ruleId, h⟩ := labelExperience_of_other hg hne
      exact (h now).trans (h input.nowMicros).symm

end Now

theorem accepted_of_settled_iff (hs : r.Settled) {state : ExperienceState}
    (hg : state = .executed ∨ state = .opened ∨ state.isNonExecution) :
    validateTransition state r.newState = .ok () ↔ state = .opened := by
  have hr : r.newState = .resolved ∨ r.newState = .censored ∨ r.newState = .expired :=
    hs.imp And.right And.right
  rcases hr with
    hr | hr | hr <;> rw [hr] <;> cases state <;> simp_all [validateTransition, isNonExecution]

-- The result can be stored, and the label says whether it resolves the experience.
def Accepted (input : LabelingInput) (r : LabelingResult) : Prop :=
  validateTransition input.state r.newState = .ok () ∧
    (r.label.hasLearningSignal ↔ r.newState = .resolved)

theorem accepted_censored {reason : CensorReason} {ruleId : String} :
    input.Accepted (censored reason input.state ruleId) ↔ input.state ≠ .resolved := by
  constructor
  case mp  => exact fun h hr => Bool.false_ne_true (h.right.mpr hr)
  case mpr => exact fun h => ⟨validateTransition_self, iff_of_false Bool.false_ne_true h⟩

theorem accepted_settled (hs : r.Settled)
    (hg : input.state = .executed ∨ input.state = .opened ∨ input.state.isNonExecution) :
    input.Accepted r ↔ input.state = .opened :=
  (and_iff_left hs.signal_iff).trans (accepted_of_settled_iff hs hg)

theorem accepted_openOrExecuted (hg : input.state = .executed ∨ input.state = .opened) :
    input.Accepted input.labelOpenOrExecuted ↔ input.Storable := by
  have hne : ¬input.state.isNonExecution := by cases hg <;> simp [*, isNonExecution]
  have hr : input.state ≠ .resolved := by cases hg <;> simp [*]
  cases input.labelOpenOrExecuted_cases
  case inl h =>
    rw [h.right, accepted_censored]
    exact iff_of_true hr ⟨hr, fun _ => h.left, fun hn => (hne hn).elim⟩
  case inr h =>
    rw [accepted_settled h.right (hg.imp_right .inl)]
    constructor
    case mp =>
      intro ho
      exact ⟨hr, fun hx => ExperienceState.noConfusion (hx.symm.trans ho), fun hn => (hne hn).elim⟩
    case mpr =>
      intro hs
      exact hg.resolve_left fun hx => h.left (hs.executed hx)

theorem accepted_nonExecution (hne : input.state.isNonExecution) :
    input.Accepted input.labelNonExecution ↔ input.Storable := by
  have hx : input.state ≠ .executed ∧ input.state ≠ .opened ∧ input.state ≠ .resolved := by
    refine ⟨?_, ?_, ?_⟩ <;> intro hs <;> simp [hs, isNonExecution] at hne
  have ⟨hx, ho, hr⟩ := hx
  cases input.labelNonExecution_cases
  case inl h =>
    rw [h.right, accepted_censored]
    exact iff_of_true hr ⟨hr, fun hs => (hx hs).elim, fun _ => h.left⟩
  case inr h =>
    rw [accepted_settled h.right (.inr (.inr hne))]
    exact iff_of_false ho fun hs => h.left (hs.nonExecution hne)

theorem accepted_iff : input.Accepted input.labelExperience ↔ input.Storable := by
  by_cases hg : input.state = .executed ∨ input.state = .opened
  case pos =>
    rw [labelExperience_of_group hg]
    exact accepted_openOrExecuted hg
  case neg =>
    by_cases hne : input.state.isNonExecution
    case pos =>
      rw [labelExperience_of_nonExecution hne]
      exact accepted_nonExecution hne
    case neg =>
      have ⟨reason, ruleId, h⟩ := labelExperience_of_other hg hne
      have h : input.labelExperience = censored reason input.state ruleId := h input.nowMicros
      rw [h, accepted_censored]
      constructor
      case mp  => exact fun hr => ⟨hr, fun hx => (hg (.inl hx)).elim, fun hn => (hne hn).elim⟩
      case mpr => exact fun h => h.unresolved

theorem respectsLifecycle_iff (input : LabelingInput) : input.RespectsLifecycle ↔
    input.Storable := by
  rw [← accepted_iff]
  constructor
  case mp => exact fun h => ⟨h.accepted, h.signal⟩
  case mpr =>
    intro h
    constructor
    case accepted => exact h.left
    case signal   => exact h.right
    case ageless =>
      intro he now
      exact labelExperience_at now fun hn => by simp [hn] at he
    case expired =>
      intro _ hx now hn
      exact labelExperience_at now fun _ => ⟨hn, hx⟩

-- A skipped experience has been observed to go well, and one that is resolved is labeled again.
def sampleInput (state : ExperienceState) : LabelingInput where
  state                       := state
  effectKind                  := .noAction
  createdTsMicros             := 0
  executedTsMicros            := none
  nowMicros                   := 60000000
  nonExecutionReason          := some (.safetyGate [] .zero .zero)
  concurrentInterventionCount := 0
  subjectDeparted             := false
  operatorChange              := none
  executionEvidence           := some ⟨40000000, true, .improved, false, .zero⟩

theorem not_respectsLifecycle_skippedOrResolved :
    ¬(sampleInput .skipped).RespectsLifecycle ∧ ¬(sampleInput .executed).RespectsLifecycle ∧
    ¬(sampleInput .resolved).RespectsLifecycle := by
  refine ⟨fun h => ?_, fun h => ?_, fun h => ?_⟩
  case refine_1 => cases h.accepted
  case refine_2 => cases h.accepted
  case refine_3 => exact Bool.false_ne_true (h.signal.mpr rfl)

end LabelingInput

end Experience
