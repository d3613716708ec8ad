import AgentMail.Experience.Labeling
import AgentMail.Lib.Except

namespace Experience

open ExperienceState

variable {row row' : ExperienceRow} {id : Nat} {req : TransitionRequest}
  {newState : ExperienceState} {ts : Int}

theorem validateTransition_self : validateTransition newState newState = .ok () :=
  if_pos rfl

theorem eq_of_terminal (ht : row.state.isTerminal)
    (h : validateTransition row.state newState = .ok ()) : newState = row.state := by
  cases hs : row.state <;> cases newState <;> simp_all [validateTransition, isTerminal]

namespace ExperienceRow

-- The row that a transition makes of `row`, apart from the context.
def moved (row : ExperienceRow) (req : TransitionRequest) : ExperienceRow :=
  ({ row with state := req.newState }.stamp req.newState req.tsMicros).setReason req

@[simp]
theorem state_stamp : (row.stamp newState ts).state = row.state := by
  cases newState <;> rfl

@[simp]
theorem context_stamp : (row.stamp newState ts).context = row.context := by
  cases newState <;> rfl

@[simp]
theorem nonExecutionReason_stamp :
    (row.stamp newState ts).nonExecutionReason = row.nonExecutionReason := by
  cases newState <;> rfl

@[simp]
theorem state_setReason : (row.setReason req).state = row.state := by
  rw [setReason]
  split <;> rfl

@[simp]
theorem context_setReason : (row.setReason req).context = row.context := by
  rw [setReason]
  split <;> rfl

theorem transition_eq_ok_iff :
    row.transition id req = .ok row' ↔
      validateTransition row.state req.newState = .ok () ∧
      (req.nonExecutionReason.isSome → req.newState.isNonExecution) ∧
      (req.newState.isNonExecution → row.state ≠ req.newState → req.nonExecutionReason.isSome) ∧
      ∃ context, mergeContextPatch row.context req.contextPatch = .ok context ∧
        row' = { row.moved req with context := context } := by
  unfold transition transitionTo
  simp only [bind, Except.bind, pure, Except.pure, throw, throwThe, MonadExceptOf.throw]
  cases hv : validateTransition row.state req.newState
  case error reason =>
    have hne : row.state ≠ req.newState := by
      intro h
      rw [h, validateTransition_self] at hv
      contradiction
    simp [hne]
  case ok =>
    simp only [Except.map, ite_self, true_and]
    by_cases hr : req.nonExecutionReason.isSome ∧ ¬req.newState.isNonExecution
    case pos => simp [hr]
    case neg =>
      rw [if_neg hr]
      by_cases hm : req.newState.isNonExecution ∧ row.state ≠ req.newState ∧
        req.nonExecutionReason.isNone
      case pos =>
        rw [if_pos hm]
        have hn : ¬req.nonExecutionReason.isSome := by simpa using hm.right.right
        exact ⟨nofun, fun h => absurd (h.right.left hm.left hm.right.left) hn⟩
      case neg =>
        rw [if_neg hm, context_setReason, context_stamp]
        have hr : req.nonExecutionReason.isSome → req.newState.isNonExecution := by simpa using hr
        have hm : req.newState.isNonExecution → row.state ≠ req.newState →
            req.nonExecutionReason.isSome := by
          intro h hne
          by_contra hn
          exact hm ⟨h, hne, by simpa using hn⟩
        cases mergeContextPatch row.context req.contextPatch
        case error => exact ⟨nofun, fun ⟨_, _, _, h, _⟩ => nomatch h⟩
        case ok context =>
          constructor
          case mp =>
            intro h
            exact ⟨hr, hm, context, rfl, (Except.ok.inj h).symm⟩
          case mpr =>
            intro ⟨_, _, _, hc, h⟩
            rw [h, ← Except.ok.inj hc]
            rfl

end ExperienceRow

variable {d : Decoder} {store store' : Store} {faults : Faults}

theorem sqlId_eq_ok_iff {u : Unit} : sqlId id = .ok u ↔ id < 2 ^ 63 := by
  rw [sqlId]
  split <;> simp_all

theorem check_eq_ok_iff {statement : Statement} {u : Unit} : faults.check statement = .ok u ↔
    faults statement = none := by
  rw [Faults.check]
  split <;> simp_all

theorem transitionAtcExperience_eq_ok_iff :
    transitionAtcExperience d store id req faults = .ok store' ↔
      id < 2 ^ 63 ∧ faults.None [.connect, .begin, .select, .update, .commit] ∧
      ∃ stored decoded row, store.get? id = some stored ∧ d.decode stored = .ok decoded ∧
        decoded.transition id req = .ok row ∧
        store' = store.update (·.experienceId = id) row.write row.experienceId_write := by
  rw [transitionAtcExperience]
  simp only [Except.bind_eq_ok_iff, sqlId_eq_ok_iff, check_eq_ok_iff, Faults.None]
  cases store.get? id
  case none => simp [throw, throwThe, MonadExceptOf.throw]
  case some stored =>
    simp only [Except.bind_eq_ok_iff, check_eq_ok_iff, pure, Except.pure, exists_and_left,
      exists_const, Option.some.injEq, Except.ok.injEq, List.forall_mem_cons, List.not_mem_nil,
      false_implies, implies_true, and_true]
    constructor
    case mp =>
      rintro ⟨hid, hc, hb, hs, decoded, hd, row, hr, hu, hm, he⟩
      exact ⟨hid, ⟨hc, hb, hs, hu, hm⟩, stored, rfl, decoded, hd, row, hr, he.symm⟩
    case mpr =>
      rintro ⟨hid, ⟨hc, hb, hs, hu, hm⟩, _, he, decoded, hd, row, hr, hs'⟩
      exact ⟨hid, hc, hb, hs, decoded, he ▸ hd, row, hr, hu, hm, hs'.symm⟩

theorem resolveAtcExperience_eq_ok_iff {outcome : ExperienceOutcome} :
    resolveAtcExperience store id outcome faults = .ok store' ↔
      id < 2 ^ 63 ∧ faults.None [.connect, .begin, .update, .commit] ∧
      store' = store.update (fun row => row.experienceId = id ∧
        row.state = opened) (.resolveWith outcome)
        (ExperienceRow.experienceId_resolveWith outcome) := by
  rw [resolveAtcExperience, @eq_comm _ store']
  simp only [Except.bind_eq_ok_iff, sqlId_eq_ok_iff, check_eq_ok_iff, Faults.None, pure,
    Except.pure, exists_const, Except.ok.injEq, List.forall_mem_cons, List.not_mem_nil,
    false_implies, implies_true, and_true, and_assoc]

end Experience
