import AgentMail.Liveness.Theorems.Schedule

open Pattern (Str)

namespace Liveness

namespace AtcEngine

variable {engine engine' : AtcEngine} {agent agent' : Str} {entry : AgentLivenessEntry}
  {now limit : Int}
variable {thresholds : Thresholds} {f : AgentLivenessEntry → AgentLivenessEntry}
  {hf : ∀ entry, (f entry).name = entry.name}
variable {l : List Str} {choose : Str → Option LivenessAction} {action : LivenessAction}
variable {actions : List (Str × LivenessAction)} {pending : Str → Prop} {e : Event}
  {es : List Event}

theorem get?_rescheduleAgent : (engine.rescheduleAgent agent now thresholds).agents.get? agent' =
    if agent' = agent then (engine.agents.get? agent').map fun entry =>
      { entry with
        scheduleVersion  := U64.saturate (entry.scheduleVersion + 1)
        nextReviewMicros := engine.reviewTime thresholds now entry }
    else engine.agents.get? agent' := by
  cases he : engine.agents.get? agent
  case none =>
    rw [rescheduleAgent_of_none he]
    by_cases ha : agent' = agent
    · simp [ha, he]
    · simp [ha]
  case some entry =>
    rw [rescheduleAgent_eq he, get?_scheduleEntryForPush]
    by_cases ha : agent' = agent
    · simp [ha, he]
    · simp [ha]

-- An agent that has been heard of and is not dead is looked at within a time of its last activity.
def Prompt (limit : Int) (engine : AtcEngine) (pending : Str → Prop) : Prop :=
  ∀ agent entry, engine.agents.get? agent = some entry → entry.state ≠ .dead →
    0 < entry.lastActivityTs → ¬pending agent →
    entry.nextReviewMicros ≤ I64.saturatingAdd entry.lastActivityTs (max limit 1)

theorem nextReviewTimeForPolicy_le_of_alive {threshold : Int} (hd : entry.state ≠ .dead)
    (ha : 0 < entry.lastActivityTs) (ht : threshold ≤ limit) :
    engine.nextReviewTimeForPolicy entry threshold now ≤ I64.saturatingAdd entry.lastActivityTs
      (max limit 1) := by
  have hle : I64.saturatingAdd entry.lastActivityTs (max threshold 1) ≤
      I64.saturatingAdd entry.lastActivityTs (max limit 1) :=
    I64.saturate_mono (by omega)
  simp only [nextReviewTimeForPolicy, hd, Int.not_le.mpr ha, or_self, if_false]
  split <;> split <;> simp [hle]

namespace Prompt

theorem rescheduleAgent (h : engine.Prompt limit pending)
    (ht : thresholds.incumbent agent ≤ limit) :
    (engine.rescheduleAgent agent now thresholds).Prompt limit fun a => pending a ∧ a ≠ agent := by
  intro a e he hd ha hp
  rw [get?_rescheduleAgent] at he
  split at he
  case isFalse hne => exact h a e he hd ha fun hpa => hp ⟨hpa, hne⟩
  case isTrue heq  =>
    obtain ⟨entry, hg, rfl⟩ := Option.map_eq_some_iff.mp he
    have hn : entry.name = agent := (name_of_get? hg).trans heq
    exact (min_le_left ..).trans (nextReviewTimeForPolicy_le_of_alive hd ha (hn ▸ ht))

theorem updateEntry (h : engine.Prompt limit pending) :
    (engine.updateEntry agent f hf).Prompt limit fun a => pending a ∨ a = agent := by
  intro a e he hd ha hp
  have ⟨hpa, hne⟩ := not_or.mp hp
  rw [AtcEngine.updateEntry, get?_update, if_neg hne] at he
  exact h a e he hd ha hpa

-- A change of an agent is followed by a new review of it.
theorem touch (h : engine.Prompt limit pending) (ht : thresholds.incumbent agent ≤ limit) :
    ((engine.updateEntry agent f hf).rescheduleAgent agent now thresholds).Prompt limit
      pending := by
  intro a e he hd ha hp
  exact h.updateEntry.rescheduleAgent ht a e he hd ha fun ⟨hpa, hne⟩ => hpa.elim hp hne

theorem reschedule (h : engine.Prompt limit pending) (ht : thresholds.incumbent agent ≤ limit) :
    (engine.rescheduleAgent agent now thresholds).Prompt limit pending := by
  intro a e he hd ha hp
  exact h.rescheduleAgent ht a e he hd ha fun ⟨hpa, _⟩ => hp hpa

theorem inspect (h : engine.Prompt limit pending) (ht : thresholds.incumbent agent ≤ limit) :
    (inspect now thresholds choose (engine, actions) agent).1.Prompt limit pending := by
  simp only [AtcEngine.inspect]
  split
  case h_1 => exact h
  case h_2 entry he =>
    split
    case isFalse =>
      split
      case h_1 => exact h.touch ht
      case h_2 => exact h.touch ht
      case h_3 => exact h.reschedule ht
    case isTrue hdead =>
      intro a e hg hd ha hp
      rw [AtcEngine.updateEntry, get?_update] at hg
      split at hg
      case isFalse    => exact h a e hg hd ha hp
      case isTrue heq =>
        rw [heq, he, Option.map_some, Option.some.injEq] at hg
        exact absurd (hg ▸ hdead) hd

theorem foldl_inspect (h : engine.Prompt limit pending)
    (ht : ∀ agent, thresholds.incumbent agent ≤ limit) :
    (l.foldl (AtcEngine.inspect now thresholds choose) (engine, actions)).1.Prompt limit
      pending := by
  induction l generalizing engine actions
  case nil          => exact h
  case cons a l hi => exact hi (h.inspect (ht a))

end Prompt

end AtcEngine

-- The incumbent takes no agent for silent later than that.
def Event.Below (limit : Int) : Event → Prop
  | register _ _ thresholds | observe _ _ _ thresholds | evaluate _ thresholds _ | probe
    _ _ thresholds
  | withhold _ _ thresholds => ∀ agent, thresholds.incumbent agent ≤ limit
  | dirty | status          => True

namespace AtcEngine

variable {engine : AtcEngine} {limit : Int} {pending : Str → Prop} {e : Event} {es : List Event}

theorem Prompt.step (h : engine.Prompt limit pending) (hb : e.Below limit) :
    (engine.step e).1.Prompt limit pending := by
  cases e
  case register name now thresholds =>
    simp only [AtcEngine.step, registerAgent]
    split
    case isTrue  => exact h
    case isFalse =>
      refine reschedule (fun a e he hd ha hp => ?_) (hb name)
      rw [Table.get?_insertOrIgnore] at he
      split at he
      case isFalse => exact h a e he hd ha hp
      case isTrue  =>
        cases hg : engine.agents.get? a
        case none   => exact absurd ha (Option.some.inj (hg ▸ he) ▸ lt_irrefl _)
        case some _ => exact h a e (by rw [← he, hg, Option.getD_some]) hd ha hp
  case observe agent ts recalibrated thresholds =>
    have ht := hb agent
    have ho {engine : AtcEngine} {hf : ∀ entry, (observed ts entry).name = entry.name}
        (h : engine.Prompt limit pending) :
        ((engine.updateEntry agent (observed ts) hf).rescheduleAgent agent ts thresholds).Prompt
          limit pending := h.touch ht
    simp only [AtcEngine.step, observeActivity]
    split
    case isTrue  => exact h
    case isFalse =>
      cases recalibrated
      all_goals simp only [Bool.false_eq_true, if_false, if_true]
      all_goals split
      all_goals exact ho h
  case evaluate => exact Prompt.foldl_inspect h hb
  case probe    => exact h.touch (hb _)
  case withhold => exact h.touch (hb _)
  case dirty    => exact h
  case status   => exact h

theorem Prompt.steps (h : engine.Prompt limit pending) (hb : ∀ e ∈ es, e.Below limit) :
    (engine.steps es).1.Prompt limit pending := by
  induction es generalizing engine
  case nil          => exact h
  case cons e es hi =>
    have ⟨hb, hbs⟩ := List.forall_mem_cons.mp hb
    exact hi (h.step hb) hbs

-- No agent stays silent for longer than the incumbent allows without being looked at, unless it is
-- dead.
theorem mem_popDueAgents_of_silent {probeIntervalMicros now : Int} {agent : Str}
    {entry : AgentLivenessEntry} (hb : ∀ e ∈ es, e.Below limit)
    (he : ((new probeIntervalMicros).steps es).1.agents.get? agent = some entry)
    (hd : entry.state ≠ .dead) (ha : 0 < entry.lastActivityTs)
    (hs : I64.saturatingAdd entry.lastActivityTs (max limit 1) ≤ now) (hn : now < maxMicros) :
    agent ∈ (((new probeIntervalMicros).steps es).1.popDueAgents now).2 := by
  have hp : (new probeIntervalMicros).Prompt limit fun _ => False := nofun
  have hle := (hp.steps hb agent entry he hd ha id).trans hs
  exact Inv.new.steps.covers.mem_popDueAgents.mpr (.inl ⟨entry, he, hle, hle.trans_lt hn⟩)

theorem mem_popDueAgents_of_silent_heardOfTwice :
    ['a'] ∈ (((new 1000000).steps heardOfTwice).1.popDueAgents 40).2 := by
  have he : ((new 1000000).steps heardOfTwice).1.agents.get? ['a'] = some ⟨['a'], .alive, 30, 0, 0,
      3, 35⟩ := by decide +kernel
  have hb : ∀ e ∈ heardOfTwice, e.Below 5 := by
    simp [heardOfTwice, Event.Below]
  exact mem_popDueAgents_of_silent hb he nofun (by decide) (by decide) (by decide)

section Dead

variable {agent agent' : Str} {entry : AgentLivenessEntry} {now : Int} {thresholds : Thresholds}
variable {f : AgentLivenessEntry → AgentLivenessEntry} {hf : ∀ entry, (f entry).name = entry.name}
variable {l : List Str} {choose : Str → Option LivenessAction} {action : LivenessAction}
  {actions : List (Str × LivenessAction)}
variable {es : List Event}

def Dead (engine : AtcEngine) (agent : Str) : Prop :=
  ∃ entry, engine.agents.get? agent = some entry ∧ entry.state = .dead

namespace Dead

theorem rescheduleAgent (h : engine.Dead agent) :
    (engine.rescheduleAgent agent' now thresholds).Dead agent := by
  obtain ⟨entry, he, hd⟩ := h
  rw [Dead, get?_rescheduleAgent, he]
  split
  case isTrue  => exact ⟨_, rfl, hd⟩
  case isFalse => exact ⟨entry, rfl, hd⟩

theorem updateEntry (h : engine.Dead agent)
    (hs : agent' = agent → ∀ entry, entry.state = .dead → (f entry).state = .dead) :
    (engine.updateEntry agent' f hf).Dead agent := by
  obtain ⟨entry, he, hd⟩ := h
  rw [Dead, AtcEngine.updateEntry, get?_update, he]
  split
  case isTrue ha => exact ⟨_, rfl, hs ha.symm entry hd⟩
  case isFalse   => exact ⟨entry, rfl, hd⟩

-- Nothing is done to a dead agent.
theorem inspect (h : engine.Dead agent) :
    (inspect now thresholds choose (engine, actions) agent').1.Dead agent ∧
      ∀ action,
        (agent, action) ∈ (AtcEngine.inspect now thresholds choose (engine, actions) agent').2 →
        (agent, action) ∈ actions := by
  simp only [AtcEngine.inspect]
  split
  case h_1 => exact ⟨h, fun _ => id⟩
  case h_2 entry he =>
    split
    case isTrue  => exact ⟨h.updateEntry fun _ _ hd => hd, fun _ => id⟩
    case isFalse hn =>
      have hne : agent' ≠ agent := by
        rintro rfl
        obtain ⟨_, he', hd⟩ := h
        exact hn (Option.some.inj (he.symm.trans he') ▸ hd)
      split
      case h_1 =>
        exact ⟨(h.updateEntry fun heq => absurd heq hne).rescheduleAgent, by simp [Ne.symm hne]⟩
      case h_2 =>
        exact ⟨(h.updateEntry fun heq => absurd heq hne).rescheduleAgent, by simp [Ne.symm hne]⟩
      case h_3 => exact ⟨h.rescheduleAgent, fun _ => id⟩

theorem foldl_inspect (h : engine.Dead agent) :
    (l.foldl (AtcEngine.inspect now thresholds choose) (engine, actions)).1.Dead agent ∧
      ∀ action,
        (agent, action) ∈ (l.foldl (AtcEngine.inspect now thresholds choose) (engine, actions)).2 →
        (agent, action) ∈ actions := by
  induction l generalizing engine actions
  case nil          => exact ⟨h, fun _ => id⟩
  case cons a l hi =>
    have ⟨hd, ha⟩ : (AtcEngine.inspect now thresholds choose (engine, actions) a).1.Dead agent ∧
        _ := h.inspect
    have hs := @hi _ (AtcEngine.inspect now thresholds choose (engine, actions) a).2 hd
    exact ⟨hs.left, fun action hm => ha action (hs.right action hm)⟩

end Dead

-- An agent of which the reservations are released is dead.
theorem dead_of_mem_inspect (h : (agent, .releaseReservations) ∈ actions → engine.Dead agent)
    (hm : (agent, .releaseReservations) ∈
      (inspect now thresholds choose (engine, actions) agent').2) :
    (inspect now thresholds choose (engine, actions) agent').1.Dead agent := by
  by_cases ha : (agent, .releaseReservations) ∈ actions
  case pos => exact (h ha).inspect.left
  case neg =>
    simp only [AtcEngine.inspect] at hm ⊢
    split at hm
    case h_1 => exact absurd hm ha
    case h_2 entry he =>
      split at hm
      case isTrue     => exact absurd hm ha
      case isFalse hn =>
        rw [if_neg hn]
        split at hm
        case h_1 => simp [ha] at hm
        case h_3 => exact absurd hm ha
        case h_2 =>
          obtain rfl : agent = agent' := by simpa [ha] using hm
          refine Dead.rescheduleAgent ⟨{ entry with state := .dead }, ?_, rfl⟩
          rw [updateEntry, get?_update, if_pos rfl, he, Option.map_some]

theorem dead_of_mem_foldl_inspect (h : (agent, .releaseReservations) ∈ actions → engine.Dead agent)
    (hm : (agent, .releaseReservations) ∈
      (l.foldl (inspect now thresholds choose) (engine, actions)).2) :
    (l.foldl (inspect now thresholds choose) (engine, actions)).1.Dead agent := by
  induction l generalizing engine actions
  case nil          => exact h hm
  case cons a l hi => exact hi (dead_of_mem_inspect h) hm

end Dead

end AtcEngine

-- What brings a dead agent back.
def Event.Revives (agent : Str) : Event → Prop
  | observe agent' .. | withhold agent' .. => agent' = agent
  | _                                      => False

namespace AtcEngine

variable {engine : AtcEngine} {agent : Str} {e : Event} {es : List Event}

theorem Dead.step (h : engine.Dead agent) (hr : ¬e.Revives agent) :
    (engine.step e).1.Dead agent ∧ ∀ action, (agent, action) ∉ (engine.step e).2 := by
  cases e
  case register name now thresholds =>
    refine ⟨?_, fun _ => List.not_mem_nil⟩
    simp only [AtcEngine.step, registerAgent]
    split
    case isTrue  => exact h
    case isFalse =>
      obtain ⟨entry, he, hd⟩ := h
      refine rescheduleAgent ⟨entry, ?_, hd⟩
      rw [Table.get?_insertOrIgnore, he, Option.getD_some, ite_self]
  case observe agent' ts recalibrated thresholds =>
    refine ⟨?_, fun _ => List.not_mem_nil⟩
    have ho {engine : AtcEngine} {hf : ∀ entry, (observed ts entry).name = entry.name}
        (h : engine.Dead agent) :
        ((engine.updateEntry agent' (observed ts) hf).rescheduleAgent agent' ts thresholds).Dead
          agent :=
      (h.updateEntry fun heq => absurd heq hr).rescheduleAgent
    simp only [AtcEngine.step, observeActivity]
    split
    case isTrue  => exact h
    case isFalse =>
      cases recalibrated
      all_goals simp only [Bool.false_eq_true, if_false, if_true]
      all_goals split
      all_goals exact ho h
  case evaluate now thresholds choose =>
    have h : (engine.popDueAgents now).1.Dead agent := h
    exact ⟨h.foldl_inspect.left, fun action hm =>
      List.not_mem_nil (h.foldl_inspect.right action hm)⟩
  case probe agent' now thresholds =>
    have hp : (engine.updateEntry agent' ({ · with probeSentAt := now }) fun _ => rfl).Dead agent :=
      h.updateEntry fun _ _ hd => hd
    exact ⟨hp.rescheduleAgent, fun _ => List.not_mem_nil⟩
  case withhold =>
    exact ⟨(h.updateEntry fun heq => absurd heq hr).rescheduleAgent, fun _ => List.not_mem_nil⟩
  case dirty    => exact ⟨h, fun _ => List.not_mem_nil⟩
  case status   => exact ⟨h, fun _ => List.not_mem_nil⟩

theorem Dead.steps (h : engine.Dead agent) (hr : ∀ e ∈ es, ¬e.Revives agent) :
    (engine.steps es).1.Dead agent ∧ ∀ action, (agent, action) ∉ (engine.steps es).2 := by
  induction es generalizing engine
  case nil          => exact ⟨h, fun _ => List.not_mem_nil⟩
  case cons e es hi =>
    have ⟨hr, hrs⟩ := List.forall_mem_cons.mp hr
    have ⟨hd, ha⟩ := h.step hr
    have ⟨hd', ha'⟩ := hi hd hrs
    exact ⟨hd', fun action hm => (List.mem_append.mp hm).elim (ha action) (ha' action)⟩

-- The reservations of an agent are released once, until it is heard of or the release is withheld.
theorem not_mem_steps_of_released {now : Int} {thresholds : Thresholds}
    {choose : Str → Option LivenessAction}
    (h : (agent, .releaseReservations) ∈ (engine.evaluateLiveness now thresholds choose).2)
    (hr : ∀ e ∈ es, ¬e.Revives agent) (action : LivenessAction) :
    (agent, action) ∉ ((engine.evaluateLiveness now thresholds choose).1.steps es).2 :=
  (Dead.steps (dead_of_mem_foldl_inspect (absurd · List.not_mem_nil) h) hr).right action

theorem not_mem_steps_of_released_heardOfTwice : (['a'], .suspect) ∉
    ((((new 1000000).steps heardOfTwice).1.evaluateLiveness 40 ⟨fun _ => 5, none⟩ fun _ =>
      some .releaseReservations).1.steps
      [.dirty, .evaluate 50 ⟨fun _ => 5, none⟩ fun _ => some .suspect]).2 :=
  not_mem_steps_of_released (by decide +kernel) (by simp [Event.Revives]) .suspect

end AtcEngine

end Liveness
