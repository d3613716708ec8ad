import AgentMail.Liveness.Basic
import Mathlib.Order.Bounds.Basic

open Pattern (Str)

namespace Liveness

def AgentLivenessEntry.review (entry : AgentLivenessEntry) : ScheduledAgentReview :=
  ⟨entry.nextReviewMicros, entry.scheduleVersion, entry.name⟩

namespace AtcEngine

variable {engine engine' : AtcEngine} {agent agent' : Str} {entry : AgentLivenessEntry}
  {now reviewAt : Int}
variable {thresholds : Thresholds} {f : AgentLivenessEntry → AgentLivenessEntry}
  {hf : ∀ entry, (f entry).name = entry.name}
variable {next : ScheduledAgentReview} {due l : List Str} {choose : Str → Option LivenessAction}
variable {actions : List (Str × LivenessAction)} {pending : Str → Prop}

theorem name_of_get? (h : engine.agents.get? agent = some entry) : entry.name = agent :=
  (Table.get?_eq_some_iff.mp h).right

theorem get?_update {agents : Table AgentLivenessEntry.name} :
    (agents.update (·.name = agent) f hf).get? agent' =
      if agent' = agent then (agents.get? agent').map f else agents.get? agent' := by
  rw [Table.get?_update hf]
  cases h : agents.get? agent'
  case none       => simp
  case some entry =>
    have hn : entry.name = agent' := (Table.get?_eq_some_iff.mp h).right
    by_cases ha : agent' = agent <;> simp [hn, ha]

-- The reviews that are ahead are in the schedule, except for agents of which the review is due.
structure Covers (engine : AtcEngine) (pending : Str → Prop) : Prop where
  covered  : ∀ agent entry, engine.agents.get? agent = some entry →
    entry.nextReviewMicros < maxMicros → ¬pending agent → entry.review ∈ engine.livenessSchedule
  upcoming : ∀ next ∈ engine.livenessSchedule, next.reviewAtMicros < maxMicros
  bounded  : ∀ agent entry, engine.agents.get? agent = some entry →
    entry.nextReviewMicros ≤ maxMicros

def Short (engine : AtcEngine) : Prop :=
  engine.livenessSchedule.length ≤ max (engine.agents.rows.length * 4) 64

theorem agents_compact : engine.compactLivenessScheduleIfNeeded.agents = engine.agents := by
  simp only [compactLivenessScheduleIfNeeded]
  split <;> rfl

theorem short_compact : engine.compactLivenessScheduleIfNeeded.Short := by
  rw [Short, agents_compact]
  simp only [compactLivenessScheduleIfNeeded]
  split
  case isTrue h  =>
    have hs := U64.saturate_le (engine.scheduledAgentCount * 4)
    have hc : engine.scheduledAgentCount ≤ engine.agents.rows.length := List.length_filter_le ..
    omega
  case isFalse h =>
    have hl : (engine.agents.rows.filter (·.nextReviewMicros ≠ maxMicros)).length ≤
        engine.agents.rows.length :=
      List.length_filter_le ..
    rw [Heap.length_ofList, List.length_map]
    omega

-- A schedule that is rebuilt covers every agent.
theorem Covers.compact (h : engine.Covers pending) :
    engine.compactLivenessScheduleIfNeeded.Covers pending := by
  simp only [compactLivenessScheduleIfNeeded]
  split
  case isTrue  => exact h
  case isFalse =>
    refine ⟨fun agent entry he hlt _ => ?_, fun next hn => ?_, h.bounded⟩
    · refine Heap.mem_ofList.mpr (List.mem_map.mpr ⟨entry,
        List.mem_filter.mpr ⟨(Table.get?_eq_some_iff.mp he).left, ?_⟩, rfl⟩)
      exact decide_eq_true hlt.ne
    · have ⟨entry, hm, he⟩ := List.mem_map.mp (Heap.mem_ofList.mp hn)
      have ⟨hm, hne⟩ := List.mem_filter.mp hm
      exact he ▸ lt_of_le_of_ne (h.bounded _ entry (Table.get?_key hm)) (of_decide_eq_true hne)

theorem get?_scheduleEntryForPush :
    (engine.scheduleEntryForPush agent reviewAt).agents.get? agent' =
      if agent' = agent then (engine.agents.get? agent').map fun entry =>
        { entry with
          scheduleVersion := U64.saturate (entry.scheduleVersion + 1), nextReviewMicros :=
          reviewAt }
    else engine.agents.get? agent' := by
  unfold scheduleEntryForPush
  cases he : engine.agents.get? agent
  case none       =>
    by_cases ha : agent' = agent
    · simp [ha, he]
    · simp [ha]
  case some entry =>
    dsimp only
    rw [apply_ite AtcEngine.agents, agents_compact, ite_self, get?_update]
    by_cases ha : agent' = agent
    · simp [ha, he]
    · simp [ha]

theorem Short.scheduleEntryForPush (h : engine.Short) :
    (engine.scheduleEntryForPush agent reviewAt).Short := by
  unfold AtcEngine.scheduleEntryForPush
  split
  case h_1 => exact h
  case h_2 =>
    dsimp only
    split
    case isTrue  => exact short_compact
    case isFalse => simpa [Short, Table.update] using h

theorem Covers.scheduleEntryForPush (h : engine.Covers pending) (hr : reviewAt ≤ maxMicros) :
    (engine.scheduleEntryForPush agent reviewAt).Covers fun a => pending a ∧ a ≠ agent := by
  unfold AtcEngine.scheduleEntryForPush
  split
  case h_1 hn =>
    refine ⟨fun a entry ha hlt hp => h.covered a entry ha hlt fun hpa => hp ⟨hpa, fun he => ?_⟩,
      h.upcoming, h.bounded⟩
    rw [he, hn] at ha
    cases ha
  case h_2 entry he =>
    dsimp only
    have hname : entry.name = agent := name_of_get? he
    have get {a e} (ha : (engine.agents.update (·.name = agent) (fun e => { e with
        scheduleVersion := U64.saturate (entry.scheduleVersion + 1), nextReviewMicros :=
          reviewAt }) fun _ => rfl).get? a = some e) :
        a = agent ∧ e.nextReviewMicros = reviewAt ∧
          e.review = ⟨reviewAt, U64.saturate (entry.scheduleVersion + 1), agent⟩ ∨
          a ≠ agent ∧ engine.agents.get? a = some e := by
      rw [get?_update] at ha
      split at ha
      case isFalse hne => exact .inr ⟨hne, ha⟩
      case isTrue heq  =>
        rw [heq, he, Option.map_some, Option.some.injEq] at ha
        exact .inl ⟨heq, ha ▸ rfl, ha ▸ hname ▸ rfl⟩
    split
    case isTrue hlt =>
      refine Covers.compact ⟨fun a e ha hlt' hp => Heap.mem_push.mpr ?_, fun next hn => ?_,
        fun a e ha => ?_⟩
      · obtain ⟨_, _, hr⟩ | ⟨hne, ha⟩ := get ha
        · exact .inl hr
        · exact .inr (h.covered a e ha hlt' fun hpa => hp ⟨hpa, hne⟩)
      · obtain rfl | hn := Heap.mem_push.mp hn
        · exact hlt
        · exact h.upcoming next hn
      · obtain ⟨_, hn, _⟩ | ⟨_, ha⟩ := get ha
        · exact hn ▸ hr
        · exact h.bounded a e ha
    case isFalse hlt =>
      refine ⟨fun a e ha hlt' hp => ?_, h.upcoming, fun a e ha => ?_⟩
      · obtain ⟨_, hn, _⟩ | ⟨hne, ha⟩ := get ha
        · exact absurd (hn ▸ hlt') hlt
        · exact h.covered a e ha hlt' fun hpa => hp ⟨hpa, hne⟩
      · obtain ⟨_, hn, _⟩ | ⟨_, ha⟩ := get ha
        · exact hn ▸ hr
        · exact h.bounded a e ha

theorem nextReviewTimeForPolicy_le {threshold : Int} :
    engine.nextReviewTimeForPolicy entry threshold now ≤ maxMicros := by
  have hs (n : Int) : I64.saturate n ≤ maxMicros := by
    rw [I64.saturate, maxMicros]
    omega
  simp only [nextReviewTimeForPolicy]
  split
  case isTrue  => exact le_rfl
  case isFalse =>
    have hle : I64.saturatingAdd entry.lastActivityTs (max threshold 1) ≤ maxMicros := hs _
    split <;> split <;> simp [hle]

-- When an agent is looked at next.
def reviewTime (engine : AtcEngine) (thresholds : Thresholds) (now : Int)
    (entry : AgentLivenessEntry) : Int :=
  min (engine.nextReviewTimeForPolicy entry (thresholds.incumbent entry.name) now)
    (thresholds.candidate.elim maxMicros fun threshold =>
      engine.nextReviewTimeForPolicy entry (threshold entry.name) now)

theorem rescheduleAgent_eq (h : engine.agents.get? agent = some entry) :
    engine.rescheduleAgent agent now thresholds = engine.scheduleEntryForPush agent
      (engine.reviewTime thresholds now entry) := by
  rw [rescheduleAgent, h]
  obtain rfl := name_of_get? h
  rfl

theorem rescheduleAgent_of_none (h : engine.agents.get? agent = none) :
    engine.rescheduleAgent agent now thresholds = engine := by
  rw [rescheduleAgent, h]

theorem Short.rescheduleAgent (h : engine.Short) :
    (engine.rescheduleAgent agent now thresholds).Short := by
  unfold AtcEngine.rescheduleAgent
  split
  case h_1 => exact h
  case h_2 => exact h.scheduleEntryForPush

theorem Covers.rescheduleAgent (h : engine.Covers pending) :
    (engine.rescheduleAgent agent now thresholds).Covers fun a => pending a ∧ a ≠ agent := by
  cases he : engine.agents.get? agent
  case some entry =>
    rw [rescheduleAgent_eq he]
    exact h.scheduleEntryForPush ((min_le_left ..).trans nextReviewTimeForPolicy_le)
  case none =>
    rw [rescheduleAgent_of_none he]
    refine ⟨fun a entry ha hlt hp => h.covered a entry ha hlt fun hpa => hp ⟨hpa, fun heq => ?_⟩,
      h.upcoming, h.bounded⟩
    rw [heq, he] at ha
    cases ha

theorem Covers.updateEntry (h : engine.Covers pending)
    (hr : ∀ entry, (f entry).review = entry.review ∨ (f entry).nextReviewMicros = maxMicros) :
    (engine.updateEntry agent f hf).Covers pending := by
  have get {a e} (ha : (engine.updateEntry agent f hf).agents.get? a = some e) :
      ∃ entry, engine.agents.get? a = some entry ∧
        (e.review = entry.review ∨ e.nextReviewMicros = maxMicros) := by
    rw [AtcEngine.updateEntry, get?_update] at ha
    split at ha
    case isFalse => exact ⟨e, ha, .inl rfl⟩
    case isTrue  =>
      obtain ⟨entry, he, rfl⟩ := Option.map_eq_some_iff.mp ha
      exact ⟨entry, he, hr entry⟩
  refine ⟨fun a e ha hlt hp => ?_, h.upcoming, fun a e ha => ?_⟩
  · obtain ⟨entry, he, hr | hr⟩ := get ha
    · have hn : e.nextReviewMicros = entry.nextReviewMicros :=
        congrArg ScheduledAgentReview.reviewAtMicros hr
      exact hr ▸ h.covered a entry he (hn ▸ hlt) hp
    · omega
  · obtain ⟨entry, he, hr | hr⟩ := get ha
    · have hn : e.nextReviewMicros = entry.nextReviewMicros :=
        congrArg ScheduledAgentReview.reviewAtMicros hr
      exact hn ▸ h.bounded a entry he
    · exact hr.le

theorem Short.updateEntry (h : engine.Short) : (engine.updateEntry agent f hf).Short := by
  simpa [Short, AtcEngine.updateEntry, Table.update] using h

theorem mem_pushDue : agent' ∈ pushDue due agent ↔ agent' ∈ due ∨ agent' = agent := by
  unfold pushDue
  split
  case isTrue h => exact ⟨.inl, fun hm => hm.elim id fun he => he ▸ h⟩
  case isFalse  => simp

theorem mem_foldl_pushDue : agent ∈ l.foldl pushDue due ↔ agent ∈ due ∨ agent ∈ l := by
  induction l generalizing due
  case nil          => simp
  case cons a l hi => rw [List.foldl_cons, hi, mem_pushDue, List.mem_cons, or_assoc]

theorem nodup_foldl_pushDue (h : due.Nodup) : (l.foldl pushDue due).Nodup := by
  induction l generalizing due
  case nil          => exact h
  case cons a l hi =>
    refine hi ?_
    unfold pushDue
    split
    case isTrue    => exact h
    case isFalse hn =>
      refine List.nodup_append.mpr ⟨h, List.nodup_singleton a, fun b hb c hc he => hn ?_⟩
      exact List.mem_singleton.mp hc ▸ he ▸ hb

theorem isCurrent_iff : engine.isCurrent next ↔
    ∃ entry, engine.agents.get? next.agent = some entry ∧ entry.review = next := by
  rw [isCurrent, Option.any_eq_true]
  refine exists_congr fun entry => and_congr_right fun h => ?_
  have hn : entry.name = next.agent := name_of_get? h
  obtain ⟨t, v, a⟩ := next
  simp [AgentLivenessEntry.review, and_comm, hn]

-- The agents of which the review is due, and no others, unless something else asks for it.
theorem Covers.mem_popDueAgents (h : engine.Covers fun _ => False) :
    agent ∈ (engine.popDueAgents now).2 ↔
      (∃ entry, engine.agents.get? agent = some entry ∧ entry.nextReviewMicros ≤ now ∧
        entry.nextReviewMicros < maxMicros) ∨ agent ∈ engine.dirtyAgents := by
  have hdown (a b : ScheduledAgentReview) (hab : a ≤ b) (hb : decide (b.reviewAtMicros ≤ now)) :
      decide (a.reviewAtMicros ≤ now) := by
    have hle := Prod.Lex.toLex_le_toLex'.mp (show a.key ≤ b.key from hab)
    simp only [decide_eq_true_eq] at hb ⊢
    exact hle.left.trans hb
  simp only [popDueAgents, mem_foldl_pushDue, List.not_mem_nil, false_or, List.mem_map,
    List.mem_filter, Heap.mem_popWhile_iff hdown, isCurrent_iff, decide_eq_true_eq]
  refine or_congr_left ⟨?_, ?_⟩
  · rintro ⟨next, ⟨⟨hn, hle⟩, entry, he, rfl⟩, rfl⟩
    have hlt := h.upcoming _ hn
    exact ⟨entry, he, hle, hlt⟩
  · rintro ⟨entry, he, hle, hlt⟩
    obtain rfl : entry.name = agent := name_of_get? he
    exact ⟨entry.review, ⟨⟨h.covered _ entry he hlt id, hle⟩, entry, he, rfl⟩, rfl⟩

theorem nodup_popDueAgents : (engine.popDueAgents now).2.Nodup :=
  nodup_foldl_pushDue (nodup_foldl_pushDue .nil)

theorem Short.popDueAgents (h : engine.Short) : (engine.popDueAgents now).1.Short :=
  Heap.length_popWhile_le.trans h

-- What has been popped is looked at next.
theorem Covers.popDueAgents (h : engine.Covers fun _ => False) :
    (engine.popDueAgents now).1.Covers (· ∈ (engine.popDueAgents now).2) := by
  refine ⟨fun agent entry he hlt hd => ?_,
    fun next hn => h.upcoming next (Heap.mem_iff_popWhile.mpr (.inr hn)), h.bounded⟩
  have hn : ¬entry.nextReviewMicros ≤ now := fun hle =>
    hd (h.mem_popDueAgents.mpr (.inl ⟨entry, he, hle, hlt⟩))
  refine (Heap.mem_iff_popWhile.mp (h.covered agent entry he hlt id)).resolve_left fun hp => hn ?_
  have hle := Heap.of_mem_popWhile hp
  exact of_decide_eq_true hle

theorem Covers.mono {pending' : Str → Prop} (h : engine.Covers pending)
    (hp : ∀ agent, pending agent → pending' agent) : engine.Covers pending' :=
  ⟨fun agent entry he hlt hn => h.covered agent entry he hlt fun hpa => hn (hp agent hpa),
    h.upcoming, h.bounded⟩

theorem Short.inspect (h : engine.Short) :
    (inspect now thresholds choose (engine, actions) agent).1.Short := by
  simp only [AtcEngine.inspect]
  split
  case h_1 => exact h
  case h_2 =>
    split
    case isTrue  => exact h.updateEntry
    case isFalse =>
      split
      case h_1 => exact h.updateEntry.rescheduleAgent
      case h_2 => exact h.updateEntry.rescheduleAgent
      case h_3 => exact h.rescheduleAgent

-- An agent that has been inspected has another review ahead, or none if it is dead.
theorem Covers.inspect (h : engine.Covers pending) :
    (inspect now thresholds choose (engine, actions) agent).1.Covers fun a =>
      pending a ∧ a ≠ agent := by
  simp only [AtcEngine.inspect]
  split
  case h_1 hn =>
    refine ⟨fun a entry ha hlt hp => h.covered a entry ha hlt fun hpa => hp ⟨hpa, fun heq => ?_⟩,
      h.upcoming, h.bounded⟩
    rw [heq, hn] at ha
    cases ha
  case h_2 entry he =>
    split
    case isTrue =>
      have hu :
          (engine.updateEntry agent (fun entry => { entry with nextReviewMicros := maxMicros })
          fun _ => rfl).Covers pending :=
        h.updateEntry fun _ => .inr rfl
      refine ⟨fun a e ha hlt hp => ?_, hu.upcoming, hu.bounded⟩
      by_cases heq : a = agent
      case neg => exact hu.covered a e ha hlt fun hpa => hp ⟨hpa, heq⟩
      case pos =>
        rw [AtcEngine.updateEntry, get?_update, if_pos heq] at ha
        obtain ⟨_, _, rfl⟩ := Option.map_eq_some_iff.mp ha
        exact absurd hlt (lt_irrefl _)
    case isFalse =>
      split
      case h_1 =>
        exact (h.updateEntry fun e => .inl (by unfold suspected; split <;> rfl)).rescheduleAgent
      case h_2 =>
        exact (h.updateEntry (f := ({ · with state := .dead })) fun _ => .inl rfl).rescheduleAgent
      case h_3 => exact h.rescheduleAgent

theorem Covers.foldl_inspect (h : engine.Covers (· ∈ l)) :
    (l.foldl (AtcEngine.inspect now thresholds choose) (engine, actions)).1.Covers fun _ =>
      False := by
  induction l generalizing engine actions
  case nil          => exact h.mono fun _ => List.not_mem_nil
  case cons a l hi =>
    refine hi (h.inspect.mono fun agent ⟨hm, hne⟩ => ?_)
    exact (List.mem_cons.mp hm).resolve_left hne

theorem Short.foldl_inspect (h : engine.Short) :
    (l.foldl (AtcEngine.inspect now thresholds choose) (engine, actions)).1.Short := by
  induction l generalizing engine actions
  case nil          => exact h
  case cons a l hi => exact hi h.inspect

-- The status does not lose a review.
theorem Covers.nextScheduledReviewMicros (h : engine.Covers pending) :
    engine.nextScheduledReviewMicros.1.Covers pending := by
  refine ⟨fun agent entry he hlt hp => ?_,
    fun next hn => h.upcoming next (Heap.mem_iff_popWhile.mpr (.inr hn)), h.bounded⟩
  obtain rfl : entry.name = agent := name_of_get? he
  refine (Heap.mem_iff_popWhile.mp (h.covered _ entry he hlt hp)).resolve_left fun hm => ?_
  have hs := Heap.of_mem_popWhile hm
  have hc : engine.isCurrent entry.review := isCurrent_iff.mpr ⟨entry, he, rfl⟩
  rw [hc] at hs
  cases hs

theorem Covers.insertOrIgnore {name : Str} (h : engine.Covers pending) :
    { engine with agents := engine.agents.insertOrIgnore ⟨name, .alive, 0, 0, 0, 0,
      maxMicros⟩ }.Covers pending := by
  have get {a e} (ha : (engine.agents.insertOrIgnore ⟨name, .alive, 0, 0, 0, 0, maxMicros⟩).get? a =
      some e) : engine.agents.get? a = some e ∨ e.nextReviewMicros = maxMicros := by
    rw [Table.get?_insertOrIgnore] at ha
    split at ha
    case isFalse => exact .inl ha
    case isTrue  =>
      cases he : engine.agents.get? a
      case none   => exact .inr (Option.some.inj (he ▸ ha) ▸ rfl)
      case some _ => exact .inl (by rw [← ha, he, Option.getD_some])
  refine ⟨fun a e ha hlt hp => ?_, h.upcoming, fun a e ha => ?_⟩
  · exact h.covered a e ((get ha).resolve_right hlt.ne) hlt hp
  · exact (get ha).elim (h.bounded a e) le_of_eq

theorem Short.insertOrIgnore (h : engine.Short) :
    { engine with agents := engine.agents.insertOrIgnore entry }.Short := by
  have hl : engine.agents.rows.length ≤ (engine.agents.insertOrIgnore entry).rows.length := by
    unfold Table.insertOrIgnore
    split
    case isTrue  => simp [Table.insert]
    case isFalse => exact le_rfl
  have h : engine.livenessSchedule.length ≤ _ := h
  simp only [Short]
  omega

theorem Covers.dirty (h : engine.Covers pending) :
    { engine with dirtyAgents := l }.Covers pending :=
  ⟨h.covered, h.upcoming, h.bounded⟩

structure Inv (engine : AtcEngine) : Prop where
  covers : engine.Covers fun _ => False
  short  : engine.Short

theorem Inv.new {probeIntervalMicros : Int} : (new probeIntervalMicros).Inv where
  covers := ⟨nofun, fun _ hn => absurd hn Heap.not_mem_empty, nofun⟩
  short  := Nat.zero_le _

namespace Inv

variable {e : Event} {es : List Event}

theorem dirty (h : engine.Inv) : { engine with dirtyAgents := l }.Inv :=
  ⟨h.covers.dirty, h.short⟩

theorem rescheduleAgent (h : engine.Inv) : (engine.rescheduleAgent agent now thresholds).Inv :=
  ⟨h.covers.rescheduleAgent.mono fun _ hp => hp.left, h.short.rescheduleAgent⟩

theorem updateEntry (h : engine.Inv) (hr : ∀ entry, (f entry).review = entry.review) :
    (engine.updateEntry agent f hf).Inv :=
  ⟨h.covers.updateEntry fun entry => .inl (hr entry), h.short.updateEntry⟩

theorem evaluateLiveness (h : engine.Inv) : (engine.evaluateLiveness now thresholds choose).1.Inv :=
  ⟨h.covers.popDueAgents.foldl_inspect, h.short.popDueAgents.foldl_inspect⟩

theorem observeActivity {recalibrated : Bool} (h : engine.Inv) :
    (engine.observeActivity agent now recalibrated thresholds).Inv := by
  have hr (entry : AgentLivenessEntry) : (observed now entry).review = entry.review := by
    simp only [observed]
    split <;> rfl
  have ho {engine : AtcEngine} {hf : ∀ entry, (observed now entry).name = entry.name}
      (h : engine.Inv) :
      ((engine.updateEntry agent (observed now) hf).rescheduleAgent agent now thresholds).Inv :=
        (h.updateEntry hr).rescheduleAgent
  simp only [AtcEngine.observeActivity]
  split
  case isTrue  => exact h
  case isFalse =>
    cases recalibrated
    all_goals simp only [Bool.false_eq_true, if_false, if_true]
    all_goals split
    · exact (ho h).dirty
    · exact ho h
    · exact (ho h.dirty).dirty
    · exact ho h.dirty

theorem step (h : engine.Inv) : (engine.step e).1.Inv := by
  cases e
  case register name now thresholds =>
    simp only [AtcEngine.step, registerAgent]
    split
    case isTrue  => exact h
    case isFalse => exact rescheduleAgent ⟨h.covers.insertOrIgnore, h.short.insertOrIgnore⟩
  case observe  => exact h.observeActivity
  case evaluate => exact h.evaluateLiveness
  case probe agent now thresholds =>
    exact (h.updateEntry (f := ({ · with probeSentAt := now })) fun _ => rfl).rescheduleAgent
  case withhold =>
    exact (h.updateEntry fun entry => by unfold revived; split <;> rfl).rescheduleAgent
  case dirty    => exact h.dirty
  case status   => exact ⟨h.covers.nextScheduledReviewMicros, Heap.length_popWhile_le.trans h.short⟩

theorem steps (h : engine.Inv) : (engine.steps es).1.Inv := by
  induction es generalizing engine
  case nil          => exact h
  case cons e es hi => exact hi h.step

end Inv

def Reachable (engine : AtcEngine) : Prop :=
  ∃ probeIntervalMicros es, engine = ((new probeIntervalMicros).steps es).1

theorem Reachable.inv (h : engine.Reachable) : engine.Inv := by
  obtain ⟨_, _, rfl⟩ := h
  exact Inv.new.steps

-- When the review of an agent is ahead.
def Ahead (engine : AtcEngine) (agent : Str) (reviewAt : Int) : Prop :=
  reviewAt < maxMicros ∧ ∃ entry, engine.agents.get? agent = some entry ∧
    entry.nextReviewMicros = reviewAt

-- Whatever has been rescheduled, dropped or compacted, the agents that are taken from the schedule
-- are those of which the review is due, once each, along with those that are dirty.
theorem popDueAgents_exact (h : engine.Reachable) (now : Int) : (engine.popDueAgents now).2.Nodup ∧
    ∀ agent,
    agent ∈ (engine.popDueAgents now).2 ↔
      (∃ reviewAt, engine.Ahead agent reviewAt ∧ reviewAt ≤ now) ∨ agent ∈ engine.dirtyAgents := by
  refine ⟨nodup_popDueAgents, fun agent =>
    h.inv.covers.mem_popDueAgents.trans (or_congr_left ⟨?_, ?_⟩)⟩
  · exact fun ⟨entry, he, hle, hlt⟩ => ⟨_, ⟨hlt, entry, he, rfl⟩, hle⟩
  · rintro ⟨_, ⟨hlt, entry, he, rfl⟩, hle⟩
    exact ⟨entry, he, hle, hlt⟩

-- An agent has been heard of twice, which leaves its earlier review in the schedule.
def heardOfTwice : List Event :=
  [.register ['a'] 0 ⟨fun _ => 5, none⟩, .observe ['a'] 10 false ⟨fun _ => 5, none⟩,
    .observe ['a'] 30 false ⟨fun _ => 5, none⟩]

theorem popDueAgents_exact_heardOfTwice :
    ['a'] ∈ (((new 1000000).steps heardOfTwice).1.popDueAgents 40).2 := by
  refine ((popDueAgents_exact ⟨_, _, rfl⟩ 40).right ['a']).mpr
    (.inl ⟨35, ⟨by decide, ?_⟩, by decide⟩)
  exact ⟨⟨['a'], .alive, 30, 0, 0, 3, 35⟩, by decide +kernel, rfl⟩

-- The next review is the first one that is ahead, in a schedule that has at most four reviews for
-- each agent.
theorem nextScheduledReviewMicros_exact (h : engine.Reachable) :
    (∀ reviewAt, engine.nextScheduledReviewMicros.2 = some reviewAt ↔
      IsLeast { t | ∃ agent, engine.Ahead agent t } reviewAt) ∧
      (engine.nextScheduledReviewMicros.2 = none ↔ ∀ agent reviewAt, ¬engine.Ahead agent reviewAt) ∧
      engine.livenessSchedule.length ≤ max (engine.agents.rows.length * 4) 64 := by
  have hc := h.inv.covers.nextScheduledReviewMicros
  have hleast {t} (ht : engine.nextScheduledReviewMicros.2 = some t) :
      IsLeast { t | ∃ agent, engine.Ahead agent t } t := by
    obtain ⟨next, hn, rfl⟩ := Option.map_eq_some_iff.mp ht
    have hcur := Heap.not_of_peek_popWhile hn
    rw [Bool.not_eq_true', Bool.not_eq_false] at hcur
    have ⟨entry, he, hr⟩ := isCurrent_iff.mp hcur
    have hat : entry.nextReviewMicros = next.reviewAtMicros :=
      congrArg ScheduledAgentReview.reviewAtMicros hr
    refine ⟨⟨_, hc.upcoming next (Heap.mem_of_peek hn), entry, he, hat⟩, ?_⟩
    rintro _ ⟨agent, hlt, entry, he, rfl⟩
    have hle := Heap.le_of_peek hn (hc.covered agent entry he hlt id)
    exact (Prod.Lex.toLex_le_toLex'.mp (show next.key ≤ entry.review.key from hle)).left
  have hnone : engine.nextScheduledReviewMicros.2 = none ↔
      ∀ agent reviewAt, ¬engine.Ahead agent reviewAt := by
    constructor
    case mp =>
      rintro hn agent _ ⟨hlt, entry, he, rfl⟩
      have hm := hc.covered agent entry he hlt id
      exact List.ne_nil_of_mem hm (List.head?_eq_none_iff.mp (Option.map_eq_none_iff.mp hn))
    case mpr =>
      intro hn
      cases ht : engine.nextScheduledReviewMicros.2
      case none   => rfl
      case some t =>
        have ⟨agent, ha⟩ := (hleast ht).left
        exact absurd ha (hn agent t)
  refine ⟨fun t => ⟨hleast, fun ht => ?_⟩, hnone, h.inv.short⟩
  cases ht' : engine.nextScheduledReviewMicros.2
  case some t' => rw [(hleast ht').unique ht]
  case none    =>
    have ⟨agent, ha⟩ := ht.left
    exact absurd ha (hnone.mp ht' agent t)

theorem nextScheduledReviewMicros_exact_heardOfTwice :
    IsLeast { t | ∃ agent, ((new 1000000).steps heardOfTwice).1.Ahead agent t } 35 :=
  ((nextScheduledReviewMicros_exact ⟨_, _, rfl⟩).left 35).mp (by decide +kernel)

end AtcEngine

end Liveness
