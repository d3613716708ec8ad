import AgentMail.EventRing.Theorems.Session

namespace EventRing

open EventRingBuffer

variable {s : Session} {ring : EventRingBuffer} {calls : List Call} {call : Call}
  {event : MailEvent} {lost : Option MailEvent} {policy : BackpressurePolicy}
    {capacity first limit : Nat}

namespace Session

section Reads

theorem Takes.reads (ht : s.Takes event lost ring) (hr : s.Reads first) :
    (s.moveTo event.seq ring).Reads first where
  increasing := hr.increasing
  upTo       := hr.upTo
  behind     := hr.behind.imp_right fun h => h.trans (by simp [moveTo])
  covered    := by
    intro seq hm hf hc
    have hcov := hr.covered seq
    cases List.mem_append.mp hm
    case inl hm => exact (hr.covered seq hm hf hc).imp_right fun h => by simp [moveTo, h]
    case inr hm =>
      -- The poller has not come so far.
      have hseq := List.mem_singleton.mp hm ▸ ht.seq
      have hc : seq ≤ s.cursor := hc
      cases hr.behind
      case inl hb => omega
      case inr hb => omega

variable (h : s.Valid)

include h

-- The events that a poll returns, in order, and what it passes over.
structure Polls (s : Session) (events : List MailEvent) : Prop where
  sorted : (events.map (·.seq)).Pairwise (· < ·)
  after  : ∀ event ∈ events, s.cursor < event.seq
  stored : ∀ event ∈ events, event ∈ s.ring.events
  missed : ∀ seq ∈ s.pushed, s.cursor < seq → ∀ last ∈ events.getLast?, seq ≤ last.seq →
    seq ∈ events.map (·.seq) ∨ seq ∈ s.evicted.map (·.seq)

theorem polls : s.Polls (s.ring.eventsSinceSeqLimited s.cursor limit) := by
  rw [eventsSinceSeqLimited_eq h.sorted]
  have hs : ((s.ring.events.filter (s.cursor < ·.seq)).map (·.seq)).Pairwise (· < ·) :=
    h.sorted.sublist (List.filter_sublist.map _)
  refine ⟨hs.sublist ((List.take_sublist ..).map _), ?_, ?_, ?_⟩
  · exact fun event hm => of_decide_eq_true (List.mem_filter.mp (List.mem_of_mem_take hm)).right
  · exact fun event hm => (List.mem_filter.mp (List.mem_of_mem_take hm)).left
  · intro seq hm hlt last hl hle
    refine (h.accounted seq hm).imp_left fun hst => ?_
    have ⟨e, he, heq⟩ := List.mem_map.mp hst
    have hmem : seq ∈ (s.ring.events.filter (s.cursor < ·.seq)).map (·.seq) :=
      List.mem_map.mpr ⟨e, List.mem_filter.mpr ⟨he, decide_eq_true (heq ▸ hlt)⟩, heq⟩
    by_contra hn
    rw [List.map_take] at hn
    refine absurd hle (not_le.mpr (List.getLast_take_lt hs hmem hn _ ?_))
    rw [← List.map_take]
    exact List.mem_map_of_mem (List.mem_of_getLast? hl)

omit h in
theorem Polls.cursor_le {events : List MailEvent} (hp : s.Polls events) :
    s.cursor ≤ (s.receive events).cursor ∧ ∀ seq ∈ events.map (·.seq),
      seq ≤ (s.receive events).cursor := by
  rw [receive]
  cases hl : events.getLast?
  case none => simp [List.getLast?_eq_none_iff.mp hl]
  case some last =>
    have hne : events ≠ [] := fun he => by simp [he] at hl
    have hlast : events.getLast hne = last :=
      Option.some_inj.mp ((List.getLast?_eq_some_getLast hne).symm.trans hl)
    refine ⟨(hp.after last (List.mem_of_getLast? hl)).le, fun seq hm => ?_⟩
    have hle := List.le_getLast hp.sorted (by simpa using hne) seq hm
    rw [List.getLast_map, hlast] at hle
    exact hle

theorem Polls.reads {events : List MailEvent} (hp : s.Polls events) (hr : s.Reads first) :
    (s.receive events).Reads first where
  increasing := by
    show (first :: (s.received ++ events).map (·.seq)).Pairwise _
    rw [List.map_append, ← List.cons_append, List.pairwise_append]
    refine ⟨hr.increasing, hp.sorted, fun seq hm seq' hm' => ?_⟩
    have ⟨event, he, heq⟩ := List.mem_map.mp hm'
    exact (hr.upTo seq hm).trans_lt (heq ▸ hp.after event he)
  upTo       := by
    show ∀ seq ∈ first :: (s.received ++ events).map (·.seq), _
    rw [List.map_append, ← List.cons_append]
    intro seq hm
    cases List.mem_append.mp hm
    case inl hm => exact (hr.upTo seq hm).trans hp.cursor_le.left
    case inr hm => exact hp.cursor_le.right seq hm
  behind     := by
    show (events.getLast?.map _).getD _ = _ ∨ (events.getLast?.map _).getD _ ≤ _
    cases hl : events.getLast?
    case none      => exact hr.behind
    case some last => exact .inr (h.issued last (hp.stored last (List.mem_of_getLast? hl)))
  covered    := by
    intro seq hm hf hc
    show seq ∈ (s.received ++ events).map _ ∨ _
    rw [List.map_append, List.mem_append]
    by_cases hle : seq ≤ s.cursor
    case pos => exact (hr.covered seq hm hf hle).imp_left .inl
    case neg =>
      cases hl : events.getLast?
      case none => exact absurd (by simpa [receive, hl] using hc) hle
      case some last =>
        have hc : seq ≤ last.seq := by simpa [receive, hl] using hc
        exact (hp.missed seq hm (not_le.mp hle) last hl hc).imp_left .inr

end Reads

section Run

-- What a call does to the session.
theorem step_cases (h : s.Valid) (hlt : (s.step call).pushed.length < 2 ^ 64) :
    (∃ event lost ring, s.Takes event lost ring ∧ s.step call = s.moveTo event.seq ring) ∨
    (∃ ring, Keeps s.ring ring ∧ s.step call = s.moveTo none ring) ∨
    ∃ limit, s.step call = s.receive (s.ring.eventsSinceSeqLimited s.cursor limit) := by
  cases call
  case poll limit => exact .inr (.inr ⟨limit, rfl⟩)
  case push event nowMicros =>
    have hlt : s.pushed.length + 1 < 2 ^ 64 := by simpa [step, moveTo] using hlt
    obtain ⟨event', lost, hs, ht⟩ := h.takes event nowMicros ⟨rfl, rfl, rfl, rfl⟩ hlt
    exact .inl ⟨event', lost, _, ht, by rw [← hs]; rfl⟩
  case tryPush event nowMicros contended =>
    cases tryPush_cases s.ring event nowMicros contended
    case inl hc =>
      obtain ⟨ring, hk, he⟩ := hc
      exact .inr (.inl ⟨ring, hk, by rw [step, he]; rfl⟩)
    case inr hc =>
      obtain ⟨ring, hk, he⟩ := hc
      have hstep : s.step (.tryPush event nowMicros contended) =
          s.moveTo (ring.pushInner event nowMicros).1 (ring.pushInner event nowMicros).2 := by
        rw [step, he]
        rfl
      have hlt : s.pushed.length + 1 < 2 ^ 64 := by
        rw [hstep] at hlt
        simpa [moveTo] using hlt
      obtain ⟨event', lost, hs, ht⟩ := h.takes event nowMicros hk hlt
      exact .inl ⟨event', lost, _, ht, hs ▸ hstep⟩

theorem moveTo_of_keeps (hk : Keeps s.ring ring) : s.moveTo none ring = { s with ring } := by
  rw [moveTo, hk.events]
  simp

theorem Valid.keeps (h : s.Valid) (hk : Keeps s.ring ring) : ({ s with ring } : Session).Valid where
  numbered    := h.numbered
  nextSeq     := hk.nextSeq.trans h.nextSeq
  totalPushed := hk.totalPushed.trans h.totalPushed
  sorted      := hk.events ▸ h.sorted
  issued      := hk.events ▸ h.issued
  capacity    := hk.capacity ▸ h.capacity
  bounded     := hk.events ▸ hk.capacity ▸ h.bounded
  length      := hk.events ▸ h.length
  accounted   := hk.events ▸ h.accounted

theorem length_pushed_step : s.pushed.length ≤ (s.step call).pushed.length := by
  cases call <;> simp [step, moveTo, receive]

theorem valid_step (h : s.Valid) (hr : s.Reads first) (hlt : (s.step call).pushed.length < 2 ^ 64) :
    (s.step call).Valid ∧ (s.step call).Reads first := by
  obtain ⟨event, lost, ring, ht, he⟩ | ⟨ring, hk, he⟩ | ⟨limit, he⟩ := step_cases h hlt
  case inl => exact he ▸ ⟨ht.valid h, ht.reads hr⟩
  case inr.inl =>
    rw [moveTo_of_keeps hk] at he
    exact he ▸ ⟨h.keeps hk, ⟨hr.increasing, hr.upTo, hr.behind, hr.covered⟩⟩
  case inr.inr =>
    rw [he]
    refine ⟨?_, (polls h).reads h hr⟩
    exact ⟨h.numbered, h.nextSeq, h.totalPushed, h.sorted, h.issued, h.capacity, h.bounded,
      h.length, h.accounted⟩

theorem capacity_step (h : s.Valid) (hlt : (s.step call).pushed.length < 2 ^ 64) :
    (s.step call).ring.capacity = s.ring.capacity := by
  obtain ⟨event, lost, ring, ht, he⟩ | ⟨ring, hk, he⟩ | ⟨limit, he⟩ := step_cases h hlt
  · exact he ▸ ht.capacity
  · exact he ▸ hk.capacity
  · exact he ▸ rfl

theorem length_pushed_after : s.pushed.length ≤ (s.after calls).pushed.length := by
  induction calls generalizing s
  case nil => exact le_rfl
  case cons call calls hi => exact length_pushed_step.trans hi

theorem valid_after (h : s.Valid) (hr : s.Reads first)
    (hlt : (s.after calls).pushed.length < 2 ^ 64) :
    (s.after calls).Valid ∧ (s.after calls).Reads first ∧
      (s.after calls).ring.capacity = s.ring.capacity := by
  induction calls generalizing s
  case nil => exact ⟨h, hr, rfl⟩
  case cons call calls hi =>
    have hlt' : (s.step call).pushed.length < 2 ^ 64 := length_pushed_after.trans_lt hlt
    have ⟨h', hr'⟩ := valid_step h hr hlt'
    have ⟨h'', hr'', hc⟩ := hi h' hr' hlt
    exact ⟨h'', hr'', hc.trans (capacity_step h hlt')⟩

theorem orderly (h : s.Valid) (hr : s.Reads first) : s.Orderly first where
  sorted     := h.sorted
  bounded    := h.bounded
  dropped    := by
    show s.ring.totalPushed - s.ring.events.length = _
    rw [h.totalPushed, ← h.length, Nat.add_sub_cancel_left]
  since      := fun _ => eventsSinceSeq_eq h.sorted
  limited    := fun _ _ => eventsSinceSeqLimited_eq h.sorted
  increasing := hr.increasing
  missed     := by
    intro limit seq hm hlt hle
    have hle : seq ≤ ((s.ring.eventsSinceSeqLimited s.cursor limit).getLast?.map (·.seq)).getD
        s.cursor := hle
    cases hl : (s.ring.eventsSinceSeqLimited s.cursor limit).getLast?
    case none      => exact absurd (by simpa [hl] using hle) (not_le.mpr hlt)
    case some last => exact (polls h).missed seq hm hlt last hl (by simpa [hl] using hle)
  covered    := hr.covered
  spared     := by
    intro call event hm hn hs
    cases call
    case poll              => exact absurd hm hn
    case push              => exact spared_pushInner h.capacity h.bounded hm hn hs
    case tryPush event' nowMicros contended =>
      cases tryPush_cases s.ring event' nowMicros contended
      case inl hc =>
        have ⟨ring, hk, he⟩ := hc
        rw [step, he] at hn
        exact absurd (hk.events ▸ hm) hn
      case inr hc =>
        have ⟨ring, hk, he⟩ := hc
        rw [step, he] at hn
        rw [← hk.events] at hm ⊢
        refine spared_pushInner (hk.capacity ▸ h.capacity) ?_ hm hn hs
        rw [hk.events, hk.capacity]
        exact h.bounded

end Run

end Session

end EventRing
