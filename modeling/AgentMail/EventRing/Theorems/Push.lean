import AgentMail.EventRing.Basic
import AgentMail.Lib.Ascending

namespace EventRing.EventRingBuffer

section Push

variable {ring ring' : EventRingBuffer} {event : MailEvent} {nowMicros : Int} {contended : Bool}

section Evict

theorem dropIdx_lt (h : ring.events ≠ []) : ring.dropIdx < ring.events.length := by
  rw [dropIdx]
  cases hi : (ring.events.take (min ring.events.length lowSeverityEvictScanLimit)).findIdx?
    (·.severity < .info)
  case none   => exact List.length_pos_iff.mpr h
  case some i =>
    have ⟨hlt, _⟩ := List.findIdx?_eq_some_iff_getElem.mp hi
    exact hlt.trans_le (List.length_take_le' _ _)

-- An event that is worth keeping goes only if all that are examined are.
theorem severity_dropIdx (h : ring.dropIdx < ring.events.length)
    (hs : .info ≤ (ring.events[ring.dropIdx]).severity) :
    ∀ older ∈ ring.events.take lowSeverityEvictScanLimit, ¬older.severity < .info := by
  have ht : ring.events.take (min ring.events.length lowSeverityEvictScanLimit) =
      ring.events.take lowSeverityEvictScanLimit := List.take_eq_take_iff.mpr (by omega)
  cases hi : (ring.events.take lowSeverityEvictScanLimit).findIdx? (·.severity < .info)
  case none => exact fun older ho => of_decide_eq_false (List.findIdx?_eq_none_iff.mp hi older ho)
  case some i =>
    have hd : ring.dropIdx = i := by rw [dropIdx, ht, hi, Option.getD_some]
    have ⟨_, hlt, _⟩ := List.findIdx?_eq_some_iff_getElem.mp hi
    rw [List.getElem_take] at hlt
    subst hd
    exact (EventSeverity.not_lt.mpr hs (of_decide_eq_true hlt)).elim

-- What an eviction can do.
theorem evict_cases (h : 0 < ring.capacity) (hb : ring.events.length ≤ ring.capacity) :
    ∃ (older newer : List MailEvent) (lost : Option MailEvent),
      ring.events = older ++ lost.toList ++ newer ∧ ring.evict = older ++ newer ∧
        ring.evict.length < ring.capacity ∧
      ∀ event ∈ lost, .info ≤ event.severity → ∀ e ∈ ring.events.take lowSeverityEvictScanLimit,
        ¬e.severity < .info := by
  by_cases hc : ring.events.length ≥ ring.capacity
  case neg =>
    have he : ring.evict = ring.events := if_neg hc
    exact ⟨ring.events, [], none, by simp, by simp [he], he ▸ not_le.mp hc, by simp⟩
  case pos =>
    have hlt : ring.dropIdx < ring.events.length :=
      dropIdx_lt (List.length_pos_iff.mp (h.trans_le hc))
    have he : ring.evict = ring.events.eraseIdx ring.dropIdx := by
      rw [evict, if_pos hc]
      split
      case isTrue hz => rw [hz, List.eraseIdx_zero]
      case isFalse   => rfl
    refine ⟨ring.events.take ring.dropIdx, ring.events.drop (ring.dropIdx + 1),
      some ring.events[ring.dropIdx], ?_, ?_, ?_, ?_⟩
    · simp
    · rw [he, List.eraseIdx_eq_take_drop_succ]
    · rw [he, List.length_eraseIdx_of_lt hlt]
      omega
    · exact fun event hm hs => severity_dropIdx hlt (Option.mem_some.mp hm ▸ hs)

theorem spared_pushInner {event' : MailEvent} (h : 0 < ring.capacity)
    (hb : ring.events.length ≤ ring.capacity) (hm : event' ∈ ring.events)
    (hn : event' ∉ (ring.pushInner event nowMicros).2.events) (hs : .info ≤ event'.severity) :
    ∀ older ∈ ring.events.take lowSeverityEvictScanLimit, ¬older.severity < .info := by
  have ⟨older, newer, lost, he, hev, _, hspared⟩ := evict_cases h hb
  have hn : event' ∉ older ++ newer := fun hm => hn (List.mem_append_left _ (hev ▸ hm))
  refine hspared event' ?_ hs
  rw [he] at hm
  simp only [List.mem_append, Option.mem_toList, not_or] at hm hn
  exact (hm.resolve_right hn.right).resolve_left hn.left

end Evict

section TryPush

-- Nothing that a reader sees has changed.
structure Keeps (ring ring' : EventRingBuffer) : Prop where
  events      : ring'.events = ring.events
  capacity    : ring'.capacity = ring.capacity
  nextSeq     : ring'.nextSeq = ring.nextSeq
  totalPushed : ring'.totalPushed = ring.totalPushed

theorem keeps_shouldSample : Keeps ring (ring.shouldSample event).2 := by
  unfold shouldSample
  split
  case isTrue  => exact ⟨rfl, rfl, rfl, rfl⟩
  case isFalse => split <;> exact ⟨rfl, rfl, rfl, rfl⟩

theorem tryPush_cases (ring : EventRingBuffer) (event : MailEvent) (nowMicros : Int)
    (contended : Bool) :
    (∃ ring', Keeps ring ring' ∧ ring.tryPush event nowMicros contended = (.error event, ring')) ∨
    ∃ ring', Keeps ring ring' ∧
      ring.tryPush event nowMicros contended = (ring'.pushInner event nowMicros).map .ok id := by
  rw [tryPush]
  by_cases hc : contended
  case pos =>
    refine .inl ⟨_, ?_, if_pos hc⟩
    exact ⟨rfl, rfl, rfl, rfl⟩
  case neg =>
    have hk : Keeps ring (ring.shouldSample event).2 := keeps_shouldSample
    rw [if_neg hc]
    cases hs : ring.shouldSample event with | mk sampled ring' =>
    rw [hs] at hk
    cases sampled
    case false => exact .inr ⟨ring', hk, rfl⟩
    case true  =>
      refine .inl ⟨_, ?_, rfl⟩
      exact ⟨hk.events, hk.capacity, hk.nextSeq, hk.totalPushed⟩

end TryPush

end Push

section Scan

variable {ring : EventRingBuffer} {events selected out : List MailEvent} {seq limit : Nat}

theorem collectEventsSinceSeq_eq :
    collectEventsSinceSeq seq out events = (out ++ events.takeWhile (seq < ·.seq)).reverse := by
  induction events generalizing out
  case nil => simp [collectEventsSinceSeq]
  case cons event older hi =>
    rw [collectEventsSinceSeq]
    by_cases h : event.seq ≤ seq
    case pos => simp [h]
    case neg => simp [h, hi, not_le.mp h]

-- The bounded queue holds the end of all that has passed through it.
theorem selectRev_eq (hpos : 0 < limit) (h : selected.length ≤ limit) :
    selectRev seq limit selected events = (selected ++ events.takeWhile (seq < ·.seq)).rtake
      limit := by
  induction events generalizing selected
  case nil => simp [selectRev, List.rtake, Nat.sub_eq_zero_of_le h]
  case cons event older hi =>
    rw [selectRev]
    by_cases hs : event.seq ≤ seq
    case pos => simp [hs, List.rtake, Nat.sub_eq_zero_of_le h]
    case neg =>
      have ht : (event :: older).takeWhile (seq < ·.seq) = event :: older.takeWhile (seq < ·.seq) :=
        List.takeWhile_cons_of_pos (decide_eq_true (not_le.mp hs))
      rw [if_neg hs, ht, List.append_cons selected]
      by_cases hl : selected.length = limit
      case neg =>
        rw [if_neg hl, hi]
        simp
        omega
      case pos =>
        cases selected
        case nil => exact absurd hl hpos.ne
        case cons first selected =>
          rw [if_pos hl, List.tail_cons, hi (by simpa using h), List.cons_append, List.cons_append,
            List.rtake_cons]
          simp at hl ⊢
          omega

section Sorted

variable (h : (ring.events.map (·.seq)).Pairwise (· < ·))

include h

theorem takeWhile_reverse :
    ring.events.reverse.takeWhile (seq < ·.seq) = (ring.events.filter (seq < ·.seq)).reverse := by
  rw [List.takeWhile_eq_filter, List.filter_reverse]
  refine List.pairwise_reverse.mpr ((List.pairwise_map.mp h).imp fun hlt hs => ?_)
  exact decide_eq_true ((of_decide_eq_true hs).trans hlt)

theorem eventsSinceSeq_eq : ring.eventsSinceSeq seq = ring.events.filter (seq < ·.seq) := by
  rw [eventsSinceSeq, collectEventsSinceSeq_eq, takeWhile_reverse h, List.nil_append,
    List.reverse_reverse]

-- The early exit is for a poller that has seen the newest event.
theorem filter_of_getLast? (hl : ring.events.getLast?.all (·.seq ≤ seq)) :
    ring.events.filter (seq < ·.seq) = [] := by
  rw [← List.reverse_eq_nil_iff, ← takeWhile_reverse h]
  rw [← List.head?_reverse] at hl
  cases hr : ring.events.reverse
  case nil => rfl
  case cons event older =>
    rw [hr] at hl
    exact List.takeWhile_cons_of_neg (by simpa using hl)

theorem eventsSinceSeqLimited_eq :
    ring.eventsSinceSeqLimited seq limit = (ring.events.filter (seq < ·.seq)).take limit := by
  rw [eventsSinceSeqLimited]
  split
  case isTrue hz => rw [hz, List.take_zero]
  case isFalse hz =>
    rw [collectEventsSinceSeqLimited]
    split
    case isTrue hl => rw [filter_of_getLast? h hl, List.take_nil]
    case isFalse =>
      rw [selectRev_eq (Nat.pos_of_ne_zero hz) (Nat.zero_le _), List.nil_append,
        takeWhile_reverse h]
      rw [List.rtake_eq_reverse_take_reverse, List.reverse_reverse, List.reverse_reverse]

end Sorted

end Scan

end EventRing.EventRingBuffer
