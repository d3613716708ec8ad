import AgentMail.EventRing.Theorems.Push

namespace EventRing

open EventRingBuffer

variable {s : Session} {ring : EventRingBuffer} {calls : List Call} {call : Call}
  {event : MailEvent} {nowMicros : Int} {policy : BackpressurePolicy} {capacity first limit : Nat}

namespace Session

-- The ring and the history of the calls account for each other.
structure Valid (s : Session) : Prop where
  numbered    : s.pushed = List.range' 1 s.pushed.length
  nextSeq     : s.ring.nextSeq = U64.saturate (s.pushed.length + 1)
  totalPushed : s.ring.totalPushed = s.pushed.length
  sorted      : (s.ring.events.map (·.seq)).Pairwise (· < ·)
  issued      : ∀ event ∈ s.ring.events, event.seq ≤ s.pushed.length
  capacity    : 0 < s.ring.capacity
  bounded     : s.ring.events.length ≤ s.ring.capacity
  length      : s.ring.events.length + s.evicted.length = s.pushed.length
  accounted   : ∀ seq ∈ s.pushed, seq ∈ s.ring.events.map (·.seq) ∨ seq ∈ s.evicted.map (·.seq)

structure Reads (s : Session) (first : Nat) : Prop where
  increasing : (first :: s.received.map (·.seq)).Pairwise (· < ·)
  upTo       : ∀ seq ∈ first :: s.received.map (·.seq), seq ≤ s.cursor
  behind     : s.cursor = first ∨ s.cursor ≤ s.pushed.length
  covered    : ∀ seq ∈ s.pushed, first < seq → seq ≤ s.cursor →
    seq ∈ s.received.map (·.seq) ∨ seq ∈ s.evicted.map (·.seq)

theorem valid_start : (start capacity policy first).Valid where
  numbered    := rfl
  nextSeq     := rfl
  totalPushed := rfl
  sorted      := .nil
  issued      := fun _ h => nomatch h
  capacity    := Nat.lt_of_lt_of_le Nat.zero_lt_one (Nat.le_max_right ..)
  bounded     := Nat.zero_le _
  length      := rfl
  accounted   := fun _ h => nomatch h

theorem reads_start : (start capacity policy first).Reads first where
  increasing := List.pairwise_singleton ..
  upTo       := fun _ h => (List.mem_singleton.mp h).le
  behind     := .inl rfl
  covered    := fun _ h => nomatch h

section Push

-- The ring takes one more event, in the place of at most one that it gives up.
structure Takes (s : Session) (event : MailEvent) (lost : Option MailEvent)
    (ring : EventRingBuffer) : Prop where
  seq         : event.seq = s.pushed.length + 1
  nextSeq     : ring.nextSeq = U64.saturate (s.pushed.length + 2)
  totalPushed : ring.totalPushed = s.pushed.length + 1
  capacity    : ring.capacity = s.ring.capacity
  bounded     : ring.events.length ≤ ring.capacity
  events      : ∃ older newer, s.ring.events = older ++ lost.toList ++ newer ∧
    ring.events = older ++ newer ++ [event]

theorem seq_stamped {seq : Nat} : ((event.setSeq seq).setTimestampIfUnset nowMicros).seq = seq := by
  unfold MailEvent.setTimestampIfUnset
  split <;> rfl

theorem Valid.takes (event : MailEvent) (nowMicros : Int) (h : s.Valid) (hk : Keeps s.ring ring)
    (hlt : s.pushed.length + 1 < 2 ^ 64) :
    ∃ event' lost, (ring.pushInner event nowMicros).1 = event'.seq ∧
      s.Takes event' lost (ring.pushInner event nowMicros).2 := by
  have hseq : ring.nextSeq = s.pushed.length + 1 := by
    rw [hk.nextSeq, h.nextSeq, U64.saturate_of_lt hlt]
  have ⟨older, newer, lost, he, hev, hl, _⟩ := evict_cases (hk.capacity ▸ h.capacity)
    (by rw [hk.events, hk.capacity]; exact h.bounded)
  refine ⟨(event.setSeq ring.nextSeq).setTimestampIfUnset nowMicros, lost, seq_stamped.symm, ?_⟩
  exact {
    seq         := seq_stamped.trans hseq
    nextSeq     := congrArg (U64.saturate <| · + 1) hseq
    totalPushed := by
      show U64.saturate (ring.totalPushed + 1) = _
      rw [hk.totalPushed, h.totalPushed, U64.saturate_of_lt hlt]
    capacity    := hk.capacity
    bounded     := List.length_append.trans_le hl
    events      := ⟨older, newer, hk.events ▸ he, congrArg (· ++ _) hev⟩
  }

variable {lost : Option MailEvent}

theorem Valid.nodup (h : s.Valid) : s.ring.events.Nodup :=
  (List.pairwise_map.mp h.sorted).imp fun hlt heq => hlt.ne (congrArg _ heq)

theorem Takes.not_mem (ht : s.Takes event lost ring) (h : s.Valid) : event ∉ s.ring.events := by
  intro hm
  have := h.issued event hm
  have := ht.seq
  omega

-- The history records the event that the ring gives up.
theorem Takes.filter (ht : s.Takes event lost ring) (h : s.Valid) :
    s.ring.events.filter (· ∉ ring.events) = lost.toList := by
  have ⟨older, newer, he, he'⟩ := ht.events
  have hn := h.nodup
  have hm := ht.not_mem h
  rw [he] at hn hm ⊢
  rw [he']
  have ho : older.filter (· ∉ older ++ newer ++ [event]) = [] :=
    List.filter_eq_nil_iff.mpr fun e h => by simp [h]
  have hw : newer.filter (· ∉ older ++ newer ++ [event]) = [] :=
    List.filter_eq_nil_iff.mpr fun e h => by simp [h]
  rw [List.filter_append, List.filter_append, ho, hw, List.append_nil, List.nil_append,
    List.filter_eq_self]
  intro e hl
  have ⟨hol, _, hd⟩ := List.nodup_append.mp hn
  have ⟨_, _, hd'⟩ := List.nodup_append.mp hol
  have hne : e ≠ event := fun heq => hm (heq ▸ by simp [hl])
  simp only [List.mem_append, List.mem_singleton, decide_eq_true_eq]
  rintro ((ho | hw) | he)
  · exact hd' e ho e hl rfl
  · exact hd e (by simp [hl]) e hw rfl
  · exact hne he

theorem Takes.valid (ht : s.Takes event lost ring) (h : s.Valid) :
    (s.moveTo event.seq ring).Valid := by
  have hf := ht.filter h
  have ⟨older, newer, he, he'⟩ := ht.events
  have hlen : (s.moveTo event.seq ring).pushed.length = s.pushed.length + 1 := by simp [moveTo]
  have hsub : (older ++ newer).Sublist s.ring.events := by
    rw [he]
    exact (List.sublist_append_left ..).append (.refl _)
  have hev : (s.moveTo event.seq ring).evicted = s.evicted ++ lost.toList :=
    congrArg (s.evicted ++ ·) hf
  exact {
    numbered    := by
      rw [hlen, List.range'_1_concat, ← h.numbered, Nat.add_comm 1, ← ht.seq]
      rfl
    nextSeq     := hlen ▸ ht.nextSeq
    totalPushed := hlen ▸ ht.totalPushed
    sorted      := by
      show (ring.events.map _).Pairwise _
      rw [he', List.map_append, List.pairwise_append]
      refine ⟨h.sorted.sublist (hsub.map _), List.pairwise_singleton .., ?_⟩
      simp only [List.mem_map, List.map_cons, List.map_nil, List.mem_singleton]
      rintro _ ⟨e, he, rfl⟩ _ rfl
      have := h.issued e (hsub.subset he)
      have := ht.seq
      omega
    issued      := by
      show ∀ e ∈ ring.events, _
      rw [he', hlen]
      intro e hm
      cases List.mem_append.mp hm
      case inl hm => exact Nat.le_succ_of_le (h.issued e (hsub.subset hm))
      case inr hm => exact (List.mem_singleton.mp hm ▸ ht.seq).le
    capacity    := ht.capacity ▸ h.capacity
    bounded     := ht.bounded
    length      := by
      show ring.events.length + _ = _
      rw [hlen, hev, he', ← h.length, he]
      simp
      omega
    accounted   := by
      show ∀ seq ∈ s.pushed ++ [event.seq], seq ∈ ring.events.map _ ∨ _
      rw [hev, he']
      intro seq hm
      cases List.mem_append.mp hm
      case inr hm => exact .inl (by simp [List.mem_singleton.mp hm])
      case inl hm =>
        cases h.accounted seq hm
        case inr hm => exact .inr (by simp [hm])
        case inl hm =>
          rw [he, List.map_append, List.map_append, List.mem_append, List.mem_append] at hm
          rw [List.map_append, List.map_append, List.map_append, List.mem_append, List.mem_append,
            List.mem_append]
          tauto
  }

end Push

end Session

end EventRing
