import AgentMail.WriteBehind.Basic

namespace WriteBehind

variable {ι ω : Type} {ch ch' : Channel ι ω} {l l' : Ledger ι ω} {m : Msg ι ω} {x : Envelope ι ω}
variable {done : Call ι} {xs ys : List (Envelope ι ω)} {senders : Nat} {critical : Bool}

namespace Ledger

theorem accepted_send : (l.send m).accepted = l.accepted ++ m.op?.toList := by
  cases hm : m.op? <;> simp [send, accepted, hm]

theorem executedOps_send : (l.send m).executedOps = l.executedOps :=
  rfl

theorem executedOps_execute : (l.execute x critical).executedOps = l.executedOps ++ [x] := by
  simp [execute, executedOps]

-- The operations that had been sent before a flush are the first ones of a list.
def Behind (l : Ledger ι ω) (done : Call ι) (xs : List (Envelope ι ω)) : Prop :=
  ∃ pre post, l.sent = pre ++ .flush done :: post ∧ pre.filterMap Msg.op? <+: xs

theorem Behind.mono (h : l.Behind done xs) (hs : l.sent <+: l'.sent) (hx : xs <+: ys) :
    l'.Behind done ys := by
  have ⟨pre, post, he, hp⟩ := h
  have ⟨rest, hr⟩ := hs
  exact ⟨pre, post ++ rest, by rw [← hr, he, List.append_assoc, List.cons_append], hp.trans hx⟩

end Ledger

namespace Drain

variable {d : Drain ι ω}

theorem held_of_isFinished (h : d.isFinished) : d.held = [] := by
  cases d <;> first | rfl | cases h

theorem uncounted_of_isFinished (h : d.isFinished) : d.uncounted = [] := by
  cases d <;> first | rfl | cases h

theorem held_of_isDrop (h : d.isDrop) : d.held = [] := by
  cases d <;> first | rfl | cases h

end Drain

namespace Channel

-- Flushes that have been received and have not been acknowledged.
def waiting (ch : Channel ι ω) : List (Call ι) :=
  ch.flushWaiters ++ ch.drain.acks.toList

theorem waiting_eq (h : ch.drain.acks = none) : ch.waiting = ch.flushWaiters := by
  rw [waiting, h, Option.toList_none, List.append_nil]

theorem pending_of_isFinished (h : ch.drain.isFinished) (hq : ch.queue = []) : ch.pending = [] := by
  rw [pending, Drain.held_of_isFinished h, ops, hq]
  rfl

theorem ops_push : (ch.push m).ops = ch.ops ++ m.op?.toList := by
  cases hm : m.op? <;> simp [push, ops, hm]

theorem ops_of_queue {queue : List (Msg ι ω)} (h : ch.queue = m :: queue) :
    ch.ops = m.op?.toList ++ queue.filterMap Msg.op? := by
  cases hm : m.op? <;> simp [ops, h, hm]

theorem ops_congr (h : ch'.queue = ch.queue) : ch'.ops = ch.ops := by
  rw [ops, h, ops]

theorem pending_congr (hh : ch'.drain.held = ch.drain.held) (hq : ch'.queue = ch.queue) :
    ch'.pending = ch.pending := by
  rw [pending, hh, ops_congr hq, pending]

-- The receiver has not been dropped, and it is not about to be.
theorem ops_of_not_isDrop (h : ch.drain.isDrop = false) (hd : ch.drain.isDrop) : ch.ops = [] := by
  cases h.symm.trans hd

theorem pending_push : (ch.push m).pending = ch.pending ++ m.op?.toList := by
  rw [pending, ops_push, ← List.append_assoc]
  rfl

-- What one step of a drain thread does to the messages.
inductive Effect (ch : Channel ι ω) (l : Ledger ι ω) : Channel ι ω → Ledger ι ω → Prop
  | receive {ch' : Channel ι ω} (m : Msg ι ω)
      (queue     : ch.queue = m :: ch'.queue)
      (held      : ch'.drain.held = ch.drain.held ++ m.op?.toList)
      (uncounted : ch'.drain.uncounted = ch.drain.uncounted ++ m.op?.toList)
      (waiting   : ∀ done ∈ ch'.waiting, done ∈ ch.waiting ∨ m = .flush done)
      (isDrop    : ch'.drain.isDrop = false)
      (alive     : ch'.drain.isFinished = false) :
      Effect ch l ch' l
  | subtract {ch' : Channel ι ω}
      (queue     : ch'.queue = ch.queue)
      (held      : ch'.drain.held = ch.drain.held)
      (uncounted : ch'.drain.uncounted = [])
      (decrement : ch.drain.decrement = ch.drain.uncounted.length)
      (waiting   : ch'.waiting = ch.waiting)
      (isDrop    : ch'.drain.isDrop = false)
      (alive     : ch'.drain.isFinished = false) :
      Effect ch l ch' (l.subtract ch.drain.uncounted.length)
  | execute {ch' : Channel ι ω} (x : Envelope ι ω) (skipped : Bool)
      (queue     : ch'.queue = ch.queue)
      (held      : ch.drain.held = x :: ch'.drain.held)
      (uncounted : ch'.drain.uncounted = ch.drain.uncounted)
      (waiting   : ch'.waiting = ch.waiting)
      (isDrop    : ch'.drain.isDrop = false)
      (alive     : ch'.drain.isFinished = false) :
      Effect ch l ch' (l.execute x skipped)
  | ack {ch' : Channel ι ω} (done : Call ι)
      (queue     : ch'.queue = ch.queue)
      (held      : ch.drain.held = [])
      (held'     : ch'.drain.held = [])
      (uncounted : ch'.drain.uncounted = ch.drain.uncounted)
      (mem       : done ∈ ch.waiting)
      (waiting   : ∀ done ∈ ch'.waiting, done ∈ ch.waiting)
      (isDrop    : ch'.drain.isDrop = false)
      (alive     : ch'.drain.isFinished = false) :
      Effect ch l ch' (l.ack done)
  | skip {ch' : Channel ι ω}
      (queue     : ch'.queue = ch.queue)
      (held      : ch'.drain.held = ch.drain.held)
      (uncounted : ch'.drain.uncounted = ch.drain.uncounted)
      (waiting   : ch'.waiting = ch.waiting)
      (isDrop    : ch'.drain.isDrop → ch.queue = [])
      (alive     : ch'.drain.isFinished = false) :
      Effect ch l ch' l
  | drop {ch' : Channel ι ω}
      (was       : ch.drain.isDrop)
      (queue     : ch'.queue = [])
      (finished  : ch'.drain.isFinished)
      (uncounted : ch'.drain.uncounted = ch.drain.uncounted)
      (waiting   : ch'.waiting = ch.waiting) :
      Effect ch l ch' l

theorem effect_receive {batch : List (Envelope ι ω)} {queue : List (Msg ι ω)}
    (hq : ch.queue = m :: queue) (hh : ch.drain.held = batch) (hu : ch.drain.uncounted = batch)
    (ha : ch.drain.acks = none) : ch.Effect l (ch.receive batch queue m) l := by
  have hn : batch = batch ++ [] := (List.append_nil batch).symm
  have hw : ∀ done ∈ ch.flushWaiters ++ [], done ∈ ch.waiting := by
    intro done hd
    rwa [List.append_nil, ← waiting_eq ha] at hd
  cases m
  case op x     =>
    exact .receive (.op x) hq (hh ▸ rfl) (hu ▸ rfl) (fun _ hd => .inl (hw _ hd)) rfl rfl
  case shutdown =>
    exact .receive .shutdown hq (hh ▸ hn) (hu ▸ hn) (fun _ hd => .inl (hw _ hd)) rfl rfl
  case flush done =>
    refine .receive (.flush done) hq (hh ▸ hn) (hu ▸ hn) (fun d hd => ?_) rfl rfl
    rw [waiting_eq rfl] at hd
    cases List.mem_append.mp hd
    case inl hd => exact .inl (waiting_eq ha ▸ hd)
    case inr hd => exact .inr (by rw [List.mem_singleton.mp hd])

-- A drain thread acknowledges the first one of its waiters.
theorem effect_ack {waiters : List (Call ι)} (hw : ch.flushWaiters = done :: waiters)
    (hh : ch.drain.held = []) (hd : ch.drain.isDrop = false)
    (hf : ch.drain.isFinished = false) :
    ch.Effect l { ch with flushWaiters := waiters } (l.ack done) := by
  refine .ack done rfl hh hh rfl ?_ (fun d hm => ?_) hd hf
  · rw [waiting, hw]
    exact List.mem_cons_self
  · rw [waiting, hw]
    exact List.mem_cons_of_mem _ hm

-- The drain thread goes on without a message.
theorem effect_skip {d : Drain ι ω} (hh : d.held = ch.drain.held)
    (hu : d.uncounted = ch.drain.uncounted) (ha : d.acks = ch.drain.acks)
    (hd : d.isDrop → ch.queue = []) (hf : d.isFinished = false) :
    ch.Effect l { ch with drain := d } l :=
  .skip rfl hh hu (by rw [waiting, waiting, ha]) hd hf

theorem step_effect (h : ch.step l senders critical = some (ch', l')) : ch.Effect l ch' l' := by
  simp only [step] at h
  split at h
  case h_1 hd =>
    split at h
    case h_1 hq =>
      cases h
      exact effect_receive hq (hd ▸ rfl) (hd ▸ rfl) (hd ▸ rfl)
    case h_2 hq =>
      split at h <;> cases h <;> exact effect_skip (hd ▸ rfl) (hd ▸ rfl) (hd ▸ rfl)
        (fun _ => hq) rfl
  case h_2 hd =>
    split at h <;> cases h
    case h_1 hw => exact effect_ack hw (hd ▸ rfl) (hd ▸ rfl) (hd ▸ rfl)
    case h_2    => exact effect_skip (hd ▸ rfl) (hd ▸ rfl) (hd ▸ rfl) nofun rfl
  case h_3 batch hd =>
    split at h
    case h_1 hq =>
      split at h <;> cases h
      case isTrue  => exact effect_receive hq (hd ▸ rfl) (hd ▸ rfl) (hd ▸ rfl)
      case isFalse => exact effect_skip (hd ▸ rfl) (hd ▸ rfl) (hd ▸ rfl) nofun rfl
    case h_2 =>
      cases h
      exact effect_skip (hd ▸ rfl) (hd ▸ rfl) (hd ▸ rfl) nofun rfl
  case h_4 batch hd =>
    cases h
    have hu : ch.drain.uncounted = batch := hd ▸ rfl
    exact hu ▸ .subtract rfl (hd ▸ rfl) rfl (hd ▸ rfl) (by rw [waiting, waiting, hd]; rfl) rfl rfl
  case h_5 x batch hd =>
    cases h
    exact .execute x critical rfl (hd ▸ rfl) (hd ▸ rfl) (by rw [waiting, waiting, hd]; rfl) rfl rfl
  case h_6 hd =>
    cases h
    exact effect_skip (hd ▸ rfl) (hd ▸ rfl) (hd ▸ rfl) nofun rfl
  case h_7 hd =>
    split at h
    case h_1 hw =>
      cases h
      exact effect_ack hw (hd ▸ rfl) (hd ▸ rfl) (hd ▸ rfl)
    case h_2 =>
      split at h <;> cases h <;> exact effect_skip (hd ▸ rfl) (hd ▸ rfl) (hd ▸ rfl) nofun rfl
  case h_8 hd =>
    have hw : ch.waiting = ch.flushWaiters ++ [] := by rw [waiting, hd]; rfl
    split at h <;> cases h
    case h_1 x queue hq =>
      exact .receive (.op x) hq (hd ▸ rfl) (hd ▸ rfl) (fun _ hm => .inl (hw ▸ hm)) rfl rfl
    case h_2 done queue hq =>
      refine .receive (.flush done) hq (hd ▸ rfl) (hd ▸ rfl) (fun d hm => ?_) rfl rfl
      cases List.mem_append.mp hm
      case inl hm => exact .inl (hw ▸ List.mem_append_left _ hm)
      case inr hm => exact .inr (by rw [List.mem_singleton.mp hm])
    case h_3 queue hq =>
      refine .receive .shutdown hq ?_ ?_ (fun _ hm => .inl hm) (hd ▸ rfl) (hd ▸ rfl)
      · exact (List.append_nil _).symm
      · exact (List.append_nil _).symm
    case h_4 hq => exact effect_skip (hd ▸ rfl) (hd ▸ rfl) (hd ▸ rfl) (fun _ => hq) rfl
  case h_9 x hd =>
    cases h
    have hu : ch.drain.uncounted.length = 1 := hd ▸ rfl
    exact hu ▸ .subtract rfl (hd ▸ rfl) rfl (hd ▸ rfl) (by rw [waiting, waiting, hd]; rfl) rfl rfl
  case h_10 x hd =>
    cases h
    exact .execute x critical rfl (hd ▸ rfl) (hd ▸ rfl) (by rw [waiting, waiting, hd]; rfl) rfl rfl
  case h_11 done hd =>
    cases h
    have hw : ch.waiting = ch.flushWaiters ++ [done] := by rw [waiting, hd]; rfl
    refine .ack done rfl (hd ▸ rfl) rfl (hd ▸ rfl) ?_ (fun d hm => ?_) rfl rfl
    · exact hw ▸ List.mem_append_right _ List.mem_cons_self
    · rw [waiting_eq rfl] at hm
      exact hw ▸ List.mem_append_left _ hm
  case h_12 hd =>
    cases h
    exact .drop (hd ▸ rfl) rfl rfl (hd ▸ rfl) (by rw [waiting, waiting, hd]; rfl)
  case h_13 => cases h

-- What has been executed and what is pending have been accepted in this order, but something may
-- have been lost.
def Ordered (ch : Channel ι ω) (l : Ledger ι ω) : Prop :=
  (l.executedOps ++ ch.pending).Sublist l.accepted

theorem Ordered.push (h : ch.Ordered l) : (ch.push m).Ordered (l.send m) := by
  rw [Ordered, pending_push, Ledger.accepted_send, Ledger.executedOps_send, ← List.append_assoc]
  exact h.append (List.Sublist.refl _)

theorem Ordered.effect (h : ch.Ordered l) (he : ch.Effect l ch' l') : ch'.Ordered l' := by
  cases he
  case receive m hq hh _ _ _ _ =>
    rw [Ordered, pending, hh, List.append_assoc]
    rwa [Ordered, pending, ops_of_queue hq] at h
  case subtract hq hh _ _ _ _ _ =>
    rw [Ordered, pending_congr hh hq]
    exact h
  case execute x skipped hq hh _ _ _ _ =>
    rw [Ordered, Ledger.executedOps_execute, pending, ops_congr hq, List.append_assoc]
    rwa [Ordered, pending, hh] at h
  case ack done hq hh hh' _ _ _ _ _ =>
    rw [Ordered, pending_congr (hh'.trans hh.symm) hq]
    exact h
  case skip hq hh _ _ _ _ =>
    rw [Ordered, pending_congr hh hq]
    exact h
  case drop hd hq hf _ _ =>
    rw [Ordered, pending_of_isFinished hf hq, List.append_nil]
    exact (List.sublist_append_left _ _).trans h

-- Nothing has been lost.
structure Exact (ch : Channel ι ω) (l : Ledger ι ω) : Prop where
  conserved : l.accepted = l.executedOps ++ ch.pending
  received  : ∃ taken, l.sent = taken ++ ch.queue
  waiting   : ∀ done ∈ ch.waiting, l.Behind done (l.executedOps ++ ch.drain.held)
  acked     : ∀ done ∈ l.acked, l.Behind done l.executedOps
  dropped   : ch.drain.isDrop → ch.ops = []

theorem Exact.push (h : ch.Exact l) (hm : m.op? ≠ none → ch.drain.isDrop = false) :
    (ch.push m).Exact (l.send m) where
  conserved := by
    rw [Ledger.accepted_send, h.conserved, pending_push, List.append_assoc]
    rfl
  received := by
    have ⟨taken, ht⟩ := h.received
    refine ⟨taken, ?_⟩
    simp only [Ledger.send, Channel.push]
    rw [ht, List.append_assoc]
  waiting done hd := (h.waiting done hd).mono (List.prefix_append ..) (List.prefix_refl _)
  acked done hd := (h.acked done hd).mono (List.prefix_append ..) (List.prefix_refl _)
  dropped hd := by
    have hn : m.op? = none := by
      by_contra hn
      cases (hm hn).symm.trans hd
    rw [ops_push, hn, h.dropped hd]
    rfl

-- What has been received has been executed, or the drain thread holds it.
theorem Exact.taken {taken : List (Msg ι ω)} (h : ch.Exact l) (ht : l.sent = taken ++ ch.queue) :
    taken.filterMap Msg.op? = l.executedOps ++ ch.drain.held := by
  have hc := h.conserved
  rw [Ledger.accepted, ht, List.filterMap_append, pending, ← List.append_assoc] at hc
  exact List.append_cancel_right hc

theorem Exact.effect (h : ch.Exact l) (he : ch.Effect l ch' l') : ch'.Exact l' := by
  have ⟨taken, ht⟩ := h.received
  cases he
  case receive m hq hh _ hw hd _ =>
    refine ⟨?_, ⟨taken ++ [m], by rw [ht, hq, List.append_assoc]; rfl⟩, fun done hm => ?_, h.acked,
      ops_of_not_isDrop hd⟩
    · rw [h.conserved, pending, pending, hh, ops_of_queue hq, ops, List.append_assoc]
    · have hheld : l.executedOps ++ ch.drain.held <+: l.executedOps ++ ch'.drain.held := by
        rw [hh, ← List.append_assoc]
        exact List.prefix_append ..
      obtain hm | rfl := hw done hm
      · exact (h.waiting done hm).mono (List.prefix_refl _) hheld
      · exact ⟨taken, ch'.queue, hq ▸ ht, h.taken ht ▸ hheld⟩
  case subtract hq hh _ _ hw hd _ =>
    refine ⟨?_, ⟨taken, hq ▸ ht⟩, ?_, h.acked, ops_of_not_isDrop hd⟩
    · rw [pending_congr hh hq]
      exact h.conserved
    · rw [hw, hh]
      exact h.waiting
  case execute x skipped hq hh _ hw hd _ =>
    refine ⟨?_, ⟨taken, hq ▸ ht⟩, fun done hm => ?_, fun done hm => ?_, ops_of_not_isDrop hd⟩
    · have hc := h.conserved
      rw [pending, hh] at hc
      rwa [Ledger.executedOps_execute, pending, ops_congr hq, List.append_assoc]
    · rw [Ledger.executedOps_execute, List.append_assoc, List.singleton_append, ← hh]
      exact h.waiting done (hw ▸ hm)
    · rw [Ledger.executedOps_execute]
      exact (h.acked done hm).mono (List.prefix_refl _) (List.prefix_append ..)
  case ack done hq hh hh' _ hm hw hd _ =>
    have hwait (d : Call ι) (hd : d ∈ ch.waiting) : l.Behind d l.executedOps := by
      have hb := h.waiting d hd
      rwa [hh, List.append_nil] at hb
    refine ⟨?_, ⟨taken, hq ▸ ht⟩, fun d hd => ?_, fun d hd => ?_, ops_of_not_isDrop hd⟩
    · rw [pending_congr (hh'.trans hh.symm) hq]
      exact h.conserved
    · rw [hh', List.append_nil]
      exact hwait d (hw d hd)
    · cases List.mem_append.mp hd
      case inl hd => exact h.acked d hd
      case inr hd => exact List.mem_singleton.mp hd ▸ hwait done hm
  case skip hq hh _ hw hd _ =>
    refine ⟨?_, ⟨taken, hq ▸ ht⟩, ?_, h.acked, fun hd' => ?_⟩
    · rw [pending_congr hh hq]
      exact h.conserved
    · rw [hw, hh]
      exact h.waiting
    · rw [ops, hq, hd hd']
      rfl
  case drop hd hq hf _ hw =>
    have hh := Drain.held_of_isDrop hd
    have hc := h.conserved
    rw [pending, hh, h.dropped hd] at hc
    refine ⟨?_, ⟨l.sent, by rw [hq, List.append_nil]⟩, ?_, h.acked, fun _ => by rw [ops, hq]; rfl⟩
    · rw [pending_of_isFinished hf hq]
      exact hc
    · rw [hw, Drain.held_of_isFinished hf, ← hh]
      exact h.waiting

-- A new channel takes the place of one that is closed.
theorem Exact.new (h : ch.Exact l) (hf : ch.drain.isFinished) (hq : ch.queue = []) :
    Channel.new.Exact l where
  conserved := by
    have hc := h.conserved
    rwa [pending_of_isFinished hf hq] at hc
  received := ⟨l.sent, (List.append_nil _).symm⟩
  waiting  := nofun
  acked    := h.acked
  dropped  := nofun

-- The depth, with the operations that `n` threads have not counted yet.
structure Balanced (ch : Channel ι ω) (l : Ledger ι ω) (n : Nat) : Prop where
  depth   : l.opDepth + n = ch.ops.length + ch.drain.uncounted.length
  dropped : ch.drain.isDrop → ch.ops = []

theorem Balanced.push_op {n : Nat} (h : ch.Balanced l n) (hd : ch.drain.isDrop = false) :
    (ch.push (.op x)).Balanced (l.send (.op x)) (n + 1) where
  depth := by
    have he : (ch.push (.op x)).ops.length = ch.ops.length + 1 := by
      rw [ops_push, List.length_append]; rfl
    rw [he, Nat.add_right_comm]
    exact congrArg (· + 1) h.depth
  dropped hd' := by cases hd.symm.trans hd'

theorem Balanced.push {n : Nat} (h : ch.Balanced l n) (hm : m.op? = none) :
    (ch.push m).Balanced (l.send m) n where
  depth := by
    rw [ops_push, hm, Option.toList_none, List.append_nil]
    exact h.depth
  dropped hd := by
    rw [ops_push, hm, h.dropped hd]
    rfl

theorem Balanced.record {n : Nat} (h : ch.Balanced l (n + 1)) : ch.Balanced l.record n where
  depth   := (Nat.add_right_comm ..).trans h.depth
  dropped := h.dropped

theorem Balanced.new {n : Nat} (h : ch.Balanced l n) (hf : ch.drain.isFinished)
    (hq : ch.queue = []) : Channel.new.Balanced l n where
  depth   := by
    have hn := h.depth
    rw [ops, hq, Drain.uncounted_of_isFinished hf] at hn
    exact hn
  dropped := nofun

theorem Balanced.effect {n : Nat} (h : ch.Balanced l n) (hc : ch.drain.decrement ≤ l.opDepth)
    (he : ch.Effect l ch' l') : ch'.Balanced l' n := by
  have hn := h.depth
  cases he
  case receive m hq _ hu _ hd _ =>
    refine ⟨?_, ops_of_not_isDrop hd⟩
    rw [ops_of_queue hq, List.length_append] at hn
    rw [hu, List.length_append, ops]
    omega
  case subtract hq _ hu hdec _ hd _ =>
    refine ⟨?_, ops_of_not_isDrop hd⟩
    rw [hu, ops_congr hq, List.length_nil]
    simp only [Ledger.subtract]
    omega
  case execute x skipped hq _ hu _ hd _ => exact ⟨by rwa [hu, ops_congr hq], ops_of_not_isDrop hd⟩
  case ack done hq _ _ hu _ _ hd _      => exact ⟨by rwa [hu, ops_congr hq], ops_of_not_isDrop hd⟩
  case skip hq _ hu _ hd _ =>
    refine ⟨by rwa [hu, ops_congr hq], fun hd' => ?_⟩
    rw [ops, hq, hd hd']
    rfl
  case drop hd hq hf hu _ =>
    refine ⟨?_, fun _ => by rw [ops, hq]; rfl⟩
    rw [h.dropped hd] at hn
    rwa [hu, ops, hq]

end Channel

namespace Drain

-- How many steps the drain thread is from the next message.
def weight : Drain ι ω → Nat
  | timeout       => 1
  | fill batch    => batch.length + 4
  | count batch   => batch.length + 3
  | execute batch => batch.length + 2
  | ack           => 1
  | iterCount _   => 2
  | iterExecute _ => 1
  | iterAck _     => 1
  | _             => 0

end Drain

namespace Channel

def weight (ch : Channel ι ω) : Nat :=
  6 * ch.queue.length + ch.flushWaiters.length + ch.drain.weight

theorem weight_receive {batch : List (Envelope ι ω)} {queue : List (Msg ι ω)} :
    (ch.receive batch queue m).weight < 6 * (queue.length + 1) + ch.flushWaiters.length +
      batch.length := by
  cases m <;> simp [receive, weight, Drain.weight] <;> omega

theorem exists_step (h : ch.drain.isFinished = false) :
    ∃ ch' l', ch.step l senders critical = some (ch', l') := by
  simp only [step]
  split
  case h_13 hd =>
    rw [hd] at h
    cases h
  all_goals repeat' split
  all_goals exact ⟨_, _, rfl⟩

-- When something is pending, the drain thread gets closer to its next message.
theorem weight_step (h : ch.step l senders critical = some (ch', l')) (hp : ch.pending ≠ [])
    (hd : ch.drain.isDrop → ch.ops = []) : ch'.weight < ch.weight := by
  simp only [step] at h
  split at h
  case h_1 hr =>
    split at h
    case h_1 hq =>
      cases h
      refine Nat.lt_of_lt_of_eq weight_receive ?_
      simp [weight, hr, hq, Drain.weight]
    case h_2 hq => exact absurd (by rw [pending, ops, hr, hq]; rfl) hp
  case h_2 =>
    split at h <;> cases h <;> simp [weight, Drain.weight, *]
  case h_3 batch hf =>
    split at h
    case h_1 hq =>
      split at h <;> cases h
      case isTrue =>
        refine Nat.lt_trans weight_receive ?_
        simp [weight, hf, hq, Drain.weight]
      case isFalse => simp [weight, hf, Drain.weight]
    case h_2 =>
      cases h
      simp [weight, hf, Drain.weight]
  case h_7 ha =>
    split at h
    case h_1 hw =>
      cases h
      simp [weight, ha, hw, Drain.weight]
    case h_2 => split at h <;> cases h <;> simp [weight, ha, Drain.weight]
  case h_8 hi =>
    split at h <;> cases h
    case h_4 hq => exact absurd (by rw [pending, ops, hi, hq]; rfl) hp
    all_goals
      simp [weight, Drain.weight, *]
      try omega
  case h_12 hdr =>
    refine absurd ?_ hp
    rw [pending, hdr, hd (hdr ▸ rfl)]
    rfl
  case h_13 => cases h
  all_goals
    rename_i hs
    cases h
    simp [weight, hs, Drain.weight]

end Channel
end WriteBehind
