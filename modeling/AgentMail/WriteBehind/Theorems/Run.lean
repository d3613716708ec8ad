import Mathlib.Data.Finset.Card
import AgentMail.WriteBehind.Theorems.Calls

namespace WriteBehind

variable {ι ω : Type}

namespace System

variable {s s' : System ι ω} {i : ι} {p : Phase ω} {c : Nat} {expired critical : Bool} {m : Msg ι ω}
variable {e : Event ι ω}

theorem Frame.current (h : s.Frame s') : s'.current = s.current := by
  rw [System.current, System.current, h.channels, h.spawned]

theorem Inv.current_push (h : s.Inv) (hc : (s.channels c).drain.isFinished = false) :
    (s.push c m).current = s.current.push m := by
  have he := h.current_eq hc
  subst he
  exact Function.update_self ..

theorem current_addChannel : s.addChannel.current = .new :=
  Function.update_self ..

-- An operation that is sent is not sent too late.
theorem not_isDrop_of_timely (h : s.Inv) (ht : s.Timely (.advance i expired))
    (hc : (s.channels c).drain.isFinished = false) (hs : (s.threads i).sends = some c) :
    s.current.drain.isDrop = false := by
  have hd := ht c hs
  rwa [← h.current_eq hc] at hd

theorem drain_eq (h : s.Inv) {s' : System ι ω} [DecidableEq ι]
    (hs : s.step (.drain c critical) = some s') :
    ∃ ch l, s.current.step s.ledger (s.senders c) critical = some (ch, l) ∧
      s' = { s.setChannel (s.spawned - 1) ch with ledger := l } ∧ s.spawned - 1 = c := by
  simp only [step] at hs
  split at hs <;> cases hs
  case h_2 ch l hstep =>
    have he := h.current_eq (Channel.not_isFinished_of_step hstep)
    subst he
    exact ⟨ch, l, hstep, rfl, rfl⟩

theorem current_setChannel {ch : Channel ι ω} {l : Ledger ι ω} :
    { s.setChannel (s.spawned - 1) ch with ledger := l }.current = ch :=
  Function.update_self ..

-- The threads that have sent operations that they have not counted.
structure Recorders (s : System ι ω) (threads : Finset ι) : Prop where
  mem_iff  : ∀ i, i ∈ threads ↔ (s.threads i).isRecord
  balanced : s.current.Balanced s.ledger threads.card

theorem init_recorders : (init : System ι ω).Recorders ∅ where
  mem_iff  := fun _ => ⟨nofun, nofun⟩
  balanced := ⟨rfl, nofun⟩

theorem Recorders.gauged {threads : Finset ι} (h : s.Recorders threads) : s.Gauged := by
  intro hr hu
  have hb := h.balanced.depth
  have ht : threads = ∅ := Finset.eq_empty_of_forall_notMem fun i hi => by
    cases (hr i).symm.trans ((h.mem_iff i).mp hi)
  rw [hu, ht] at hb
  exact hb

theorem Numbered.nodup (h : s.Numbered) : s.ledger.calls.Nodup :=
  h.ordered.imp fun hab he => absurd (hab (congrArg Call.caller he)) (he ▸ Nat.lt_irrefl _)

theorem init_exact : (init : System ι ω).current.Exact (init : System ι ω).ledger where
  conserved := rfl
  received  := ⟨[], rfl⟩
  waiting   := nofun
  acked     := nofun
  dropped   := nofun

variable [DecidableEq ι]

theorem Inv.call (h : s.Inv) (hp : p.isCritical = false) (hn : p.keeps = none)
    (hs : s.call i p = some s') : s'.Inv := by
  obtain ⟨hi, rfl⟩ := call_eq hs
  refine h.pass hi rfl rfl rfl rfl rfl (fun hc => ?_) (fun hc => ?_) hn
  · cases hp.symm.trans hc
  · cases hp.symm.trans (Phase.isCritical_of_isSpawning hc)

theorem Inv.step (h : s.Inv) (hs : s.step e = some s') : s'.Inv := by
  cases e
  case start i       => exact h.call rfl rfl hs
  case enqueue i r   => exact h.call rfl rfl hs
  case flush i       => exact h.call rfl rfl hs
  case shutdown i    => exact h.call rfl rfl hs
  case advance i b   => exact h.advance rfl hs
  case drain c b =>
    obtain ⟨ch, l, hstep, rfl, _⟩ := drain_eq h hs
    have hi :=
      h.setChannel (Channel.not_isFinished_of_step hstep) (Channel.step_effect hstep).queue_eq_nil
    exact ⟨hi.locked, hi.spawning, hi.alive, hi.closed⟩

theorem Numbered.step (h : s.Numbered) (hi : s.Inv) (hs : s.step e = some s') : s'.Numbered := by
  cases e
  case start i       => exact h.call rfl hs
  case enqueue i r   => exact h.call rfl hs
  case flush i       => exact h.call rfl hs
  case shutdown i    => exact h.call rfl hs
  case advance i b   =>
    have ⟨hn, hm⟩ := advance_moves rfl hs
    exact h.moves hn hm
  case drain c b =>
    obtain ⟨ch, l, hstep, rfl, _⟩ := drain_eq hi hs
    have hsent := (Channel.step_effect hstep).sent_eq
    have hcalls : l.calls = s.ledger.calls := by rw [Ledger.calls, hsent, Ledger.calls]
    have hacc : l.accepted = s.ledger.accepted := by rw [Ledger.accepted, hsent, Ledger.accepted]
    refine ⟨?_, ?_, ?_, ?_, ?_⟩
    · exact hcalls ▸ h.ordered
    · exact hcalls ▸ h.bounded
    · exact hcalls ▸ h.unsent
    · exact hacc ▸ h.recorded
    · exact hacc ▸ h.returned

theorem exact_moves (h : s.current.Exact s.ledger) (hi : s.Inv)
    (ht : s.Timely (.advance i expired)) (hm : s.Moves i s') : s'.current.Exact s'.ledger := by
  cases hm
  case quiet hf _ _ _ _ _     => rwa [hf.current, hf.ledger]
  case refuse hf _ _ _ _      => rwa [hf.current, hf.ledger]
  case record hf _ _ _        =>
    rw [hf.current, hf.ledger]
    exact ⟨h.conserved, h.received, h.waiting, h.acked, h.dropped⟩
  case spawn r p hf _ _ hw _  =>
    rw [hf.current, hf.ledger, current_addChannel]
    exact h.new (hi.finished_of_spawn hw) (hi.closed _ (hi.finished_of_spawn hw))
  case sendOp c x p hf _ _ ha hs _ _ _ =>
    rw [hf.current, hf.ledger, hi.current_push ha]
    exact h.push fun _ => not_isDrop_of_timely hi ht ha hs
  case sendFlush c p hf _ _ ha _ _ _ =>
    rw [hf.current, hf.ledger, hi.current_push ha]
    exact h.push fun hn => absurd rfl hn
  case sendShutdown c p hf _ _ ha _ _ _ =>
    rw [hf.current, hf.ledger, hi.current_push ha]
    exact h.push fun hn => absurd rfl hn

theorem exact_step (h : s.current.Exact s.ledger) (hi : s.Inv) (ht : s.Timely e)
    (hs : s.step e = some s') : s'.current.Exact s'.ledger := by
  cases e
  case advance i b => exact exact_moves h hi ht (advance_moves rfl hs).right
  case drain c b =>
    obtain ⟨ch, l, hstep, rfl, _⟩ := drain_eq hi hs
    rw [current_setChannel]
    exact h.effect (Channel.step_effect hstep)
  all_goals
    obtain ⟨_, rfl⟩ := call_eq hs
    exact h

theorem ordered_moves (h : s.current.Ordered s.ledger) (hi : s.Inv) (hm : s.Moves i s') :
    s'.current.Ordered s'.ledger := by
  cases hm
  case quiet hf _ _ _ _ _ => rwa [hf.current, hf.ledger]
  case refuse hf _ _ _ _  => rwa [hf.current, hf.ledger]
  case record hf _ _ _    => rwa [hf.current, hf.ledger]
  case spawn r p hf _ _ hw _ =>
    have hfin := hi.finished_of_spawn (c := s.spawned - 1) hw
    rw [Channel.Ordered, System.current, Channel.pending_of_isFinished hfin (hi.closed _ hfin)] at h
    rwa [hf.current, hf.ledger, current_addChannel]
  case sendOp c x p hf _ _ ha _ _ _ _ =>
    rw [hf.current, hf.ledger, hi.current_push ha]
    exact h.push
  case sendFlush c p hf _ _ ha _ _ _ =>
    rw [hf.current, hf.ledger, hi.current_push ha]
    exact h.push
  case sendShutdown c p hf _ _ ha _ _ _ =>
    rw [hf.current, hf.ledger, hi.current_push ha]
    exact h.push

theorem ordered_step (h : s.current.Ordered s.ledger) (hi : s.Inv) (hs : s.step e = some s') :
    s'.current.Ordered s'.ledger := by
  cases e
  case advance i b => exact ordered_moves h hi (advance_moves rfl hs).right
  case drain c b =>
    obtain ⟨ch, l, hstep, rfl, _⟩ := drain_eq hi hs
    rw [current_setChannel]
    exact h.effect (Channel.step_effect hstep)
  all_goals
    obtain ⟨_, rfl⟩ := call_eq hs
    exact h

theorem mem_iff_erase {threads : Finset ι} (h : ∀ j, j ∈ threads ↔ (s.threads j).isRecord)
    (ht : s'.threads = Function.update s.threads i p) (hp : p.isRecord = false) (j : ι) :
    j ∈ threads.erase i ↔ (s'.threads j).isRecord := by
  rw [Finset.mem_erase, ht, h]
  by_cases hj : j = i
  case pos => simp [hj, hp]
  case neg => simp [hj]

theorem mem_iff_insert {threads : Finset ι} (h : ∀ j, j ∈ threads ↔ (s.threads j).isRecord)
    (ht : s'.threads = Function.update s.threads i p) (hp : p.isRecord) (j : ι) :
    j ∈ insert i threads ↔ (s'.threads j).isRecord := by
  rw [Finset.mem_insert, ht, h]
  by_cases hj : j = i
  case pos => simp [hj, hp]
  case neg => simp [hj]

-- A thread goes on that neither has sent an operation nor sends one.
theorem Recorders.goto {threads : Finset ι} (h : s.Recorders threads)
    (ht : s'.threads = Function.update s.threads i p) (hw : (s.threads i).isRecord = false)
    (hp : p.isRecord = false) (hb : s'.current.Balanced s'.ledger threads.card) :
    s'.Recorders threads := by
  have hi : i ∉ threads := fun hi => by cases hw.symm.trans ((h.mem_iff i).mp hi)
  refine ⟨fun j => ?_, hb⟩
  rw [← mem_iff_erase h.mem_iff ht hp, Finset.erase_eq_of_notMem hi]

theorem Recorders.moves {threads : Finset ι} (h : s.Recorders threads) (hi : s.Inv)
    (ht : s.Timely (.advance i expired)) (hm : s.Moves i s') : ∃ threads, s'.Recorders threads := by
  have hb := h.balanced
  cases hm
  case quiet p hf hth _ _ hw hp =>
    exact ⟨threads, h.goto hth hw hp (by rwa [hf.current, hf.ledger])⟩
  case refuse r hf hth _ hu _ =>
    exact ⟨threads,
      h.goto hth (Phase.not_isRecord_of_isUnsent hu) rfl (by rwa [hf.current, hf.ledger])⟩
  case record hf hth _ hw =>
    refine ⟨threads.erase i, mem_iff_erase h.mem_iff hth rfl, ?_⟩
    rw [hf.current, hf.ledger]
    rw [← Finset.card_erase_add_one ((h.mem_iff i).mpr hw)] at hb
    exact hb.record
  case spawn r p hf hth _ hw hp =>
    refine ⟨threads, h.goto hth (hw ▸ rfl) hp ?_⟩
    rw [hf.current, hf.ledger, current_addChannel]
    exact hb.new (hi.finished_of_spawn hw) (hi.closed _ (hi.finished_of_spawn hw))
  case sendOp c x p hf hth _ ha hs _ _ hp =>
    have hn : i ∉ threads := fun hn => by
      cases (Phase.not_isRecord_of_isUnsent (Phase.isUnsent_of_sends hs)).symm.trans
        ((h.mem_iff i).mp hn)
    refine ⟨insert i threads, mem_iff_insert h.mem_iff hth hp, ?_⟩
    rw [hf.current, hf.ledger, hi.current_push ha, Finset.card_insert_of_notMem hn]
    exact hb.push_op (not_isDrop_of_timely hi ht ha hs)
  case sendFlush c p hf hth _ ha hw _ hp =>
    refine ⟨threads, h.goto hth (Phase.not_isRecord_of_isUnsent hw) hp ?_⟩
    rw [hf.current, hf.ledger, hi.current_push ha]
    exact hb.push rfl
  case sendShutdown c p hf hth _ ha hw _ hp =>
    refine ⟨threads, h.goto hth hw hp ?_⟩
    rw [hf.current, hf.ledger, hi.current_push ha]
    exact hb.push rfl

theorem Recorders.call {threads : Finset ι} (h : s.Recorders threads) (hp : p.isRecord = false)
    (hs : s.call i p = some s') : s'.Recorders threads := by
  obtain ⟨hi, rfl⟩ := call_eq hs
  exact h.goto rfl (hi ▸ rfl) hp h.balanced

theorem Recorders.step {threads : Finset ι} (h : s.Recorders threads) (hi : s.Inv) (ht : s.Timely e)
    (hc : s.Counted e) (hs : s.step e = some s') : ∃ threads, s'.Recorders threads := by
  cases e
  case start i       => exact ⟨threads, h.call rfl hs⟩
  case enqueue i r   => exact ⟨threads, h.call rfl hs⟩
  case flush i       => exact ⟨threads, h.call rfl hs⟩
  case shutdown i    => exact ⟨threads, h.call rfl hs⟩
  case advance i b   => exact h.moves hi ht (advance_moves rfl hs).right
  case drain c b =>
    obtain ⟨ch, l, hstep, rfl, rfl⟩ := drain_eq hi hs
    refine ⟨threads, h.mem_iff, ?_⟩
    rw [current_setChannel]
    exact h.balanced.effect hc (Channel.step_effect hstep)

-- The drain thread executes what is pending on its own.
theorem exists_drain (hi : s.Inv) (he : s.current.Exact s.ledger) :
    ∃ es s', (∀ e ∈ es, e.isDrain) ∧ run step s es = some s' ∧
      s'.ledger.executedOps = s.ledger.accepted := by
  have hstep (t : System ι ω) (h : t.Inv ∧ t.current.Exact t.ledger ∧
      t.ledger.sent = s.ledger.sent) :
      t.current.pending = [] ∨ ∃ e t', e.isDrain ∧ t.step e = some t' ∧
        (t'.Inv ∧ t'.current.Exact t'.ledger ∧ t'.ledger.sent = s.ledger.sent) ∧
          t'.current.weight < t.current.weight := by
    have ⟨hi, he, hsent⟩ := h
    by_cases hp : t.current.pending = []
    case pos => exact .inl hp
    case neg =>
      have hf : t.current.drain.isFinished = false := Bool.eq_false_iff.mpr fun hf =>
        hp (Channel.pending_of_isFinished hf (hi.closed _ hf))
      have ⟨ch, l, hch⟩ : ∃ ch l, t.current.step t.ledger (t.senders (t.spawned - 1)) false =
          some (ch, l) := Channel.exists_step hf
      have hs : t.step (.drain (t.spawned - 1) false) =
          some { t.setChannel (t.spawned - 1) ch with ledger := l } := by
        rw [System.current] at hch
        simp only [System.step, hch]
      have ht : t.Timely (.drain (t.spawned - 1) false) := trivial
      refine .inr ⟨_, _, rfl, hs, ⟨hi.step hs, exact_step he hi ht hs, ?_⟩, ?_⟩
      · exact (Channel.step_effect hch).sent_eq.trans hsent
      · rw [current_setChannel]
        exact Channel.weight_step hch hp he.dropped
  have ⟨es, s', hes, h, ⟨_, he', hsent⟩, hp⟩ := Run.reaches _ hstep ⟨hi, he, rfl⟩
  refine ⟨es, s', hes, h, ?_⟩
  have hc := he'.conserved
  rw [hp, List.append_nil] at hc
  rw [← hc, Ledger.accepted, hsent, Ledger.accepted]

theorem delivers (hi : s.Inv) (hn : s.Numbered) (he : s.current.Exact s.ledger) : s.Delivers where
  conserved := he.conserved
  once i n hr := by
    rw [← he.conserved]
    refine List.count_eq_one_of_mem (hn.nodup.sublist Ledger.acceptedCalls_sublist) ?_
    exact (hn.returned i n _ hr).right.mp rfl
  refused i n r hr hne hm := hne ((hn.returned i n r hr).right.mpr hm)
  ordered := by
    refine (hn.ordered.sublist Ledger.acceptedCalls_sublist).sublist ?_
    rw [he.conserved, List.map_append]
    exact List.sublist_append_left _ _
  barrier done hd pre post hs x hx := by
    have ⟨pre', post', hs', hp⟩ := he.acked done hd
    rw [Ledger.pre_unique hn.nodup rfl hs' hs] at hx
    exact hp.subset hx
  drains := exists_drain hi he

variable {es : List (Event ι ω)}

theorem run_delivers (h : run step init es = some s) (hc : Along step Timely init es) :
    s.Delivers := by
  have ⟨hi, hn, he⟩ : s.Inv ∧ s.Numbered ∧ s.current.Exact s.ledger :=
    Run.invariant_along (I := fun s => s.Inv ∧ s.Numbered ∧ s.current.Exact s.ledger)
      (fun hi hc hs => ⟨hi.left.step hs, hi.right.left.step hi.left hs,
        exact_step hi.right.right hi.left hc hs⟩)
      ⟨init_inv, init_numbered, init_exact⟩ hc h
  exact delivers hi hn he

-- A thread enqueues an operation and another one waits for it. The queue is shut down and restarted
-- for a second operation.
def restarted : List (Event (Fin 2) Nat) :=
  [[.enqueue 0 ⟨7, 0⟩], .replicate 8 (.advance 0 false), [.flush 1],
    .replicate 2 (.advance 1 false), .replicate 8 (.drain 0 false), [.advance 1 false, .shutdown 1],
    .replicate 3 (.advance 1 false), .replicate 6 (.drain 0 false), .replicate 4 (.advance 1 false),
    .replicate 7 (.drain 0 false), [.advance 1 false, .enqueue 0 ⟨8, 0⟩],
    .replicate 8 (.advance 0 false), .replicate 6 (.drain 1 false)].flatten

theorem exists_run_restarted : ∃ s : System (Fin 2) Nat, run step init restarted = some s ∧
    s.ledger.executedOps.map Envelope.op = [7, 8] := by
  have he : (run step (init : System (Fin 2) Nat) restarted).map
      (fun s => s.ledger.executedOps.map Envelope.op) = some [7, 8] := by
    decide +kernel
  exact Option.map_eq_some_iff.mp he

theorem run_delivers_restarted : ∃ s : System (Fin 2) Nat, run step init restarted = some s ∧
    s.ledger.executedOps.map Envelope.op = [7, 8] ∧ s.Delivers := by
  have ⟨s, hs, he⟩ := exists_run_restarted
  exact ⟨s, hs, he, run_delivers hs (by decide +kernel)⟩

-- Whatever is executed has been accepted in the same order.
theorem run_ordered (h : run step init es = some s) :
    s.ledger.executedOps.Sublist s.ledger.accepted := by
  have hi : s.Inv ∧ s.current.Ordered s.ledger :=
    Run.invariant (I := fun s => s.Inv ∧ s.current.Ordered s.ledger)
      (fun hi hs => ⟨hi.left.step hs, ordered_step hi.right hi.left hs⟩)
      ⟨init_inv, List.Sublist.refl _⟩ h
  exact (List.sublist_append_left _ _).trans hi.right

theorem run_ordered_restarted : ∃ s : System (Fin 2) Nat, run step init restarted = some s ∧
    s.ledger.executedOps.map Envelope.op = [7, 8] ∧
    s.ledger.executedOps.Sublist s.ledger.accepted := by
  have ⟨s, hs, he⟩ := exists_run_restarted
  exact ⟨s, hs, he, run_ordered hs⟩

-- A thread has cloned the sender when the queue is shut down. It sends its operation after the
-- drain thread has found the channel empty, and the receiver is dropped with it.
def sentLate : List (Event (Fin 2) Nat) :=
  [[.enqueue 0 ⟨7, 0⟩], .replicate 6 (.advance 0 false), [.shutdown 1],
    .replicate 3 (.advance 1 false), .replicate 6 (.drain 0 false), .replicate 2 (.advance 1 false),
    .replicate 6 (.drain 0 false), .replicate 2 (.advance 0 false), [.drain 0 false]].flatten

theorem not_delivers_sentLate : ∃ s : System (Fin 2) Nat,
    run step init sentLate = some s ∧ s.results 0 1 = some .enqueued ∧ ¬s.Delivers := by
  have ⟨s, hs⟩ : ∃ s : System (Fin 2) Nat, run step init sentLate = some s :=
    Option.isSome_iff_exists.mp (by decide +kernel)
  have he : (run step (init : System (Fin 2) Nat) sentLate).map
      (fun s => (s.results 0 1, (s.ledger.executedOps ++ s.current.pending).map Envelope.call)) =
        some (some .enqueued, []) := by
    decide +kernel
  rw [hs] at he
  have ⟨hr, hp⟩ := Prod.mk.inj (Option.some.inj he)
  refine ⟨s, hs, hr, fun h => ?_⟩
  have ho := h.once 0 1 hr
  rw [hp] at ho
  cases ho

theorem run_gauged (h : run step init es = some s)
    (hc : Along step (fun s e => s.Timely e ∧ s.Counted e) init es) : s.Gauged := by
  have hstep {s s' : System ι ω} {e : Event ι ω} (hi : s.Inv ∧ ∃ threads, s.Recorders threads)
      (hc : s.Timely e ∧ s.Counted e) (hs : s.step e = some s') :
      s'.Inv ∧ ∃ threads, s'.Recorders threads := by
    have ⟨hi, threads, hr⟩ := hi
    exact ⟨hi.step hs, hr.step hi hc.left hc.right hs⟩
  have ⟨_, threads, hr⟩ := Run.invariant_along hstep ⟨init_inv, ∅, init_recorders⟩ hc h
  exact hr.gauged

theorem run_gauged_restarted : ∃ s : System (Fin 2) Nat, run step init restarted = some s ∧
    s.ledger.opDepth = 0 ∧ s.Gauged := by
  have ⟨s, hs⟩ : ∃ s : System (Fin 2) Nat, run step init restarted = some s :=
    Option.isSome_iff_exists.mp (by decide +kernel)
  have he : (run step (init : System (Fin 2) Nat) restarted).map (fun s => s.ledger.opDepth) =
      some 0 := by
    decide +kernel
  rw [hs] at he
  exact ⟨s, hs, Option.some.inj he, run_gauged hs (by decide +kernel)⟩

-- An operation is drained before the thread that has sent it counts it.
def countedLate : List (Event (Fin 1) Nat) :=
  [[.enqueue 0 ⟨7, 0⟩], .replicate 7 (.advance 0 false), .replicate 6 (.drain 0 false),
    [.advance 0 false]].flatten

theorem not_gauged_countedLate : ∃ s : System (Fin 1) Nat,
    run step init countedLate = some s ∧ ¬s.Gauged := by
  have ⟨s, hs⟩ : ∃ s : System (Fin 1) Nat, run step init countedLate = some s :=
    Option.isSome_iff_exists.mp (by decide +kernel)
  have he : (run step (init : System (Fin 1) Nat) countedLate).map (fun s =>
      ((s.threads 0).isRecord, s.current.drain.uncounted.map Envelope.op, s.ledger.opDepth,
        s.current.ops.length)) = some (false, [], 1, 0) := by
    decide +kernel
  rw [hs] at he
  simp only [Option.map_some, Option.some.injEq, Prod.mk.injEq, List.map_eq_nil_iff] at he
  have ⟨hr, hu, hd, ho⟩ := he
  refine ⟨s, hs, fun h => ?_⟩
  have hg := h (fun i => by rw [Subsingleton.elim i 0, hr]) hu
  rw [hd, ho] at hg
  cases hg

end System
end WriteBehind
