import AgentMail.Updater.Theorems.Basic
import AgentMail.Updater.Theorems.Order

namespace Updater

variable {ι : Type} [DecidableEq ι] {s s' : State ι} {t : ι} {flush : Flush}
  {events : List (Event ι)} {index : Index}

theorem run_cons {e : Event ι} {t : State ι} (h : step s e = some t)
    (hr : run step t events = some s') : run step s (e :: events) = some s' := by
  rw [run, h]
  exact hr

-- A flush that no other one disturbs applies all that is pending.
theorem run_flush (hg : s.flushes.get? t = none) (hq : s.pending.changes ≠ []) :
    ∃ s', run step s [.drain t, .update t (some s.pending.changes.length)] = some s' ∧
      s'.applied = s.applied ++ s.pending.changes ∧ ∀ u, u ≠ t →
        s'.flushes.get? u = s.flushes.get? u := by
  have hd : step s (.drain t) = some (s.drain t) := by rw [step, hg]
  have hs : s.drain t =
      { s with pending.retryPending := false, pending.changes := [] }.enter t
        (.update s.pending.changes) :=
    if_neg (by simpa using hq)
  have hu : step (s.drain t) (.update t (some s.pending.changes.length)) =
      some ((s.drain t).update t s.pending.changes (some s.pending.changes.length)) := by
    rw [step, hs, State.get?_enter]
  refine ⟨_, run_cons hd (run_cons hu rfl), ?_, fun u hne => ?_⟩
  · rw [State.update, hs, Nat.min_self, List.take_length]
    rfl
  · rw [State.update, State.get?_enter_of_ne hne, hs]
    exact State.get?_enter_of_ne hne

-- Every change that a running flush holds can be applied.
theorem exists_run_applied {a : Entry} (hg : s.flushes.get? t = some (t, flush))
    (ha : a ∈ flush.held) :
    ∃ events s' applied, run step s events = some s' ∧ s'.applied = s.applied ++ applied ∧
      a ∈ applied := by
  cases flush
  case update batch =>
    have hu : step s (.update t (some batch.length)) =
        some (s.update t batch (some batch.length)) := by rw [step, hg]
    refine ⟨[.update t (some batch.length)], s.update t batch (some batch.length), batch,
      run_cons hu rfl, ?_, ha⟩
    rw [State.update, Nat.min_self, List.take_length]
    rfl
  case restore batch =>
    have hp : step s (.putBack t) = some (s.restore t batch) := by rw [step, hg]
    have hn : (s.restore t batch).flushes.get? t = none := Table.get?_delete_self
    have hmem : a ∈ (s.restore t batch).pending.changes := List.mem_append_left _ ha
    obtain ⟨s', hr, happ, _⟩ := run_flush hn (List.ne_nil_of_mem hmem)
    exact ⟨_, s', _, run_cons hp hr, happ, hmem⟩
  case retain batch n =>
    have hp : step s (.putBack t) = some (s.retain t batch n) := by rw [step, hg]
    have hf : step (s.retain t batch n) (.finish t) = some ((s.retain t batch n).finish t n) := by
      rw [step, State.retain, State.get?_enter]
    have hn : ((s.retain t batch n).finish t n).flushes.get? t = none := Table.get?_delete_self
    have hmem : a ∈ ((s.retain t batch n).finish t n).pending.changes := List.mem_append_left _ ha
    obtain ⟨s', hr, happ, _⟩ := run_flush hn (List.ne_nil_of_mem hmem)
    exact ⟨_, s', _, run_cons hp (run_cons hf hr), happ, hmem⟩
  case finish => contradiction

theorem exists_run_append {es es' : List (Event ι)} {u : State ι} (h : run step s es = some u)
    (h' : run step u es' = some s') : run step s (es ++ es') = some s' := by
  induction es generalizing s
  case nil =>
    cases h
    exact h'
  case cons e es hi =>
    have ⟨v, hv, h⟩ := Option.bind_eq_some_iff.mp h
    exact run_cons hv (hi h)

-- A flush that drains a newer change of a document than another flush holds can apply it first.
theorem exists_run_not_inOrder (ho : s.Ordered) (hg : s.flushes.get? t = none) (hn : ¬s.Apart) :
    ∃ events s', run step s (.drain t :: events) = some s' ∧ ¬s'.InOrder := by
  have ⟨b, hb, a, ha, hk⟩ : ∃ b ∈ s.pending.changes, ∃ a ∈ s.held, b.key = a.key := by
    by_contra hno
    exact hn fun b hb a ha hk => hno ⟨b, hb, a, ha, hk⟩
  have ⟨⟨u, flush⟩, hu, hheld⟩ := List.mem_flatMap.mp ha
  have hgu := Table.get?_key hu
  have hne : u ≠ t := by
    intro h
    rw [h, hg] at hgu
    contradiction
  have ⟨v, hv, happ, hother⟩ := run_flush hg (List.ne_nil_of_mem hb)
  have ⟨events, s', applied, hr, happ', hmem⟩ := exists_run_applied ((hother u hne).trans hgu) hheld
  refine ⟨_, s', exists_run_append hv hr, fun h => ?_⟩
  have hp := h b.key
  rw [happ', happ, List.filter_append, List.filter_append] at hp
  have hlt : b.seq < a.seq := by
    refine (List.pairwise_append.mp hp).right.right b ?_ a ?_
    · simp [hb]
    · simp [hmem, hk]
  exact absurd hlt (Nat.not_lt_of_lt (ho.lt_of_held ha hb hk.symm))

theorem conserved_of_run {threshold : Nat} (h : run step (.new threshold index) events = some s) :
    s.Conserved := by
  have hi : s.Numbered ∧ s.ledger.Perm s.accepted := by
    refine Run.invariant (I := fun s => s.Numbered ∧
      s.ledger.Perm s.accepted) (fun hi hs => ?_) ?_ h
    · have hm := moves_of_step hs
      exact ⟨hi.left.moves hm, State.ledger_perm_of_moves hi.right hm⟩
    · exact ⟨rfl, .refl _⟩
  exact ⟨hi.right, hi.left.nodup⟩

theorem ordered_of_run {threshold : Nat} (h : run step (.new threshold index) events = some s)
    (hc : Along step Meets (.new threshold index) events) :
    s.Ordered ∧ s.index = index.applyAll (s.applied.map Entry.change) := by
  refine Run.invariant_along (I := fun s => s.Ordered ∧
    s.index = index.applyAll (s.applied.map Entry.change)) (fun hi hc hs => ?_) ?_ hc h
  · have hm := moves_of_step hs
    exact ⟨hi.left.moves hm hc, index_of_moves hi.right hm⟩
  · exact ⟨⟨rfl, fun _ => rfl, nofun⟩, rfl⟩

theorem flush_exact (threshold : Nat) (index : Index) (events : List (Event ι)) (s : State ι)
    (h : run step (.new threshold index) events = some s) :
    s.Conserved ∧
    (Along step Meets (.new threshold index) events →
      s.InOrder ∧ (s.pending.changes = [] → s.flushes.rows = [] → s.Settled index) ∧
      ∀ t, s.flushes.get? t = none → ¬Meets s (.drain t) →
        ∃ events' s', run step s (.drain t :: events') = some s' ∧ ¬s'.InOrder) ∧
    ∀ (index' : Index) (batch : List DocChange),
      index'.applyAll (deduplicateChanges batch) = index'.applyAll batch := by
  refine ⟨conserved_of_run h, fun hc => ?_, applyAll_deduplicateChanges⟩
  have ⟨ho, hi⟩ := ordered_of_run h hc
  exact ⟨ho.inOrder, fun hq hf => settled_of_ordered hi ho hq hf,
    fun _ hg hn => exists_run_not_inOrder ho hg hn⟩

section Sample

def sampleDoc : Document where
  id        := 1
  kind      := .message
  body      := "body".toList
  title     := "title".toList
  projectId := none
  createdTs := 0
  metadata  := []

def otherDoc : Document :=
  { sampleDoc with id := 2 }

-- Two flushes hold changes of different documents. The backend applies a part of one batch and
-- nothing of the other, and both threads put back what is left.
def putBackRun : List (Event Bool) :=
  [
    .enqueue (.upsert sampleDoc), .enqueue (.delete 1 .message), .drain true,
    .enqueue (.upsert otherDoc), .drain false,
    .update true (some 1), .putBack true, .update false none, .putBack false, .finish true,
    .drain true, .update true (some 2), .finish true
  ]

-- The flush holds an upsert of a document while its deletion is pending.
def heldRun : List (Event Bool) :=
  [.enqueue (.upsert sampleDoc), .drain true, .enqueue (.delete 1 .message)]

theorem flush_exact_putBack :
    (∃ s, run step (State.new 1000 fun _ => none) putBackRun = some s ∧ s.Conserved ∧ s.InOrder ∧
      s.applied.map (·.seq) = [0, 2, 1] ∧ s.Settled fun _ => none) ∧
    ∃ s, run step (State.new 1000 fun _ => none) heldRun = some s ∧
      ∃ events s', run step s (.drain false :: events) = some s' ∧ ¬s'.InOrder := by
  constructor
  · have ⟨hc, hm, _⟩ := flush_exact 1000 (fun _ => none) putBackRun _ rfl
    have ⟨ho, hs, _⟩ := hm (by decide)
    exact ⟨_, rfl, hc, ho, rfl, hs rfl rfl⟩
  · have ⟨_, hm, _⟩ := flush_exact 1000 (fun _ => none) heldRun _ rfl
    exact ⟨_, rfl, (hm (by decide)).right.right false rfl (by decide)⟩

-- The second flush applies the deletion while the first one holds the upsert.
def overlappingRun : List (Event Bool) :=
  [
    .enqueue (.upsert sampleDoc), .drain true, .enqueue (.delete 1 .message), .drain false,
    .update false (some 1), .finish false, .update true (some 1), .finish true
  ]

theorem not_settled_overlap :
    ∃ s, run step (State.new 1000 fun _ => none) overlappingRun = some s ∧ s.pending.changes = [] ∧
      s.flushes.rows = [] ∧ ¬s.InOrder ∧ ¬s.Settled fun _ => none := by
  refine ⟨_, rfl, rfl, rfl, fun h => ?_, fun h => ?_⟩
  · exact absurd (h (.message, 1)) (by decide)
  · have h : some sampleDoc = none := h (.message, 1)
    contradiction

end Sample

end Updater
