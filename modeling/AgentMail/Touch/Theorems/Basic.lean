import AgentMail.Touch.Basic

namespace Touch

variable {scope shard : Nat} {db db' db'' : Key → Option Int} {key : Key} {ts : Int}

-- The rows stay the same, and their timestamps do not decrease.
def Grows (db db' : Key → Option Int) : Prop :=
  ∃ f : Key → Int → Int, (∀ key x, x ≤ f key x) ∧ ∀ key, db' key = (db key).map (f key)

namespace Grows

theorem refl (db : Key → Option Int) : Grows db db :=
  ⟨fun _ => id, fun _ _ => Int.le_refl _, fun _ => Option.map_id_apply.symm⟩

theorem trans (h : Grows db db') (h' : Grows db' db'') : Grows db db'' := by
  have ⟨f, hf, he⟩ := h
  have ⟨f', hf', he'⟩ := h'
  refine ⟨fun key => f' key ∘ f key, fun key x => Int.le_trans (hf key x) (hf' key _),
    fun key => ?_⟩
  rw [he', he, Option.map_map]

theorem le (h : Grows db db') (hk : ∀ x, db key = some x → ts ≤ x) : ∀ x, db' key = some x →
    ts ≤ x := by
  have ⟨f, hf, he⟩ := h
  intro x hx
  rw [he] at hx
  have ⟨y, hy, hxy⟩ := Option.map_eq_some_iff.mp hx
  exact Int.le_trans (hk y hy) (hxy ▸ hf key y)

theorem exists_le (h : Grows db db') {x : Int} (hx : db key = some x) :
    ∃ x', db' key = some x' ∧ x ≤ x' := by
  have ⟨f, hf, he⟩ := h
  exact ⟨f key x, by rw [he, hx, Option.map_some], hf key x⟩

end Grows

theorem updateChunk_grows (scope : Nat) (db : Key → Option Int) (chunk : List (Int × Int)) :
    Grows db (updateChunk scope db chunk) := by
  refine ⟨_, fun key x => ?_, fun key => rfl⟩
  split
  case h_1 => exact Int.le_max_left ..
  case h_2 => exact Int.le_refl x

theorem le_updateChunk {chunk : List (Int × Int)} (hn : (chunk.map Prod.fst).Nodup) {e : Int × Int}
    (he : e ∈ chunk) : ∀ x, updateChunk scope db chunk (scope, e.1) = some x → e.2 ≤ x := by
  intro x hx
  have hf : chunk.find? (·.1 = e.1) = some e :=
    Table.get?_key (t := (⟨chunk, hn⟩ : MaxMap Int)) he
  have ⟨y, _, hxy⟩ := Option.map_eq_some_iff.mp hx
  simp only [if_true, hf] at hxy
  exact hxy ▸ Int.le_max_right ..

theorem foldl_updateChunk_grows (scope : Nat) (chunks : List (List (Int × Int)))
    (db : Key → Option Int) : Grows db (chunks.foldl (updateChunk scope) db) := by
  induction chunks generalizing db
  case nil => exact .refl db
  case cons chunk chunks hi => exact (updateChunk_grows scope db chunk).trans (hi _)

theorem le_foldl_updateChunk {chunks : List (List (Int × Int))}
    (hn : (chunks.flatten.map Prod.fst).Nodup) {e : Int × Int} (he : e ∈ chunks.flatten) :
    ∀ x, chunks.foldl (updateChunk scope) db (scope, e.1) = some x → e.2 ≤ x := by
  induction chunks generalizing db
  case nil => cases he
  case cons chunk chunks hi =>
    rw [List.flatten_cons, List.map_append] at hn
    rw [List.flatten_cons] at he
    cases List.mem_append.mp he
    case inl he =>
      exact (foldl_updateChunk_grows scope chunks _).le
        (le_updateChunk (List.nodup_append.mp hn).left he)
    case inr he => exact hi (List.nodup_append.mp hn).right.left he

theorem updateAgents_grows (scope : Nat) (entries : List (Int × Int)) (db : Key → Option Int) :
    Grows db (updateAgents scope entries db) :=
  foldl_updateChunk_grows scope _ db

theorem le_updateAgents {entries : List (Int × Int)} (hn : (entries.map Prod.fst).Nodup)
    {e : Int × Int} (he : e ∈ entries) :
    ∀ x, updateAgents scope entries db (scope, e.1) = some x → e.2 ≤ x := by
  have hf : (chunks 400 entries).flatten = entries := flatten_chunks (by decide) entries
  exact le_foldl_updateChunk (hf.symm ▸ hn) (hf.symm ▸ he)

-- The thread makes sure that the flag is set while the shard has entries.
def Phase.Covers : Phase → Nat → Prop
  | .signal _ _, _               => True
  | .scan _ shard _ remaining, j => shard ≤ j ∨ remaining
  | .restore _ _ remaining, _    => remaining
  | _, _                         => False

namespace System

section

variable {merged : MaxMap Int} {entries : List (Key × Int)}

theorem foldl_keep_atLeast {agentId : Int} (h : merged.AtLeast agentId ts) :
    (entries.foldl (fun m e => m.keep e.1.2 e.2) merged).AtLeast agentId ts := by
  induction entries generalizing merged
  case nil => exact h
  case cons e entries hi => exact hi (h.keep e.1.2 e.2)

theorem atLeast_foldl_keep {e : Key × Int} (he : e ∈ entries) :
    (entries.foldl (fun m e => m.keep e.1.2 e.2) merged).AtLeast e.1.2 e.2 := by
  induction entries generalizing merged
  case nil => cases he
  case cons e' entries hi =>
    cases List.mem_cons.mp he
    case inl he =>
      have h : (merged.keep e'.1.2 e'.2).AtLeast e.1.2 e.2 := he ▸ MaxMap.atLeast_keep ..
      rw [List.foldl_cons]
      exact foldl_keep_atLeast h
    case inr he => exact hi he

-- What is taken out of a shard is merged.
theorem atLeast_merge {shard : MaxMap Key} (h : shard.AtLeast key ts) :
    (merge key.1 shard merged).AtLeast key.2 ts := by
  have ⟨e, he, hk, hv⟩ := h
  have hm : e ∈ shard.rows.filter (·.1.1 = key.1) := by simpa [hk] using he
  have ⟨e', he', hk', hv'⟩ : (merge key.1 shard merged).AtLeast e.1.2 e.2 := atLeast_foldl_keep hm
  exact ⟨e', he', hk ▸ hk', Int.le_trans hv hv'⟩

theorem merge_atLeast {shard : MaxMap Key} {agentId : Int} (h : merged.AtLeast agentId ts) :
    (merge scope shard merged).AtLeast agentId ts :=
  foldl_keep_atLeast h

end

variable {ι : Type} {s s' : System ι} {i : ι} {e : Event ι} {phase phase' : Phase}

def Covered (s : System ι) (j : Nat) : Prop :=
  s.hasPending ∨ ∃ i, (s.threads i).Covers j

def AllCovered (s : System ι) : Prop :=
  ∀ j < numTouchShards, (s.shards j).rows ≠ [] → s.Covered j

theorem Kept.insert {key' : Key} {ts' : Int} (h : s.Kept key ts) :
    (s.insert key' ts').Kept key ts := by
  refine h.imp_right (.imp_left fun hq => ?_)
  by_cases hs : shardIndex key = shardIndex key'
  case pos => simpa [System.insert, hs] using MaxMap.AtLeast.keep (hs ▸ hq) key' ts'
  case neg => simpa [System.insert, hs] using hq

theorem atLeast_insert {ts' : Int} (h : ts ≤ ts') :
    ((s.insert key ts').shards (shardIndex key)).AtLeast key ts := by
  have ⟨e, he, hk, hv⟩ := (s.shards (shardIndex key)).atLeast_keep key ts'
  exact ⟨e, by simpa [System.insert] using he, hk, Int.le_trans h hv⟩

theorem mem_held_of_atLeast {merged : MaxMap Int} (h : merged.AtLeast key.2 ts) :
    ∃ e ∈ merged.rows.map fun e => (((key.1, e.1), e.2) : Key × Int), e.1 = key ∧ ts ≤ e.2 := by
  have ⟨e, he, hk, hv⟩ := h
  exact ⟨_, List.mem_map_of_mem he, by rw [hk], hv⟩

-- A timestamp is still kept after a step of a thread if the entries of this thread and of the queue
-- are.
theorem Kept.of_step (h : s.Kept key ts) (ht : ∀ j, j ≠ i → s'.threads j = s.threads j)
    (hp : s.threads i = phase) (hdb : Grows s.db s'.db)
    (hq : (s.shards (shardIndex key)).AtLeast key ts → s'.Kept key ts)
    (hh : ∀ e ∈ phase.held, e.1 = key → ts ≤ e.2 → s'.Kept key ts) : s'.Kept key ts := by
  cases h
  case inl h => exact .inl (hdb.le h)
  case inr h =>
    cases h
    case inl h => exact hq h
    case inr h =>
      have ⟨j, e, he, hk, hv⟩ := h
      by_cases hj : j = i
      case pos =>
        subst hj
        exact hh e (hp ▸ he) hk hv
      case neg => exact .inr (.inr ⟨j, e, (ht j hj).symm ▸ he, hk, hv⟩)

theorem rows_ne_nil_of_take {j : Nat} (h : ((s.take scope shard).shards j).rows ≠ []) :
    (s.shards j).rows ≠ [] := by
  intro hn
  apply h
  by_cases hj : j = shard
  case pos => simp [System.take, Table.delete, hj ▸ hn, hj]
  case neg => simpa [System.take, hj] using hn

-- A shard that has been scanned is remembered if there are entries left in it.
theorem covers_scan {merged : MaxMap Int} {remaining left : Bool} {j : Nat}
    (hj : j < numTouchShards) (h : shard ≤ j ∨ remaining) (hl : j = shard → left) :
    (if shard + 1 < numTouchShards then Phase.scan scope (shard + 1) merged (remaining || left)
      else .restore scope merged (remaining || left)).Covers j := by
  cases h
  case inr h => split <;> simp [Phase.Covers, h]
  case inl h =>
    by_cases hjs : j = shard
    case pos => split <;> simp [Phase.Covers, hl hjs]
    case neg =>
      have hlt : shard + 1 ≤ j := Nat.lt_of_le_of_ne h (Ne.symm hjs)
      rw [if_pos (Nat.lt_of_le_of_lt hlt hj)]
      exact .inl hlt

variable [DecidableEq ι]

theorem threads_goto (s : System ι) (phase : Phase) :
    ∀ j, j ≠ i → (s.goto i phase).threads j = s.threads j :=
  fun _ hj => Function.update_of_ne hj _ _

theorem threads_goto_self (s : System ι) (i : ι) (phase : Phase) :
    (s.goto i phase).threads i = phase :=
  Function.update_self ..

theorem Kept.of_held {e : Key × Int} (he : e ∈ phase.held) (hk : e.1 = key) (hv : ts ≤ e.2) :
    (s.goto i phase).Kept key ts :=
  .inr (.inr ⟨i, e, (threads_goto_self s i phase).symm ▸ he, hk, hv⟩)

-- The thread only changes its phase, and it holds on to its entries.
theorem Kept.goto (h : s.Kept key ts) (hp : s.threads i = phase) (hh : phase.held ⊆ phase'.held) :
    (s.goto i phase').Kept key ts :=
  h.of_step (threads_goto s phase') hp (.refl _) (fun hq => .inr (.inl hq)) fun _ he =>
    .of_held (hh he)

-- A shard is scanned: its entries are merged, unless they belong to another database.
theorem Kept.scan {merged : MaxMap Int} {remaining : Bool} (h : s.Kept key ts)
    (ht : s.threads i = .scan scope shard merged remaining)
    (hp : phase.held = (merge scope (s.shards shard) merged).rows.map fun e =>
      ((scope, e.1), e.2)) :
    ((s.take scope shard).goto i phase).Kept key ts := by
  refine h.of_step (threads_goto (s.take scope shard) phase) ht (.refl _) (fun hq => ?_)
    fun e he hk hv => ?_
  · by_cases hs : shardIndex key = shard ∧ key.1 = scope
    case pos =>
      obtain ⟨hshard, hscope⟩ := hs
      subst hshard hscope
      have hm : (merge key.1 (s.shards (shardIndex key)) merged).AtLeast key.2 ts :=
        atLeast_merge hq
      obtain ⟨e, he, hk, hv⟩ := mem_held_of_atLeast hm
      exact .of_held (hp.symm ▸ he) hk hv
    case neg =>
      refine .inr (.inl ?_)
      by_cases hshard : shardIndex key = shard
      case neg => simpa [System.take, System.goto, hshard] using hq
      case pos =>
        subst hshard
        obtain ⟨e, he, hk, hv⟩ := hq
        have hne : e.1.1 ≠ scope := fun hc => hs ⟨rfl, hk ▸ hc⟩
        refine ⟨e, ?_, hk, hv⟩
        simpa [System.take, System.goto, Table.delete, hne] using he
  · obtain ⟨a, ha, hae⟩ := List.mem_map.mp he
    subst hae hk
    have hm : (merge scope (s.shards shard) merged).AtLeast ((scope, a.1) : Key).2 ts :=
      merge_atLeast ⟨a, ha, rfl, hv⟩
    obtain ⟨e, he, hk, hv⟩ := mem_held_of_atLeast hm
    exact .of_held (hp.symm ▸ he) hk hv

theorem Kept.requeue {a : Int × Int} {todo : List (Int × Int)} (h : s.Kept key ts)
    (hp : s.threads i = .requeue scope (a :: todo)) :
    ((s.insert (scope, a.1) a.2).goto i (.signal scope todo)).Kept key ts := by
  have hi : (s.insert (scope, a.1) a.2).Kept key ts := h.insert
  refine hi.of_step (threads_goto _ _) hp (.refl _) (fun hq => .inr (.inl hq)) fun e he hk hv => ?_
  cases List.mem_cons.mp he
  case inl he =>
    subst he hk
    exact .inr (.inl (atLeast_insert hv))
  case inr he => exact .of_held he hk hv

theorem Kept.commit {merged : MaxMap Int} (h : s.Kept key ts)
    (hp : s.threads i = .write scope merged) :
    ({ s with db := updateAgents scope merged.rows s.db }.goto i .idle).Kept key ts := by
  refine h.of_step (threads_goto _ _) hp (updateAgents_grows scope _ _) (fun hq => .inr (.inl hq))
    fun e he hk _ => .inl ?_
  have ⟨a, ha, hae⟩ := List.mem_map.mp he
  subst hae hk
  exact fun x hx => Int.le_trans ‹_› (le_updateAgents merged.nodup ha x hx)

theorem Kept.advance (h : s.Kept key ts) (hp : s.threads i = phase)
    (hs : s.advance i phase = some s') : s'.Kept key ts := by
  cases phase
  case idle    => cases hs
  case enqueue =>
    cases hs
    exact Kept.goto (h.insert) hp (List.nil_subset _)
  case signal  =>
    cases hs
    exact Kept.goto h hp (List.Subset.refl _)
  case flush   =>
    cases hs
    exact h.goto hp (List.nil_subset _)
  case clear   =>
    cases hs
    exact Kept.goto h hp (List.nil_subset _)
  case scan    =>
    cases hs
    refine h.scan hp ?_
    split <;> rfl
  case restore =>
    cases hs
    refine Kept.goto h hp ?_
    split
    case isTrue hm  => simp [Phase.held, List.isEmpty_iff.mp hm]
    case isFalse    => exact List.Subset.refl _
  case write   => cases hs
  case requeue scope todo =>
    cases todo
    case nil =>
      cases hs
      exact h.goto hp (List.nil_subset _)
    case cons =>
      cases hs
      exact h.requeue hp

-- An event lets a thread take its next step, or it begins a call, or it ends a flush.
theorem step_cases (h : s.step e = some s') :
    (∃ i, s.advance i (s.threads i) = some s') ∨
    (∃ i phase, s.threads i = .idle ∧ s' = s.goto i phase) ∨
    (∃ i scope merged, s.threads i = .write scope merged ∧
      (s' = { s with db := updateAgents scope merged.rows s.db }.goto i .idle ∨
        s' = s.goto i (.requeue scope merged.rows))) := by
  cases e <;> simp only [System.step] at h
  case advance i => exact .inl ⟨i, h⟩
  case commit i =>
    split at h <;> cases h
    case h_1 hp => exact .inr (.inr ⟨i, _, _, hp, .inl rfl⟩)
  case fail i =>
    split at h <;> cases h
    case h_1 hp => exact .inr (.inr ⟨i, _, _, hp, .inr rfl⟩)
  all_goals
    split at h <;> cases h
    case h_1 hp => exact .inr (.inl ⟨_, _, hp, rfl⟩)

theorem Kept.step (h : s.Kept key ts) (hs : s.step e = some s') : s'.Kept key ts := by
  obtain ⟨i, hs⟩ | ⟨i, phase, hp, rfl⟩ | ⟨i, scope, merged, hp, rfl | rfl⟩ := step_cases hs
  · exact h.advance rfl hs
  · exact h.goto hp (List.nil_subset _)
  · exact h.commit hp
  · exact h.goto hp (List.Subset.refl _)

theorem grows_step (hs : s.step e = some s') : Grows s.db s'.db := by
  obtain ⟨i, hs⟩ | ⟨i, phase, hp, rfl⟩ | ⟨i, scope, merged, hp, rfl | rfl⟩ := step_cases hs
  · have hdb : s'.db = s.db := by
      unfold System.advance at hs
      split at hs <;> cases hs <;> rfl
    exact hdb ▸ .refl _
  · exact .refl _
  · exact updateAgents_grows scope _ _
  · exact .refl _

-- What a step enqueues is in the queue afterwards.
theorem enqueued_step {x : Key × Int} (hs : s.step e = some s') (hx : x ∈ s'.enqueued) :
    x ∈ s.enqueued ∨ s'.Kept x.1 x.2 := by
  obtain ⟨i, hs⟩ | ⟨i, phase, hp, rfl⟩ | ⟨i, scope, merged, hp, rfl | rfl⟩ := step_cases hs
  · unfold System.advance at hs
    split at hs <;> cases hs
    case h_2 =>
      cases List.mem_append.mp hx
      case inl hx => exact .inl hx
      case inr hx =>
        cases List.mem_singleton.mp hx
        exact .inr (.inr (.inl (atLeast_insert (Int.le_refl _))))
    all_goals exact .inl hx
  all_goals exact .inl hx

omit [DecidableEq ι] in
theorem Covered.of_step {j : Nat} (h : s.Covered j)
    (ht : ∀ k, k ≠ i → s'.threads k = s.threads k) (hp : s.threads i = phase)
    (hf : s.hasPending → s'.Covered j) (hc : phase.Covers j → s'.Covered j) : s'.Covered j := by
  cases h
  case inl h => exact hf h
  case inr h =>
    have ⟨k, hk⟩ := h
    by_cases hki : k = i
    case pos =>
      subst hki
      exact hc (hp ▸ hk)
    case neg => exact .inr ⟨k, (ht k hki).symm ▸ hk⟩

theorem Covered.of_covers {j : Nat} (h : phase.Covers j) : (s.goto i phase).Covered j :=
  .inr ⟨i, (threads_goto_self s i phase).symm ▸ h⟩

theorem Covered.goto {j : Nat} (h : s.Covered j) (hp : s.threads i = phase)
    (hc : phase.Covers j → phase'.Covers j) : (s.goto i phase').Covered j :=
  h.of_step (threads_goto s phase') hp .inl fun hj => .of_covers (hc hj)

theorem AllCovered.advance (h : s.AllCovered) (hp : s.threads i = phase)
    (hs : s.advance i phase = some s') : s'.AllCovered := by
  intro j hj hne
  cases phase
  case idle    => cases hs
  case enqueue =>
    cases hs
    exact .of_covers trivial
  case signal  =>
    cases hs
    exact .inl rfl
  case flush   =>
    cases hs
    exact (h j hj hne).goto hp nofun
  case clear   =>
    cases hs
    exact .of_covers (.inl (Nat.zero_le j))
  case scan =>
    cases hs
    refine (h j hj (rows_ne_nil_of_take hne)).of_step (threads_goto _ _) hp .inl fun hc =>
      .of_covers ?_
    exact covers_scan hj hc fun hjs => by simpa [hjs, System.goto] using hne
  case restore =>
    cases hs
    refine (h j hj hne).of_step (threads_goto _ _) hp (fun hf => .inl ?_) fun hc => .inl ?_
    · exact Bool.or_eq_true_iff.mpr (.inl hf)
    · exact Bool.or_eq_true_iff.mpr (.inr hc)
  case write   => cases hs
  case requeue scope todo =>
    cases todo
    case nil =>
      cases hs
      exact (h j hj hne).goto hp nofun
    case cons =>
      cases hs
      exact .of_covers trivial

theorem AllCovered.step (h : s.AllCovered) (hs : s.step e = some s') : s'.AllCovered := by
  obtain ⟨i, hs⟩ | ⟨i, phase, hp, rfl⟩ | ⟨i, scope, merged, hp, rfl | rfl⟩ := step_cases hs
  · exact h.advance rfl hs
  · exact fun j hj hne => (h j hj hne).goto hp nofun
  · exact fun j hj hne => Covered.goto (h j hj hne) hp nofun
  · exact fun j hj hne => (h j hj hne).goto hp nofun

omit [DecidableEq ι] in
theorem AllCovered.signalled (h : s.AllCovered) : s.Signalled := by
  intro hidle ⟨j, hj, hne⟩
  cases h j hj hne
  case inl h => exact h
  case inr h =>
    have ⟨i, hi⟩ := h
    rw [hidle i] at hi
    exact hi.elim

variable {es : List (Event ι)}

theorem run_grows (h : run step s es = some s') : Grows s.db s'.db :=
  Run.preserves (I := fun _ => True) (R := fun s s' => Grows s.db s'.db) (fun _ => .refl _) .trans
    (fun _ _ => trivial) (fun _ => grows_step) trivial h

theorem run_kept_signalled (h : run step (init db : System ι) es = some s) :
    (∀ x ∈ s.enqueued, s.Kept x.1 x.2) ∧ s.Signalled ∧
    ∀ es' s', run step s es' = some s' → ∀ key x, s.db key = some x →
      ∃ x', s'.db key = some x' ∧ x ≤ x' := by
  have hk : ∀ x ∈ s.enqueued, s.Kept x.1 x.2 := by
    refine Run.invariant (I := fun s => ∀ x ∈ s.enqueued, s.Kept x.1 x.2) (fun hi hs x hx => ?_)
      nofun h
    cases enqueued_step hs hx
    case inl hx => exact (hi x hx).step hs
    case inr hx => exact hx
  have hc : s.AllCovered := Run.invariant AllCovered.step (fun _ _ hne => absurd rfl hne) h
  exact ⟨hk, hc.signalled, fun es' s' h' key x => (run_grows h').exists_le⟩

-- A flush fails, and it enqueues what it has drained again, after a later timestamp.
def failedFlush : List (Event Bool) :=
  [.enqueue true 0 1 5, .advance true, .advance true, .advance true, .flush true 0] ++
  List.replicate 19 (.advance true) ++
  [.enqueue false 0 1 7, .advance false, .advance false, .advance false, .fail true,
    .advance true, .advance true]

theorem run_kept_signalled_failed :
    ∃ s, run step (init fun _ => some 3) failedFlush = some s ∧
      s.enqueued = [((0, 1), 5), ((0, 1), 7)] ∧
      (∀ x ∈ s.enqueued, s.Kept x.1 x.2) ∧ s.Signalled ∧
      ∀ es' s', run step s es' = some s' → ∀ key x, s.db key = some x →
        ∃ x', s'.db key = some x' ∧ x ≤ x' := by
  obtain ⟨s, hs⟩ : ∃ s, run step (init fun _ => some 3) failedFlush = some s :=
    Option.isSome_iff_exists.mp (by decide +kernel)
  have he : (run step (init fun _ => some 3) failedFlush).map (·.enqueued) =
      some [((0, 1), 5), ((0, 1), 7)] := by decide +kernel
  rw [hs] at he
  exact ⟨s, hs, Option.some.inj he, run_kept_signalled hs⟩

end System
end Touch
