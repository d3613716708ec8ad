import AgentMail.S3Fifo.Theorems.Invariant

open Function (update)
open Tombstone (Ok)

namespace S3Fifo.S3FifoCache

variable {κ υ : Type} [DecidableEq κ] {c : S3FifoCache κ υ} {mask : Option κ} {reserved : Set Nat}

-- All that happened to the index is that nodes of the given kind were dropped or, in Main only,
-- queued again with the value that they had before.
def Shrinks (kind : Kind) (index index' : κ → Option (Node υ)) : Prop :=
  ∀ k, index' k = index k ∨ ∃ n, index k = some n ∧ n.kind = kind ∧
    ∀ n', index' k = some n' →
      kind = .main ∧ n'.kind = .main ∧ n'.value? = n.value? ∧ n'.freq ≤ n.freq

namespace Shrinks

variable {kind : Kind} {index index' : κ → Option (Node υ)} {key : κ} {n : Node υ}

omit [DecidableEq κ] in
theorem refl (kind : Kind) (index : κ → Option (Node υ)) : Shrinks kind index index :=
  fun _ => .inl rfl

theorem cons {o : Option (Node υ)} (hk : index key = some n) (hn : n.kind = kind)
    (ho : ∀ n', o = some n' →
      kind = .main ∧ n'.kind = .main ∧ n'.value? = n.value? ∧ n'.freq ≤ n.freq)
    (h : Shrinks kind (update index key o) index') : Shrinks kind index index' := by
  intro k
  by_cases he : k = key
  case neg => simpa [he] using h k
  case pos =>
    subst he
    refine .inr ⟨n, hk, hn, fun n' hn' => ?_⟩
    cases h k
    case inl h => exact ho n' (by simpa [hn'] using h.symm)
    case inr h =>
      have ⟨n₁, h₁, _, h⟩ := h
      have ⟨_, _, hv, hf⟩ := ho n₁ (by simpa using h₁)
      have ⟨hm, hk', hv', hf'⟩ := h n' hn'
      exact ⟨hm, hk', hv'.trans hv, hf'.trans hf⟩

omit [DecidableEq κ] in
theorem stamp_eq {kind' : Kind} (h : Shrinks kind index index') (hk : kind ≠ kind') :
    stamp index' kind' = stamp index kind' := by
  ext1 k
  cases h k
  case inl h => simp [stamp, h]
  case inr h =>
    obtain ⟨n, hn, hn', h⟩ := h
    cases hi : index' k
    case none   => simp [stamp, hi, hn, hn', hk]
    case some m =>
      obtain ⟨hm, hm', _⟩ := h m hi
      subst hm
      simp [stamp, hi, hn, hn', hk, hm']

omit [DecidableEq κ] in
theorem freq_le {b : Nat} (h : Shrinks kind index index')
    (hb : ∀ k n, index k = some n → n.freq ≤ b) : ∀ k n, index' k = some n → n.freq ≤ b := by
  intro k m hm
  cases h k
  case inl h => exact hb k m (h ▸ hm)
  case inr h =>
    have ⟨n, hn, _, h⟩ := h
    exact (h m hm).right.right.right.trans (hb k n hn)

end Shrinks

omit [DecidableEq κ] in
theorem length_compact_le {kind : Kind} {cap : Nat} {q : List (κ × Nat)}
    (h : (q.filter fun e => stamp c.index kind e.1 = some e.2).length ≤ cap) :
    (c.compact kind cap q).length ≤ limit cap := by
  unfold compact limit
  split
  · omega
  · have : saturatingMul cap 4 ≤ cap * 4 := min_le_left _ _
    omega

-- The loop stops below capacity. A pending ghost hit has already made room, so that the uncounted
-- ghost is never looked at.
theorem evictGhostLoop_spec {q : List (κ × Nat)} (hp : 0 < c.ghostCapacity)
    (h : Ok (ghosts c.index mask) q (used c.seqGen reserved) c.ghostLiveCount)
    (hm : mask = none ∨ c.ghostLiveCount < c.ghostCapacity) :
    ∃ g index n,
      evictGhostLoop q c = some { c with ghost := g, index := index, ghostLiveCount := n } ∧
      Ok (ghosts index mask) g (used c.seqGen reserved) n ∧ n < c.ghostCapacity ∧
      g.length ≤ q.length ∧ Shrinks .ghost c.index index := by
  induction q generalizing c
  case nil =>
    have hn : c.ghostLiveCount = 0 := h.count.symm
    exact ⟨[], c.index, c.ghostLiveCount, rfl, h, hn ▸ hp, le_rfl, .refl _ _⟩
  case cons e rest hi =>
    simp only [evictGhostLoop]
    by_cases hf : c.ghostLiveCount ≥ c.ghostCapacity
    case neg =>
      refine ⟨e :: rest, c.index, c.ghostLiveCount, by simp [hf], h, ?_, le_rfl, .refl _ _⟩
      omega
    case pos =>
      have hm : mask = none := hm.resolve_right (by omega)
      subst hm
      by_cases hl : stamp c.index .ghost e.1 = some e.2
      case neg =>
        obtain ⟨g, index, n, he, ho, hn, hg, hs⟩ :=
          hi hp (h.pop_dead (by simpa using hl)) (.inl rfl)
        refine ⟨g, index, n, by simpa [hf, hl] using he, ho, hn, ?_, hs⟩
        exact hg.trans (Nat.le_succ _)
      case pos =>
        obtain ⟨m, hm, h'⟩ := h.pop_live (by simpa using hl)
        obtain ⟨n', hn', hk, _⟩ := stamp_eq_some_iff.mp hl
        let c₁ := { c with index := update c.index e.1 none, ghostLiveCount := m }
        obtain ⟨g, index, n, he, ho, hn, hg, hs⟩ := @hi c₁ hp (by simpa [c₁] using h') (.inl rfl)
        refine ⟨g, index, n, ?_, ho, hn, hg.trans (Nat.le_succ _), .cons hn' hk (by simp) hs⟩
        rw [if_pos hf, if_pos hl, hm]
        exact he

theorem evictGhostIfFull_spec (h : c.Inv mask reserved)
    (hm : mask = none ∨ c.ghostLiveCount < c.ghostCapacity) :
    ∃ g index n,
      c.evictGhostIfFull = some { c with ghost := g, index := index, ghostLiveCount := n } ∧
      Ok (ghosts index mask) g (used c.seqGen reserved) n ∧ n < c.ghostCapacity ∧
      g.length ≤ limit c.ghostCapacity ∧ Shrinks .ghost c.index index := by
  have hg : ∀ k s, ghosts c.index mask k = some s → stamp c.index .ghost k = some s := by
    intro k s hk
    by_cases hm : mask = some k <;> simp_all [ghosts]
  have hc : Ok (ghosts c.index mask) (c.compact .ghost c.ghostCapacity c.ghost)
      (used c.seqGen reserved) c.ghostLiveCount :=
    compact_ok h.ghost fun e _ => hg e.1 e.2
  obtain ⟨g, index, n, he, ho, hn, hl, hs⟩ := evictGhostLoop_spec h.ghost_pos hc hm
  refine ⟨g, index, n, he, ho, hn, hl.trans <| length_compact_le ?_, hs⟩
  cases mask
  case none =>
    have hl := h.ghost.count
    rw [ghosts_none] at hl
    exact hl.trans_le h.ghost_le
  case some key =>
    -- The uncounted ghost survives the compaction, if its entry is still queued.
    have hk : ∀ k ≠ key, stamp c.index .ghost k = ghosts c.index (some key) k := by
      intro k hk
      simp [ghosts, hk.symm]
    have hle := Tombstone.length_live_le h.ghost.nodup hk
    have hlt := hm.resolve_left (by simp)
    rw [h.ghost.count] at hle
    exact hle.trans hlt

-- How often the entries of Main can be popped: a live entry once more than its frequency, and a
-- tombstone once.
def pops (index : κ → Option (Node υ)) (q : List (κ × Nat)) : Nat :=
  q.map (fun e => if stamp index .main e.1 = some e.2 then (index e.1).elim 0 Node.freq + 1 else 1)
    |>.sum

omit [DecidableEq κ] in
theorem pops_le {index : κ → Option (Node υ)} (h : ∀ k n, index k = some n → n.freq ≤ 3)
    (q : List (κ × Nat)) : pops index q ≤ q.length * 4 := by
  induction q
  case nil => simp [pops]
  case cons e q hi =>
    have hf : (index e.1).elim 0 Node.freq ≤ 3 := by
      cases hn : index e.1
      case none   => simp
      case some n => exact h _ n hn
    simp only [pops, List.map_cons, List.sum_cons, List.length_cons] at hi ⊢
    split <;> omega

-- Changes to a key without live entries do not matter.
theorem pops_update {index : κ → Option (Node υ)} {key : κ} {o : Option (Node υ)}
    {q : List (κ × Nat)} (h : ∀ s, (key, s) ∈ q → stamp index .main key ≠ some s)
    (h' : ∀ s, (key, s) ∈ q → stamp (update index key o) .main key ≠ some s) :
    pops (update index key o) q = pops index q := by
  unfold pops
  congr 1
  apply List.map_congr_left
  intro e he
  by_cases hk : e.1 = key
  case neg =>
    have hs : stamp (update index key o) .main e.1 = stamp index .main e.1 := by simp [stamp, hk]
    simp only [hs, Function.update_of_ne hk]
  case pos =>
    subst hk
    rw [if_neg (h' e.2 he), if_neg (h e.2 he)]

section Main

variable {e : κ × Nat} {rest : List (κ × Nat)} {v : υ} {f budget live : Nat}

-- The three things that can happen to the entry that the loop pops.

theorem evictMainLoop_dead (hf : c.mainLiveCount ≥ c.mainCapacity) (hq : c.main = e :: rest)
    (hl : stamp c.index .main e.1 ≠ some e.2) :
    evictMainLoop (budget + 1) c = evictMainLoop budget { c with main := rest } := by
  simp only [evictMainLoop, if_pos hf, hq]
  split
  case h_1 v f s hv => exact if_neg fun hs => hl (by simp [stamp, hv, Node.kind, Node.seq, hs])
  case h_2 => rfl

theorem evictMainLoop_requeue (hf : c.mainLiveCount ≥ c.mainCapacity) (hq : c.main = e :: rest)
    (hv : c.index e.1 = some (.main v f e.2)) (hl : c.mainLiveCount = live + 1) (hz : f ≥ 1) :
    evictMainLoop (budget + 1) c =
      evictMainLoop budget { c with
        seqGen := c.seqGen + 1
        main := rest ++ [(e.1, c.seqGen + 1)]
        index := update c.index e.1 (some <| .main v (f - 1) (c.seqGen + 1))
        mainLiveCount := live + 1 } := by
  rw [evictMainLoop, if_pos hf]
  simp only [hq, hv, hl, decr, if_pos hz, if_true]
  rfl

theorem evictMainLoop_drop (hf : c.mainLiveCount ≥ c.mainCapacity) (hq : c.main = e :: rest)
    (hv : c.index e.1 = some (.main v 0 e.2)) (hl : c.mainLiveCount = live + 1) :
    evictMainLoop (budget + 1) c =
      evictMainLoop budget { c with
        main := rest
        index := update c.index e.1 none
        mainLiveCount := live } := by
  rw [evictMainLoop, if_pos hf]
  simp only [hq, hv, hl, decr, if_true]
  rfl

omit [DecidableEq κ] in
theorem pops_cons_dead {index : κ → Option (Node υ)} (hl : stamp index .main e.1 ≠ some e.2) :
    pops index (e :: rest) = pops index rest + 1 := by
  simp [pops, hl, Nat.add_comm]

theorem pops_cons_drop {index : κ → Option (Node υ)} (hn : (e :: rest).Nodup)
    (hv : index e.1 = some (.main v f e.2)) :
    pops index (e :: rest) = pops (update index e.1 none) rest + (f + 1) := by
  have hl : stamp index .main e.1 = some e.2 := stamp_eq_some_iff.mpr ⟨_, hv, rfl, rfl⟩
  have hd : ∀ s, (e.1, s) ∈ rest → stamp index .main e.1 ≠ some s := by
    intro s hs hc
    have he : e = (e.1, s) := Prod.ext rfl (Option.some_inj.mp (hl ▸ hc))
    exact (List.nodup_cons.mp hn).left (he ▸ hs)
  rw [pops_update hd (by simp)]
  simp [pops, hl, hv, Node.freq, Nat.add_comm]

theorem pops_cons_requeue {index : κ → Option (Node υ)} {s : Nat} (hn : (e :: rest).Nodup)
    (hv : index e.1 = some (.main v f e.2)) (hz : f ≥ 1) (hs : (e.1, s) ∉ rest) :
    pops index (e :: rest) =
      pops (update index e.1 (some <| .main v (f - 1) s)) (rest ++ [(e.1, s)]) + 1 := by
  have hd : ∀ s', (e.1, s') ∈ rest →
      stamp (update index e.1 (some <| .main v (f - 1) s)) .main e.1 ≠ some s' := by
    intro s' hs' hc
    simp [Node.kind, Node.seq] at hc
    exact hs (hc ▸ hs')
  have hp : pops (update index e.1 (some <| .main v (f - 1) s)) rest =
      pops (update index e.1 none) rest := by
    have hu : update (update index e.1 none) e.1 (some <| .main v (f - 1) s) =
        update index e.1 (some <| .main v (f - 1) s) := Function.update_idem ..
    rw [← hu] at hd ⊢
    exact pops_update (by simp) hd
  rw [pops_cons_drop hn hv, ← hp]
  simp [pops, Node.kind, Node.seq, Node.freq]
  omega

-- Every iteration uses up one pop, so the loop gets below capacity before the budget is exhausted.
theorem evictMainLoop_spec (hp : 0 < c.mainCapacity) (hr : ∀ s ∈ reserved, s ≤ c.seqGen)
    (h : Ok (stamp c.index .main) c.main (used c.seqGen reserved) c.mainLiveCount)
    (hb : pops c.index c.main < budget) :
    ∃ q index g n,
      evictMainLoop budget c =
        some { c with main := q, index := index, seqGen := g, mainLiveCount := n } ∧
      Ok (stamp index .main) q (used g reserved) n ∧ n < c.mainCapacity ∧
      q.length ≤ c.main.length ∧ c.seqGen ≤ g ∧ Shrinks .main c.index index := by
  induction budget generalizing c
  case zero => omega
  case succ budget hi =>
    by_cases hf : c.mainLiveCount ≥ c.mainCapacity
    case neg =>
      refine ⟨c.main, c.index, c.seqGen, c.mainLiveCount, ?_, h, ?_, le_rfl, le_rfl, .refl _ _⟩
      · simp [evictMainLoop, hf]
      · omega
    cases hq : c.main <;> rw [hq] at h hb
    case nil =>
      have hn : c.mainLiveCount = 0 := h.count.symm
      omega
    case cons e rest =>
      by_cases hl : stamp c.index .main e.1 = some e.2
      case neg =>
        rw [evictMainLoop_dead hf hq hl]
        rw [pops_cons_dead hl] at hb
        let c₁ := { c with main := rest }
        have ⟨q, index, g, n, he, ho, hn, hlen, hg, hs⟩ :=
          @hi c₁ hp hr (h.pop_dead hl) (by simpa [c₁] using hb)
        exact ⟨q, index, g, n, he, ho, hn, hlen.trans (Nat.le_succ _), hg, hs⟩
      have ⟨m, hm, hpop⟩ := h.pop_live hl
      have ⟨node, hv, hk, hseq⟩ := stamp_eq_some_iff.mp hl
      cases node <;> simp only [Node.kind, reduceCtorEq] at hk
      case main v f s =>
        simp only [Node.seq] at hseq
        subst hseq
        cases f
        case zero =>
          rw [evictMainLoop_drop hf hq hv hm]
          rw [pops_cons_drop h.nodup hv] at hb
          let c₁ := { c with main := rest, index := update c.index e.1 none, mainLiveCount := m }
          have ⟨q, index, g, n, he, ho, hn, hlen, hg, hs⟩ :=
            @hi c₁ hp hr (by simpa [c₁] using hpop) (by simpa [c₁] using hb)
          exact ⟨q, index, g, n, he, ho, hn, hlen.trans (Nat.le_succ _), hg,
            .cons hv rfl (by simp) hs⟩
        case succ f =>
          rw [evictMainLoop_requeue hf hq hv hm (Nat.le_add_left ..)]
          have hfresh : (e.1, c.seqGen + 1) ∉ rest := fun hs => succ_not_mem_used (hpop.stamps _ hs)
          rw [pops_cons_requeue h.nodup hv (Nat.le_add_left ..) hfresh] at hb
          let c₁ := { c with
            seqGen := c.seqGen + 1
            main := rest ++ [(e.1, c.seqGen + 1)]
            index := update c.index e.1 (some <| .main v f (c.seqGen + 1))
            mainLiveCount := m + 1 }
          have ho₁ : Ok (stamp c₁.index .main) c₁.main (used c₁.seqGen reserved) (m + 1) := by
            have hpush := hpop.push (Function.update_self ..) succ_not_mem_used
            rw [Function.update_idem] at hpush
            have hg : c.seqGen + 1 ∉ reserved := fun hs => absurd (hr _ hs) (by omega)
            rw [← used_reserve, insert_used le_rfl hg] at hpush
            simpa [c₁, Node.kind, Node.seq] using hpush
          have ⟨q, index, g, n, he, ho, hn, hlen, hg, hs⟩ :=
            @hi c₁ hp (fun s hs => Nat.le_succ_of_le (hr s hs)) ho₁ (by simpa [c₁] using hb)
          refine ⟨q, index, g, n, he, ho, hn, ?_, (Nat.le_succ _).trans hg, .cons hv rfl ?_ hs⟩
          · simpa [c₁] using hlen
          · simp [Node.kind, Node.value?, Node.freq]

theorem evictMainIfFull_spec (h : c.Inv mask reserved) (hp : 0 < c.mainCapacity) :
    ∃ q index g n,
      c.evictMainIfFull =
        some { c with main := q, index := index, seqGen := g, mainLiveCount := n } ∧
      Ok (stamp index .main) q (used g reserved) n ∧ n < c.mainCapacity ∧
      q.length ≤ limit c.mainCapacity ∧ c.seqGen ≤ g ∧ Shrinks .main c.index index := by
  let c₁ := { c with main := c.compact .main c.mainCapacity c.main }
  have hc : Ok (stamp c₁.index .main) c₁.main (used c₁.seqGen reserved) c₁.mainLiveCount :=
    compact_ok h.main fun _ _ => id
  have hb : pops c₁.index c₁.main < c₁.main.length * 4 + 1 :=
    Nat.lt_succ_of_le <| pops_le h.freq_le _
  have hl : c₁.main.length ≤ limit c.mainCapacity :=
    length_compact_le <| h.main.count.trans_le h.main_le
  have ⟨q, index, g, n, he, ho, hn, hlen, hg, hs⟩ :=
    evictMainLoop_spec (c := c₁) hp h.reserved_le hc hb
  refine ⟨q, index, g, n, ?_, ho, hn, hlen.trans hl, hg, hs⟩
  simp only [evictMainIfFull, if_neg hp.ne']
  exact he

end Main

end S3Fifo.S3FifoCache
