import AgentMail.S3Fifo.Basic
import AgentMail.S3Fifo.Theorems.Insert

open Function (update)
open Tombstone (Ok)

namespace S3Fifo

variable {κ υ : Type} [DecidableEq κ]

namespace S3FifoCache

variable {c c' : S3FifoCache κ υ} {key : κ} {n : Node υ}

theorem new_quiescent {capacity : Nat} (h : 0 < capacity) :
    ∃ c : S3FifoCache κ υ, new capacity = some c ∧ c.Quiescent ∧ c.capacity = capacity ∧
      c.index = fun _ => none := by
  have hs : stamp (fun _ : κ => (none : Option (Node υ))) = fun _ _ => none := rfl
  have hc : max (capacity / 10) 1 ≤ capacity := by omega
  refine ⟨_, if_pos h, ?_, Nat.add_sub_cancel' hc, rfl⟩
  exact {
    small := .empty, main := .empty, ghost := by simpa [hs] using .empty
    small_le := Nat.zero_le _, main_le := Nat.zero_le _, ghost_le := Nat.zero_le _
    small_len := Nat.zero_le _, main_len := Nat.zero_le _, ghost_len := Nat.zero_le _
    freq_le := nofun
    small_pos := by simp
    ghost_pos := h
    reserved_le := nofun }

theorem clear_quiescent (h : c.Quiescent) : c.clear.Quiescent := by
  have hs : stamp (fun _ : κ => (none : Option (Node υ))) = fun _ _ => none := rfl
  exact { h with
    small := .empty, main := .empty, ghost := by simpa [hs, clear] using .empty
    small_le := Nat.zero_le _, main_le := Nat.zero_le _, ghost_le := Nat.zero_le _
    small_len := Nat.zero_le _, main_len := Nat.zero_le _, ghost_len := Nat.zero_le _
    freq_le := nofun }

-- What a lookup does to the index.
theorem getMut_hit {v : υ} (h : c.peek key = some v) (w : υ → υ) :
    ∃ n, c.index key = some n ∧ n.value? = some v ∧
      c.getMut key w = (some v, { c with index := update c.index key (some <| n.hit w) }) := by
  have ⟨n, hn, hv⟩ := Option.bind_eq_some_iff.mp h
  exact ⟨n, hn, hv, by simp [getMut, hn, hv]⟩

theorem getMut_miss (h : c.peek key = none) (w : υ → υ) : c.getMut key w = (none, c) := by
  simp only [getMut]
  split
  case h_2 => rfl
  case h_1 n hn =>
    have hv : n.value? = none := by simpa [peek, hn] using h
    simp [hv]

theorem getMut_quiescent (h : c.Quiescent) (key : κ) (w : υ → υ) :
    (c.getMut key w).snd.Quiescent ∧ SameCapacity c (c.getMut key w).snd := by
  cases hp : c.peek key
  case none => exact getMut_miss hp w ▸ ⟨h, rfl, rfl, rfl⟩
  case some v =>
    have ⟨n, hn, _, he⟩ := getMut_hit hp w
    exact he ▸ ⟨h.hit hn w, rfl, rfl, rfl⟩

-- Lazy deletion, where only the live count of the kind of the removed node changes.
theorem remove_spec (h : c.Quiescent) (key : κ) :
    ∃ c', c.remove key = some (c.peek key, c') ∧ c'.Quiescent ∧ SameCapacity c c' ∧
      c'.index = update c.index key none := by
  cases hk : c.index key
  case none =>
    have hu : update c.index key none = c.index := Function.update_eq_self_iff.mpr hk.symm
    exact ⟨c, by simp [remove, peek, hk, hu], h, ⟨rfl, rfl, rfl⟩, hu.symm⟩
  case some n =>
  have hs : stamp c.index n.kind key = some n.seq := stamp_eq_some_iff.mpr ⟨n, hk, rfl, rfl⟩
  cases n
  case small v f s =>
    obtain ⟨m, hm, ho⟩ := h.small.erase hs
    refine ⟨{ c with index := update c.index key none, smallLiveCount := m }, ?_, ?_,
      ⟨rfl, rfl, rfl⟩, rfl⟩
    · simp [remove, peek, hk, hm, decr, Node.value?]
    · exact { h with
        small    := by simpa using ho
        main     := stamp_erase_of_ne hk .main (by rintro ⟨⟩) ▸ h.main
        ghost    := by simpa [stamp_erase_of_ne hk .ghost (by rintro ⟨⟩)] using h.ghost
        small_le := Nat.le_of_succ_le (hm ▸ h.small_le :)
        freq_le  := Inv.freq_le_erase h.freq_le }
  case main v f s =>
    obtain ⟨m, hm, ho⟩ := h.main.erase hs
    refine ⟨{ c with index := update c.index key none, mainLiveCount := m }, ?_, ?_,
      ⟨rfl, rfl, rfl⟩, rfl⟩
    · simp [remove, peek, hk, hm, decr, Node.value?]
    · exact { h with
        small   := stamp_erase_of_ne hk .small (by rintro ⟨⟩) ▸ h.small
        main    := by simpa using ho
        ghost   := by simpa [stamp_erase_of_ne hk .ghost (by rintro ⟨⟩)] using h.ghost
        main_le := Nat.le_of_succ_le (hm ▸ h.main_le :)
        freq_le := Inv.freq_le_erase h.freq_le }
  case ghost s =>
    have hg : Ok (stamp c.index .ghost) c.ghost (used c.seqGen ∅) c.ghostLiveCount := by
      simpa using h.ghost
    obtain ⟨m, hm, ho⟩ := hg.erase hs
    refine ⟨{ c with index := update c.index key none, ghostLiveCount := m }, ?_, ?_,
      ⟨rfl, rfl, rfl⟩, rfl⟩
    · simp [remove, peek, hk, hm, decr, Node.value?]
    · exact { h with
        small    := stamp_erase_of_ne hk .small (by rintro ⟨⟩) ▸ h.small
        main     := stamp_erase_of_ne hk .main (by rintro ⟨⟩) ▸ h.main
        ghost    := by simpa using ho
        ghost_le := Nat.le_of_succ_le (hm ▸ h.ghost_le :)
        freq_le  := Inv.freq_le_erase h.freq_le }

-- No call gets stuck on an underflow, and each of them leads back to a quiescent cache.
theorem exec_spec (h : c.Quiescent) (op : Op κ υ) :
    ∃ r c', op.exec c = some (r, c') ∧ c'.Quiescent ∧ SameCapacity c c' := by
  cases op
  case insert key value =>
    have ⟨c', he, hq, hc, _⟩ := insert_spec h key value
    exact ⟨none, c', by simp [Op.exec, he], hq, hc⟩
  case remove key =>
    have ⟨c', he, hq, hc, _⟩ := remove_spec h key
    exact ⟨_, c', he, hq, hc⟩
  case peek key => exact ⟨_, c, rfl, h, ⟨rfl, rfl, rfl⟩⟩
  case clear => exact ⟨_, c.clear, rfl, clear_quiescent h, ⟨rfl, rfl, rfl⟩⟩
  case get key => exact ⟨_, _, rfl, getMut_quiescent h key id⟩
  case getMut key write => exact ⟨_, _, rfl, getMut_quiescent h key write⟩

theorem run_spec (h : c.Quiescent) (ops : List (Op κ υ)) :
    ∃ c', c.run ops = some c' ∧ c'.Quiescent ∧ SameCapacity c c' := by
  induction ops generalizing c
  case nil => exact ⟨c, rfl, h, ⟨rfl, rfl, rfl⟩⟩
  case cons op ops hi =>
    have ⟨r, c₁, he, hq, hc⟩ := exec_spec h op
    have ⟨c₂, hr, hq, hc'⟩ := hi hq
    exact ⟨c₂, by simpa [run, he] using hr, hq, hc.trans hc'⟩

-- The representation of a cache from the outside: the counters count the nodes of their kind, each
-- node is queued exactly once under its own sequence number, and the queues are bounded.
structure WellFormed (c : S3FifoCache κ υ) (capacity : Nat) : Prop where
  small_count : { k | ∃ n, c.index k = some n ∧ n.kind = .small }.encard = c.smallLiveCount
  main_count  : { k | ∃ n, c.index k = some n ∧ n.kind = .main }.encard = c.mainLiveCount
  ghost_count : { k | ∃ n, c.index k = some n ∧ n.kind = .ghost }.encard = c.ghostLiveCount
  entry       : ∀ k n, c.index k = some n → (c.queue n.kind).count (k, n.seq) = 1
  small_le    : c.smallLiveCount ≤ c.smallCapacity
  main_le     : c.mainLiveCount ≤ c.mainCapacity
  ghost_le    : c.ghostLiveCount ≤ c.ghostCapacity
  len_le      : c.len ≤ capacity
  small_len   : c.small.length ≤ max (4 * c.smallCapacity) 4 + 1
  main_len    : c.main.length ≤ max (4 * c.mainCapacity) 4 + 1
  ghost_len   : c.ghost.length ≤ max (4 * c.ghostCapacity) 4 + 1

omit [DecidableEq κ] in
theorem encard_kind {index : κ → Option (Node υ)} {kind : Kind} {q : List (κ × Nat)} {m : Nat}
    {used : Set Nat} (h : Ok (stamp index kind) q used m) :
    { k | ∃ n, index k = some n ∧ n.kind = kind }.encard = m := by
  rw [← h.encard_eq]
  congr 1
  ext k
  simp [Option.isSome_iff_exists, stamp_eq_some_iff]

theorem Quiescent.wellFormed (h : c.Quiescent) : c.WellFormed c.capacity := by
  have hg : Ok (stamp c.index .ghost) c.ghost (used c.seqGen ∅) c.ghostLiveCount := by
    simpa using h.ghost
  exact { h with
    small_count := encard_kind h.small
    main_count  := encard_kind h.main
    ghost_count := encard_kind hg
    entry k n hn := by
      have hs : stamp c.index n.kind k = some n.seq := stamp_eq_some_iff.mpr ⟨n, hn, rfl, rfl⟩
      cases n
      case small => exact h.small.count_entry hs
      case main  => exact h.main.count_entry hs
      case ghost => exact hg.count_entry hs
    len_le := Nat.add_le_add h.small_le h.main_le }

theorem run_wellFormed {capacity : Nat} (h : 0 < capacity) (ops : List (Op κ υ)) :
    ∃ c₀ c, new capacity = some c₀ ∧ run c₀ ops = some c ∧ c.WellFormed capacity := by
  have ⟨c₀, hn, hq, hc, _⟩ := new_quiescent (κ := κ) (υ := υ) h
  have ⟨c, hr, hq, hs⟩ := run_spec hq ops
  refine ⟨c₀, c, hn, hr, ?_⟩
  rw [← hc, ← hs.capacity_eq]
  exact hq.wellFormed

theorem run_wellFormed_two :
    0 < 2 ∧ ∃ c₀ c, new 2 = some c₀ ∧
      run c₀ [Op.insert 7 'a', .insert 8 'b', .remove 7, .insert 7 'c'] = some c ∧ c.WellFormed 2 :=
  ⟨by decide, run_wellFormed (by decide) _⟩

end S3FifoCache
end S3Fifo
