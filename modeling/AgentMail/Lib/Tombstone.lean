import Mathlib.Data.Set.Card
import Mathlib.Data.List.Nodup
import Mathlib.Logic.Function.Basic

-- FIFO queues with lazy deletion. Every key carries the stamp under which it is currently queued
-- (`none` if it is not queued at all), and an entry `(k, s)` of the queue is live iff `s` is the
-- current stamp of `k`. All other entries are tombstones, which are only recognised when they are
-- popped or swept.

namespace Tombstone

variable {κ σ : Type*} [DecidableEq σ]
variable {cur : κ → Option σ} {q : List (κ × σ)} {used : Set σ} {n : Nat}

def live (cur : κ → Option σ) (q : List (κ × σ)) : List (κ × σ) :=
  q.filter fun e => cur e.1 = some e.2

@[simp]
theorem mem_live {e : κ × σ} : e ∈ live cur q ↔ e ∈ q ∧ cur e.1 = some e.2 := by
  simp [live]

theorem live_congr {cur' : κ → Option σ}
    (h : ∀ e ∈ q, cur' e.1 = some e.2 ↔ cur e.1 = some e.2) : live cur' q = live cur q := by
  apply List.filter_congr
  intro e he
  simp [h e he]

theorem live_nodup (h : q.Nodup) : (live cur q).Nodup :=
  h.filter _

-- Two live entries for the same key are the same entry.
theorem live_keys_nodup (h : q.Nodup) : ((live cur q).map Prod.fst).Nodup := by
  apply List.Nodup.map_on _ (live_nodup h)
  intro e he e' he' hk
  have h₁ := (mem_live.mp he).right
  have h₂ := (mem_live.mp he').right
  exact Prod.ext hk <| Option.some_inj.mp <| h₁ ▸ hk ▸ h₂

-- Changing the stamp of a single key revives at most one entry.
theorem length_live_le {cur' : κ → Option σ} {k : κ} (h : q.Nodup)
    (hk : ∀ k' ≠ k, cur' k' = cur k') : (live cur' q).length ≤ (live cur q).length + 1 := by
  cases hc : cur' k
  case none =>
    have hs : live cur' q ⊆ live cur q := by
      intro e he
      have ⟨hm, hl⟩ := mem_live.mp he
      have hn : e.1 ≠ k := by rintro rfl; simp [hc] at hl
      exact mem_live.mpr ⟨hm, hk _ hn ▸ hl⟩
    exact (List.subperm_of_subset (live_nodup h) hs).length_le.trans (Nat.le_succ _)
  case some s =>
    have hs : live cur' q ⊆ (k, s) :: live cur q := by
      intro e he
      have ⟨hm, hl⟩ := mem_live.mp he
      by_cases hn : e.1 = k
      case neg => exact List.mem_cons_of_mem _ <| mem_live.mpr ⟨hm, hk _ hn ▸ hl⟩
      case pos =>
        have he : e = (k, s) := Prod.ext hn <| Option.some_inj.mp <| hl.symm.trans (hn ▸ hc)
        exact he ▸ List.mem_cons_self
    exact (List.subperm_of_subset (live_nodup h) hs).length_le

-- The queue `q` accounts for the current stamps `cur`: `n` keys are queued, each of them by exactly
-- one live entry, and only the stamps in `used` have been handed out so far.
structure Ok (cur : κ → Option σ) (q : List (κ × σ)) (used : Set σ) (n : Nat) : Prop where
  nodup  : q.Nodup
  stamps : ∀ e ∈ q, e.2 ∈ used
  covers : ∀ k s, cur k = some s → (k, s) ∈ q
  count  : (live cur q).length = n

namespace Ok

theorem empty : Ok (fun _ : κ => none) [] used 0 where
  nodup  := .nil
  stamps := by simp
  covers := by simp
  count  := rfl

theorem mono (h : Ok cur q used n) {used' : Set σ} (hu : used ⊆ used') : Ok cur q used' n :=
  { h with stamps := fun e he => hu (h.stamps e he) }

-- Sweeping may keep tombstones, but never drops a live entry.
theorem sweep (h : Ok cur q used n) {p : κ × σ → Bool}
    (hp : ∀ e ∈ q, cur e.1 = some e.2 → p e) : Ok cur (q.filter p) used n where
  nodup := h.nodup.filter _
  stamps e he := h.stamps e (List.mem_filter.mp he).left
  covers k s hk := List.mem_filter.mpr ⟨h.covers k s hk, hp _ (h.covers k s hk) hk⟩
  count := by
    rw [← h.count, live, live, List.filter_filter]
    congr 1
    apply List.filter_congr
    intro e he
    by_cases hc : cur e.1 = some e.2 <;> simp [hc]
    exact hp e he hc

theorem pop_dead {e : κ × σ} (h : Ok cur (e :: q) used n) (hd : cur e.1 ≠ some e.2) :
    Ok cur q used n where
  nodup := h.nodup.of_cons
  stamps e' he := h.stamps e' (List.mem_cons_of_mem _ he)
  covers k s hk := by
    cases List.mem_cons.mp (h.covers k s hk)
    case inl he => exact absurd (he ▸ hk) hd
    case inr he => exact he
  count := by simpa [live, hd] using h.count

-- The number of queued keys is the live count.
theorem encard_eq (h : Ok cur q used n) : {k | (cur k).isSome}.encard = n := by
  have hs : {k | (cur k).isSome} = {k | k ∈ (live cur q).map Prod.fst} := by
    ext k
    simp only [Set.mem_ofPred_eq, List.mem_map, mem_live, Option.isSome_iff_exists]
    constructor
    case mp  => exact fun ⟨s, hs⟩ => ⟨(k, s), ⟨h.covers k s hs, hs⟩, rfl⟩
    case mpr => exact fun ⟨e, ⟨_, he⟩, hk⟩ => ⟨e.2, hk ▸ he⟩
  classical
  have hn : ((live cur q).map Prod.fst).Nodup := live_keys_nodup h.nodup
  rw [hs, ← List.coe_toFinset, Set.encard_coe_eq_coe_finsetCard, List.toFinset_card_of_nodup hn]
  simp [h.count]

variable [DecidableEq κ]

-- Lazy deletion: `k` is no longer queued, but its entry remains behind as a tombstone.
theorem erase {k : κ} {s : σ} (h : Ok cur q used n) (hk : cur k = some s) :
    ∃ m, n = m + 1 ∧ Ok (Function.update cur k none) q used m := by
  have hm : (k, s) ∈ live cur q := mem_live.mpr ⟨h.covers k s hk, hk⟩
  have hl : live (Function.update cur k none) q = (live cur q).erase (k, s) := by
    rw [(live_nodup h.nodup).erase_eq_filter, live, live, List.filter_filter]
    apply List.filter_congr
    intro e _
    by_cases he : e.1 = k
    case neg => simp [he, Prod.ext_iff]
    case pos =>
      subst he
      by_cases hs : s = e.2 <;> simp [hk, hs]
  refine ⟨n - 1, ?_, h.nodup, h.stamps, ?_, ?_⟩
  · have := List.length_pos_of_mem hm
    have := h.count
    omega
  · intro k' s' hk'
    by_cases he : k' = k
    case pos => simp [he] at hk'
    case neg => exact h.covers k' s' (by simpa [he] using hk')
  · rw [hl, List.length_erase_of_mem hm, h.count]

theorem pop_live {e : κ × σ} (h : Ok cur (e :: q) used n) (hl : cur e.1 = some e.2) :
    ∃ m, n = m + 1 ∧ Ok (Function.update cur e.1 none) q used m := by
  have ⟨m, hm, h'⟩ := h.erase hl
  exact ⟨m, hm, h'.pop_dead (by simp)⟩

-- An unqueued key enters at the back, with a stamp that has not been used before.
theorem push {k : κ} {s : σ} (h : Ok cur q used n) (hk : cur k = none) (hs : s ∉ used) :
    Ok (Function.update cur k (some s)) (q ++ [(k, s)]) (insert s used) (n + 1) where
  nodup := by
    refine List.Nodup.append h.nodup (List.nodup_singleton _) ?_
    intro e he he'
    have hu := h.stamps e he
    rw [List.mem_singleton.mp he'] at hu
    exact hs hu
  stamps e he := by
    cases List.mem_append.mp he
    case inl he => exact Set.mem_insert_of_mem _ (h.stamps e he)
    case inr he => simp_all
  covers k' s' hk' := by
    by_cases he : k' = k
    case pos => simp_all
    case neg => exact List.mem_append_left _ (h.covers k' s' (by simpa [he] using hk'))
  count := by
    have hq : live (Function.update cur k (some s)) q = live cur q := by
      apply live_congr
      intro e he
      have hu := h.stamps e he
      by_cases hk' : e.1 = k <;> simp [hk']
      simp [hk]
      exact fun hc => hs (hc ▸ hu)
    rw [← h.count, ← hq]
    simp [live]

theorem count_entry (h : Ok cur q used n) {k : κ} {s : σ} (hk : cur k = some s) :
    q.count (k, s) = 1 :=
  List.count_eq_one_of_mem h.nodup (h.covers k s hk)

end Ok
end Tombstone
