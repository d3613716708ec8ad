import AgentMail.Pattern.Basic
import AgentMail.Pattern.Theorems.Cover
import Mathlib.Data.List.Perm.Basic

namespace Pattern.PatternCache

variable {gs : Globset} {ci : Bool} {cache : PatternCache gs ci} {raw : Str}

theorem Coherent.not_mem_order (h : cache.Coherent) (hn : cache.entries.lookup raw = none) :
    raw ∉ cache.order := by
  rw [← h.perm.mem_iff]
  intro hm
  obtain ⟨e, he, rfl⟩ := List.mem_map.mp hm
  exact absurd (List.lookup_eq_none_iff.mp hn e he) (by simp)

theorem Coherent.length_eq (h : cache.Coherent) : cache.entries.length = cache.order.length := by
  rw [← h.perm.length_eq, List.length_map]

-- What is evicted is the head of the queue, together with its entry.
theorem evictIfFull_cases (cache : PatternCache gs ci) :
    cache.evictIfFull = cache ∧ (cache.entries.length < cache.capacity ∨ cache.order = []) ∨
    ∃ oldest, cache.order = oldest :: cache.evictIfFull.order ∧
      cache.evictIfFull.capacity = cache.capacity ∧
      cache.evictIfFull.entries = cache.entries.filter (·.1 ≠ oldest) := by
  rw [evictIfFull]
  split
  case isFalse hc => exact .inl ⟨rfl, .inl (not_le.mp hc)⟩
  case isTrue hc =>
    split
    case h_1 ho          => exact .inl ⟨rfl, .inr ho⟩
    case h_2 oldest _ ho => exact .inr ⟨oldest, ho, rfl, rfl⟩

theorem capacity_evictIfFull : cache.evictIfFull.capacity = cache.capacity := by
  rcases cache.evictIfFull_cases with ⟨he, _⟩ | ⟨_, _, hc, _⟩
  · rw [he]
  · exact hc

theorem Coherent.evictIfFull (h : cache.Coherent) : cache.evictIfFull.Coherent := by
  rcases cache.evictIfFull_cases with ⟨he, _⟩ | ⟨oldest, ho, _, he⟩
  case inl => rwa [he]
  case inr =>
    have hn := h.nodup
    rw [ho, List.nodup_cons] at hn
    constructor
    case nodup => exact hn.right
    case perm =>
      have hp := h.perm.filter (· ≠ oldest)
      rw [ho, List.filter_cons_of_neg (by simp), List.filter_map] at hp
      rw [he]
      refine hp.trans (.of_eq (List.filter_eq_self.mpr fun raw hm => ?_))
      exact decide_eq_true fun heq => hn.left (heq ▸ hm)

theorem evictIfFull_order_subset : cache.evictIfFull.order ⊆ cache.order := by
  rcases cache.evictIfFull_cases with ⟨he, _⟩ | ⟨_, ho, _⟩
  · rw [he]
    exact fun _ => id
  · rw [ho]
    exact List.subset_cons_self ..

-- After the eviction there is room for one more entry.
theorem Coherent.room (h : cache.Coherent) (hc : 0 < cache.capacity)
    (hl : cache.entries.length ≤ cache.capacity) :
    cache.evictIfFull.entries.length < cache.capacity := by
  rw [h.evictIfFull.length_eq]
  rcases cache.evictIfFull_cases with ⟨he, hr | ho⟩ | ⟨oldest, ho, _⟩
  · rwa [he, ← h.length_eq]
  · rwa [he, ho]
  · rw [h.length_eq, ho, List.length_cons] at hl
    exact hl

-- A hit changes nothing, a miss adds the pattern after the eviction.
theorem getOrInsert_cases (cache : PatternCache gs ci) (raw : Str) :
    (cache.getOrInsert raw).2 = cache ∨
    cache.entries.lookup raw = none ∧
      (cache.getOrInsert raw).2.capacity = cache.evictIfFull.capacity ∧
      (cache.getOrInsert raw).2.entries = (raw, .new gs ci raw) :: cache.evictIfFull.entries ∧
      (cache.getOrInsert raw).2.order = cache.evictIfFull.order ++ [raw] := by
  rw [getOrInsert]
  split
  case h_1      => exact .inl rfl
  case h_2 hn   => exact .inr ⟨hn, rfl, rfl, rfl⟩

theorem Coherent.getOrInsert (h : cache.Coherent) : (cache.getOrInsert raw).2.Coherent := by
  rcases cache.getOrInsert_cases raw with he | ⟨hn, _, he, ho⟩
  case inl => rwa [he]
  case inr =>
    have hnot : raw ∉ cache.evictIfFull.order := fun hm =>
      h.not_mem_order hn (evictIfFull_order_subset hm)
    constructor
    case perm =>
      rw [he, ho, List.map_cons]
      exact (h.evictIfFull.perm.cons raw).trans (List.perm_append_singleton ..).symm
    case nodup =>
      rw [ho, (List.perm_append_singleton raw _).nodup_iff, List.nodup_cons]
      exact ⟨hnot, h.evictIfFull.nodup⟩

theorem capacity_getOrInsert : (cache.getOrInsert raw).2.capacity = cache.capacity := by
  rcases cache.getOrInsert_cases raw with he | ⟨_, hc, _⟩
  · rw [he]
  · exact hc.trans capacity_evictIfFull

theorem Coherent.length_getOrInsert (h : cache.Coherent) (hc : 0 < cache.capacity)
    (hl : cache.entries.length ≤ cache.capacity) :
    (cache.getOrInsert raw).2.entries.length ≤ cache.capacity := by
  rcases cache.getOrInsert_cases raw with he | ⟨_, _, he, _⟩
  · rwa [he]
  · rw [he, List.length_cons]
    exact h.room hc hl

theorem Transparent.getOrInsert (h : cache.Transparent) (hc : 0 < cache.capacity) :
    (cache.getOrInsert raw).2.Transparent where
  toCoherent := h.toCoherent.getOrInsert
  bounded    := by
    rw [capacity_getOrInsert]
    exact h.length_getOrInsert hc h.bounded
  compiles _ := getOrInsert_fst ..

theorem transparent_new {capacity : Nat} :
    (PatternCache.new capacity : PatternCache gs ci).Transparent where
  perm       := .nil
  nodup      := .nil
  bounded    := Nat.zero_le _
  compiles _ := getOrInsert_fst ..

theorem Transparent.after (h : cache.Transparent) (hc : 0 < cache.capacity) (raws : List Str) :
    (cache.after raws).Transparent := by
  induction raws generalizing cache
  case nil              => exact h
  case cons raw raws hi => exact hi (h.getOrInsert hc) (hc.trans_eq capacity_getOrInsert.symm)

theorem capacity_after (raws : List Str) : (cache.after raws).capacity = cache.capacity := by
  induction raws generalizing cache
  case nil           => rfl
  case cons raws hi  => exact hi.trans capacity_getOrInsert

theorem transparent_of_lookups (gs : Globset) (ci : Bool) (capacity : Nat) (hc : 0 < capacity)
    (raws : List Str) :
    ((PatternCache.new capacity : PatternCache gs ci).after raws).Transparent ∧
      ((PatternCache.new capacity : PatternCache gs ci).after raws).capacity = capacity :=
  ⟨transparent_new.after hc raws, capacity_after raws⟩

theorem transparent_of_lookups_evicts :
    let cache := (PatternCache.new 1 : PatternCache .wildcard false).after
      ["src/*".toList, "docs".toList, "src/*".toList]
    cache.Transparent ∧ cache.capacity = 1 :=
  transparent_of_lookups .wildcard false 1 (by decide) _

end Pattern.PatternCache
