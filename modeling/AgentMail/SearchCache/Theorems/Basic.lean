import AgentMail.SearchCache.Basic
import Mathlib.Data.List.MinMax

namespace SearchCache

section Entries

variable {κ τ : Type} {entries : Entries κ τ} {cache : QueryCache κ τ} {key : κ}
  {row row' : κ × CacheEntry τ} {now : Nat}

theorem length_delete_le {p : κ × CacheEntry τ → Bool} :
    (entries.delete p).rows.length ≤ entries.rows.length :=
  List.length_filter_le ..

theorem length_update {p : κ × CacheEntry τ → Bool} {f : κ × CacheEntry τ → κ × CacheEntry τ}
    {hf : ∀ row, (f row).1 = row.1} : (entries.update p f hf).rows.length = entries.rows.length :=
  List.length_map _

variable [DecidableEq κ]

theorem length_put_of_none (h : entries.get? row.1 = none) :
    (entries.put row).rows.length = entries.rows.length + 1 := by
  have hd : (entries.delete (·.1 = row.1)).rows = entries.rows :=
    List.filter_eq_self.mpr fun row' hr => by simpa using Table.get?_eq_none_iff.mp h row' hr
  rw [Table.rows_put, List.length_append, hd, List.length_singleton]

theorem length_put_of_some (h : entries.get? row.1 = some row') :
    (entries.put row).rows.length = entries.rows.length := by
  rw [Table.rows_put, List.length_append, List.length_singleton]
  exact Table.length_delete h

theorem length_put_le : (entries.put row).rows.length ≤ entries.rows.length + 1 := by
  cases h : entries.get? row.1
  case none => exact (length_put_of_none h).le
  case some => exact (length_put_of_some h).trans_le (Nat.le_succ _)

theorem exists_of_mem_victims (h : key ∈ cache.victims) :
    ∃ row, cache.entries.get? key = some row := by
  obtain ⟨row, hr, rfl⟩ := List.mem_map.mp h
  exact ⟨row, Table.get?_key (List.mem_of_mem_filter hr)⟩

omit [DecidableEq κ] in
theorem rows_eq_nil_of_victims (h : cache.victims = []) : cache.entries.rows = [] := by
  cases hm : cache.entries.rows.argmin (·.2.lastAccessed)
  case none => exact List.argmin_eq_none.mp hm
  case some row =>
    have hr := List.argmin_mem hm
    have hv : row.1 ∈ cache.victims := by
      refine List.mem_map_of_mem (List.mem_filter.mpr ⟨hr, List.all_eq_true.mpr fun row' hr' => ?_⟩)
      exact decide_eq_true
        (List.le_of_mem_argmin (f := fun row : κ × CacheEntry τ => row.2.lastAccessed) hr' hm)
    exact absurd hv (h ▸ List.not_mem_nil)

end Entries

-- The cache is bounded, and its metrics account for all entries.
structure QueryCache.Sound {κ τ : Type} (cache : QueryCache κ τ) : Prop where
  bounded  : cache.entries.rows.length ≤ max cache.config.maxEntries 1
  current  : cache.metrics.currentEntries = cache.entries.rows.length
  balanced :
    cache.metrics.evictionsCapacity + cache.metrics.evictionsTtl + cache.metrics.evictionsEpoch +
    cache.entries.rows.length ≤ cache.metrics.inserts

namespace QueryCache.Sound

variable {κ τ : Type} {cache : QueryCache κ τ} {indexEpoch : κ → Nat} {key : κ} {now : Nat}
  {value : τ} {victim : Option κ}

theorem new (config : CacheConfig) : (QueryCache.new config : QueryCache κ τ).Sound where
  bounded  := Nat.zero_le _
  current  := rfl
  balanced := le_rfl

theorem missed (h : cache.Sound) : cache.missed.Sound :=
  ⟨h.bounded, h.current, h.balanced⟩

theorem checkGet (h : cache.Sound) : (cache.checkGet indexEpoch key).1.Sound := by
  unfold QueryCache.checkGet
  split
  case isTrue => exact h
  case isFalse =>
    split
    case isTrue  => exact h.missed
    case isFalse => exact h

theorem bumpEpoch (h : cache.Sound) : cache.bumpEpoch.Sound :=
  ⟨h.bounded, h.current, h.balanced⟩

theorem clear (h : cache.Sound) : cache.clear.Sound where
  bounded  := Nat.zero_le _
  current  := rfl
  balanced := by
    have := h.balanced
    simp only [QueryCache.clear, Table.empty, List.length_nil]
    omega

theorem pruneExpired (h : cache.Sound) : (cache.pruneExpired now).Sound := by
  have hle : (cache.entries.delete (·.2.isExpired cache.config.ttl now)).rows.length ≤
      cache.entries.rows.length := length_delete_le
  have hb := h.bounded
  have hc := h.current
  have hs := h.balanced
  unfold QueryCache.pruneExpired
  dsimp only
  split
  case isTrue  => refine ⟨?_, rfl, ?_⟩ <;> dsimp only <;> omega
  case isFalse => refine ⟨?_, ?_, ?_⟩ <;> dsimp only <;> omega

variable [DecidableEq κ]

theorem lookup (h : cache.Sound) : (cache.lookup now key).1.Sound := by
  unfold QueryCache.lookup
  split
  case h_1 => exact h.missed
  case h_2 entry he =>
    have hl := Table.length_delete he
    have hb := h.bounded
    have hs := h.balanced
    split
    case isTrue =>
      refine ⟨?_, rfl, ?_⟩
      · simp only [QueryCache.missed, QueryCache.remove]
        omega
      · simp only [QueryCache.missed, QueryCache.remove]
        omega
    case isFalse =>
      have hu : (cache.entries.update (·.1 = key) (fun row => (row.1, row.2.touch now)) fun _ =>
          rfl).rows.length = _ := length_update
      have hc := h.current
      refine ⟨?_, ?_, ?_⟩ <;> dsimp only <;> omega

theorem evictLru (h : cache.Sound) (hv : ∀ k ∈ victim, k ∈ cache.victims) :
    (cache.evictLru victim).Sound := by
  unfold QueryCache.evictLru
  split
  case h_1 => exact h
  case h_2 key =>
    have ⟨row, hr⟩ := exists_of_mem_victims (hv key rfl)
    have hl := Table.length_delete hr
    have hb := h.bounded
    have hs := h.balanced
    refine ⟨?_, rfl, ?_⟩
    · simp only [QueryCache.remove]
      omega
    · simp only [QueryCache.remove]
      omega

theorem store (h : cache.Sound)
    (hb : (cache.entries.put (key, .new value now)).rows.length ≤ max cache.config.maxEntries 1) :
    QueryCache.Sound { cache with
      entries                := cache.entries.put (key, .new value now)
      metrics.inserts        := cache.metrics.inserts + 1
      metrics.currentEntries := (cache.entries.put (key, .new value now)).rows.length } where
  bounded  := hb
  current  := rfl
  balanced := by
    have hs := h.balanced
    have hl : (cache.entries.put (key, .new value now)).rows.length ≤
        cache.entries.rows.length + 1 := length_put_le
    dsimp only
    omega

theorem insert (h : cache.Sound)
    (hv : victim = none ∧ cache.victims = [] ∨ ∃ k ∈ cache.victims, victim = some k) :
    (cache.insert now key value victim).Sound := by
  have hb := h.bounded
  unfold QueryCache.insert
  dsimp only
  split
  case isFalse hf =>
    refine h.store ?_
    cases hk : cache.entries.get? key
    case some => exact (length_put_of_some hk).trans_le hb
    case none =>
      have hlt : ¬cache.entries.rows.length ≥ cache.config.maxEntries := fun hge =>
        hf (by simp [QueryCache.full, hk, hge])
      rw [length_put_of_none hk]
      omega
  case isTrue hf =>
    have hk : cache.entries.get? key = none := by
      simp only [QueryCache.full, Bool.and_eq_true] at hf
      exact Option.isNone_iff_eq_none.mp hf.right
    obtain ⟨rfl, hn⟩ | ⟨k, hm, rfl⟩ := hv
    · have hr := rows_eq_nil_of_victims hn
      refine h.store ?_
      rw [length_put_of_none hk, hr]
      exact Nat.le_max_right ..
    · obtain ⟨row, hr⟩ := exists_of_mem_victims hm
      have hl := Table.length_delete hr
      refine (h.evictLru fun k' he => Option.some.inj he ▸ hm).store ?_
      have hk' : (cache.entries.delete (·.1 = k)).get? key = none := by
        rw [Table.get?_delete_key (q := (· = k)), hk, ite_self]
      simp only [QueryCache.evictLru, QueryCache.remove]
      rw [length_put_of_none hk']
      omega

end QueryCache.Sound

section System

variable {ι ω ρ σ κ τ : Type} [DecidableEq ι] [DecidableEq ω] [DecidableEq κ] {indexEpoch : κ → Nat}
  {buildKey : ρ → Nat → κ}
variable {execute : ρ → σ → τ} {s s' : System ι ω ρ σ κ τ} {e : Event ι ω ρ σ κ}

-- What the steps do, each from the phase it is possible in.
inductive Stepped (indexEpoch : κ → Nat) (buildKey : ρ → Nat → κ) (execute : ρ → σ → τ)
    (s : System ι ω ρ σ κ τ) : Event ι ω ρ σ κ → System ι ω ρ σ κ τ → Prop
  | tick {now} : Stepped indexEpoch buildKey execute s (.tick now) { s with now }
  | start {i request} : Stepped indexEpoch buildKey execute s (.start i request)
      (s.begin i request (buildKey request s.cache.currentEpoch))
  | get {i key} (hp : (s.searchers i).phase = .get key) :
      Stepped indexEpoch buildKey execute s (.get i)
      (System.enter { s with cache := (s.cache.checkGet indexEpoch key).1 } i
        (if (s.cache.checkGet indexEpoch key).2 then .lookup key else .compute key))
  | lookup {i key} (hp : (s.searchers i).phase = .lookup key) :
      Stepped indexEpoch buildKey execute s (.lookup i)
      (System.enter { s with cache := (s.cache.lookup s.now key).1 } i
        ((s.cache.lookup s.now key).2.elim (.compute key) .responded))
  | compute {i key index} (hp : (s.searchers i).phase = .compute key)
      (hi : s.history.getLast? = some index) :
      Stepped indexEpoch buildKey execute s (.compute i)
        (s.enter i (.put key (execute (s.searchers i).request index)))
  | fail {i key} (hp : (s.searchers i).phase = .compute key) :
      Stepped indexEpoch buildKey execute s (.fail i) (s.enter i .idle)
  | put {i key value} (hp : (s.searchers i).phase = .put key value) :
      Stepped indexEpoch buildKey execute s (.put i)
      (s.enter i (if s.cache.checkPut indexEpoch key then .insert key value else .responded value))
  | insert {i key value victim} (hp : (s.searchers i).phase = .insert key value)
      (hv : victim = none ∧ s.cache.victims = [] ∨ ∃ k ∈ s.cache.victims, victim = some k) :
      Stepped indexEpoch buildKey execute s (.insert i victim)
        (System.enter { s with cache := s.cache.insert s.now key value victim } i
          (.responded value))
  | prune :
      Stepped indexEpoch buildKey execute s .prune { s with cache := s.cache.pruneExpired s.now }
  | commit {w index} : Stepped indexEpoch buildKey execute s (.commit w index) { s with
      history := s.history ++ [index]
      writers := Function.update s.writers w (.committed s.history.length) }
  | bump {w position} (hw : s.writers w = .committed position) :
      Stepped indexEpoch buildKey execute s (.bump w) { s with
      cache     := s.cache.bumpEpoch
      announced := s.history.length - 1
      writers   := Function.update s.writers w (.announced position) }
  | clear {w position} (hw : s.writers w = .announced position) :
      Stepped indexEpoch buildKey execute s (.clear w) { s with
      cache   := s.cache.clear
      writers := Function.update s.writers w (.returned position) }

theorem step_cases (h : step indexEpoch buildKey execute s e = some s') :
    Stepped indexEpoch buildKey execute s e s' := by
  cases e <;> simp only [step] at h
  case tick =>
    obtain ⟨_, h⟩ := Option.ite_none_right_eq_some.mp h
    cases h
    exact .tick
  case prune =>
    cases h
    exact .prune
  case compute =>
    split at h
    case h_2 => cases h
    case h_1 hp =>
      have ⟨index, hi, h⟩ := Option.map_eq_some_iff.mp h
      cases h
      exact .compute hp hi
  case insert =>
    split at h
    case h_2 => cases h
    case h_1 hp =>
      obtain ⟨hv, h⟩ := Option.ite_none_right_eq_some.mp h
      cases h
      exact .insert hp hv
  -- What is left are steps that are possible in one phase, or in two of them.
  all_goals
    split at h
    all_goals cases h
    all_goals first
      | exact .start
      | exact .get ‹_›
      | exact .lookup ‹_›
      | exact .fail ‹_›
      | exact .put ‹_›
      | exact .commit
      | exact .bump ‹_›
      | exact .clear ‹_›

theorem config_evictLru {cache : QueryCache κ τ} {victim : Option κ} :
    (cache.evictLru victim).config = cache.config := by
  unfold QueryCache.evictLru
  split <;> rfl

-- No call configures the cache anew.
theorem config_step (h : step indexEpoch buildKey execute s e = some s') :
    s'.cache.config = s.cache.config := by
  cases step_cases h
  case get =>
    unfold QueryCache.checkGet
    repeat' split
    all_goals rfl
  case lookup =>
    unfold QueryCache.lookup
    repeat' split
    all_goals rfl
  case insert =>
    unfold QueryCache.insert
    dsimp only
    split
    case isTrue  => exact config_evictLru
    case isFalse => rfl
  case prune =>
    unfold QueryCache.pruneExpired
    dsimp only
    split <;> rfl
  all_goals rfl

theorem sound_step (hs : s.cache.Sound) (h : step indexEpoch buildKey execute s e = some s') :
    s'.cache.Sound := by
  cases step_cases h
  case get       => exact hs.checkGet
  case lookup    => exact hs.lookup
  case insert hv => exact hs.insert hv
  case prune     => exact hs.pruneExpired
  case bump      => exact hs.bumpEpoch
  case clear     => exact hs.clear
  all_goals exact hs

end System

-- Whatever searches and updates do, the cache stays within its bound, and its metrics stay right.
theorem sound_of_run {ι ω ρ σ κ τ : Type} [DecidableEq ι] [DecidableEq ω] [DecidableEq κ]
    {indexEpoch : κ → Nat} {buildKey : ρ → Nat → κ} {execute : ρ → σ → τ} {config : CacheConfig}
    {index : σ} {request : ρ} {es : List (Event ι ω ρ σ κ)} {s : System ι ω ρ σ κ τ}
    (h : run (step indexEpoch buildKey execute) (.init config index request) es = some s) :
    s.cache.Sound ∧ s.cache.config = config :=
  Run.invariant (I := fun s => s.cache.Sound ∧ s.cache.config = config)
    (fun hs h => ⟨sound_step hs.left h, (config_step h).trans hs.right⟩) ⟨.new config, rfl⟩ h

theorem sound_of_run_evict : ∃ s : System Bool Unit Nat Nat (Nat × Nat) Nat,
    s.cache.metrics.evictionsCapacity = 1 ∧ s.cache.metrics.inserts = 2 ∧ s.cache.Sound ∧
      s.cache.config.maxEntries = 1 := by
  let es : List (Event Bool Unit Nat Nat (Nat × Nat)) :=
    [.start false 10, .get false, .lookup false, .compute false, .put false, .insert false none,
      .start true 20, .get true, .lookup true, .compute true, .put true,
      .insert true (some (10, 0))]
  let s : System Bool Unit Nat Nat (Nat × Nat) Nat := .init ⟨1, 300, true⟩ 0 0
  have h := sound_of_run (rfl : run (step Prod.snd Prod.mk (· + ·)) s es = some _)
  exact ⟨_, rfl, rfl, h.left, congrArg CacheConfig.maxEntries h.right⟩

end SearchCache
