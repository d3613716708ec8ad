import AgentMail.SearchCache.Theorems.Basic

namespace SearchCache

section Cache

variable {κ τ : Type} {cache cache' : QueryCache κ τ} {indexEpoch : κ → Nat} {key : κ} {now : Nat}
  {value : τ} {victim : Option κ}
variable {row : κ × CacheEntry τ}

-- The entries of the second cache are some of the first one.
structure QueryCache.Keeps (cache cache' : QueryCache κ τ) : Prop where
  epoch   : cache'.currentEpoch = cache.currentEpoch
  entries : ∀ row ∈ cache'.entries.rows, ∃ row' ∈ cache.entries.rows, row'.1 = row.1 ∧
    row'.2.value = row.2.value

namespace QueryCache.Keeps

theorem refl : cache.Keeps cache :=
  ⟨rfl, fun row hr => ⟨row, hr, rfl, rfl⟩⟩

theorem missed : cache.Keeps cache.missed :=
  ⟨rfl, refl.entries⟩

theorem checkGet : cache.Keeps (cache.checkGet indexEpoch key).1 := by
  unfold QueryCache.checkGet
  split
  case isTrue => exact refl
  case isFalse =>
    split
    case isTrue  => exact missed
    case isFalse => exact refl

theorem pruneExpired : cache.Keeps (cache.pruneExpired now) := by
  have h (row) (hr : row ∈ (cache.entries.delete (·.2.isExpired cache.config.ttl now)).rows) :
      ∃ row' ∈ cache.entries.rows, row'.1 = row.1 ∧ row'.2.value = row.2.value :=
    ⟨row, List.mem_of_mem_filter hr, rfl, rfl⟩
  unfold QueryCache.pruneExpired
  dsimp only
  split
  case isTrue  => exact ⟨rfl, h⟩
  case isFalse => exact ⟨rfl, h⟩

theorem clear : cache.Keeps cache.clear :=
  ⟨rfl, nofun⟩

variable [DecidableEq κ]

theorem remove : cache.Keeps (cache.remove key) :=
  ⟨rfl, fun row hr => ⟨row, List.mem_of_mem_filter hr, rfl, rfl⟩⟩

theorem lookup : cache.Keeps (cache.lookup now key).1 := by
  unfold QueryCache.lookup
  split
  case h_1 => exact missed
  case h_2 =>
    split
    case isTrue => exact ⟨rfl, remove.entries⟩
    case isFalse =>
      refine ⟨rfl, fun row hr => ?_⟩
      obtain ⟨row', hr', rfl⟩ := List.mem_map.mp hr
      refine ⟨row', hr', ?_⟩
      split
      case isTrue  => exact ⟨rfl, rfl⟩
      case isFalse => exact ⟨rfl, rfl⟩

theorem evictLru : cache.Keeps (cache.evictLru victim) := by
  unfold QueryCache.evictLru
  split
  case h_1 => exact refl
  case h_2 => exact ⟨rfl, remove.entries⟩

end QueryCache.Keeps

variable [DecidableEq κ]

theorem currentEpoch_insert :
    (cache.insert now key value victim).currentEpoch = cache.currentEpoch := by
  unfold QueryCache.insert
  dsimp only
  split
  case isTrue  => exact QueryCache.Keeps.evictLru.epoch
  case isFalse => rfl

theorem mem_insert (h : row ∈ (cache.insert now key value victim).entries.rows) :
    row = (key, .new value now) ∨ ∃ row' ∈ cache.entries.rows, row'.1 = row.1 ∧
      row'.2.value = row.2.value := by
  obtain rfl | ⟨hr, _⟩ := Table.mem_put.mp h
  · exact .inl rfl
  · refine .inr ?_
    split at hr
    case isTrue  => exact QueryCache.Keeps.evictLru.entries row hr
    case isFalse => exact QueryCache.Keeps.refl.entries row hr

theorem exists_of_lookup (h : (cache.lookup now key).2 = some value) :
    ∃ row ∈ cache.entries.rows, row.1 = key ∧ row.2.value = value := by
  unfold QueryCache.lookup at h
  split at h
  case h_1 => cases h
  case h_2 key' entry he =>
    have ⟨hr, hk⟩ := Table.get?_eq_some_iff.mp he
    split at h
    case isTrue  => cases h
    case isFalse => exact ⟨_, hr, hk, Option.some.inj h⟩

end Cache

section Fresh

variable {ι ω ρ σ κ τ : Type}

-- The value is the response to a request with this key at a state of the index that is not older
-- than the floor of the epoch of the key.
def Computed (indexEpoch : κ → Nat) (buildKey : ρ → Nat → κ) (execute : ρ → σ → τ)
    (floor : Nat → Nat) (history : List σ) (key : κ) (value : τ) : Prop :=
  ∃ request position index, buildKey request (indexEpoch key) = key ∧
    floor (indexEpoch key) ≤ position ∧
    history[position]? = some index ∧ value = execute request index

-- The key was built when the search began.
structure Keyed (indexEpoch : κ → Nat) (buildKey : ρ → Nat → κ) (floor : Nat → Nat) (epoch : Nat)
    (request : ρ) (since : Nat) (key : κ) : Prop where
  le    : indexEpoch key ≤ epoch
  built : buildKey request (indexEpoch key) = key
  since : since = floor (indexEpoch key)

variable (indexEpoch : κ → Nat) (buildKey : ρ → Nat → κ) (execute : ρ → σ → τ) (floor : Nat → Nat)

def PhaseFresh (history : List σ) (epoch : Nat) (request : ρ) (since : Nat) : Phase κ τ → Prop
  | .idle                                 => True
  | .get key | .lookup key | .compute key => Keyed indexEpoch buildKey floor epoch request since key
  | .put key value | .insert key value    =>
    Keyed indexEpoch buildKey floor epoch request since key ∧
      Computed indexEpoch buildKey execute floor history key value
  | .responded value                      =>
    ∃ key, Keyed indexEpoch buildKey floor epoch request since key ∧
      Computed indexEpoch buildKey execute floor history key value

def WriterFresh (announced : Nat) (history : List σ) : Writer → Prop
  | .idle                                       => True
  | .committed position                         => position < history.length
  | .announced position | .returned position => position ≤ announced

-- The floor of an epoch is the state of the index that was the last one when the epoch began.
structure FreshAt (s : System ι ω ρ σ κ τ) : Prop where
  bounded   : ∀ e ≤ s.cache.currentEpoch, floor e < s.history.length
  current   : floor s.cache.currentEpoch = s.announced
  entries   : ∀ row ∈ s.cache.entries.rows, indexEpoch row.1 ≤ s.cache.currentEpoch ∧
    Computed indexEpoch buildKey execute floor s.history row.1 row.2.value
  searchers : ∀ i, PhaseFresh indexEpoch buildKey execute floor s.history s.cache.currentEpoch
    (s.searchers i).request (s.searchers i).since (s.searchers i).phase
  writers   : ∀ w, WriterFresh s.announced s.history (s.writers w)

variable {indexEpoch buildKey execute floor}
variable {s s' : System ι ω ρ σ κ τ} {e : Event ι ω ρ σ κ} {cache : QueryCache κ τ}
  {history history' : List σ} {epoch : Nat}
variable {request : ρ} {since : Nat} {phase : Phase κ τ} {key : κ} {value : τ} {index : σ}
  {floor' : Nat → Nat}

-- States of the index that are added, and epochs that begin, change nothing for a value.
theorem Computed.mono (h : Computed indexEpoch buildKey execute floor history key value)
    (hh : history <+: history') (hf : floor' (indexEpoch key) = floor (indexEpoch key)) :
    Computed indexEpoch buildKey execute floor' history' key value := by
  have ⟨request, position, index, hb, hp, hi, hv⟩ := h
  refine ⟨request, position, index, hb, hf ▸ hp, ?_, hv⟩
  obtain ⟨_, rfl⟩ := hh
  exact List.getElem?_append_left (List.getElem?_eq_some_iff.mp hi).choose ▸ hi

theorem Keyed.mono {epoch' : Nat} (h : Keyed indexEpoch buildKey floor epoch request since key)
    (he : epoch ≤ epoch') (hf : ∀ e ≤ epoch, floor' e = floor e) :
    Keyed indexEpoch buildKey floor' epoch' request since key :=
  ⟨h.le.trans he, h.built, h.since.trans (hf _ h.le).symm⟩

theorem PhaseFresh.mono {epoch' : Nat}
    (h : PhaseFresh indexEpoch buildKey execute floor history epoch request since phase)
    (hh : history <+: history') (he : epoch ≤ epoch') (hf : ∀ e ≤ epoch, floor' e = floor e) :
    PhaseFresh indexEpoch buildKey execute floor' history' epoch' request since phase := by
  have both {key value} (hk : Keyed indexEpoch buildKey floor epoch request since key)
      (hc : Computed indexEpoch buildKey execute floor history key value) :
      Keyed indexEpoch buildKey floor' epoch' request since key ∧
        Computed indexEpoch buildKey execute floor' history' key value :=
    ⟨hk.mono he hf, hc.mono hh (hf _ hk.le)⟩
  cases phase
  case idle    => trivial
  case get     => exact Keyed.mono h he hf
  case lookup  => exact Keyed.mono h he hf
  case compute => exact Keyed.mono h he hf
  case put     => exact both h.left h.right
  case insert  => exact both h.left h.right
  case responded =>
    have ⟨key, hk, hc⟩ := h
    exact ⟨key, both hk hc⟩

namespace FreshAt

theorem keep (h : FreshAt indexEpoch buildKey execute floor s) (hk : s.cache.Keeps cache) :
    FreshAt indexEpoch buildKey execute floor { s with cache } where
  bounded   := hk.epoch ▸ h.bounded
  current   := hk.epoch ▸ h.current
  searchers := hk.epoch ▸ h.searchers
  writers   := h.writers
  entries row hr := by
    have ⟨row', hr', hkey, hvalue⟩ := hk.entries row hr
    have he := h.entries row' hr'
    rw [hkey, hvalue] at he
    exact hk.epoch ▸ he

theorem insert [DecidableEq κ] {victim : Option κ} (h : FreshAt indexEpoch buildKey execute floor s)
    (hle : indexEpoch key ≤ s.cache.currentEpoch)
    (hc : Computed indexEpoch buildKey execute floor s.history key value) :
    FreshAt indexEpoch buildKey execute floor { s with
      cache := s.cache.insert s.now key value victim } := by
  have he : (s.cache.insert s.now key value victim).currentEpoch = s.cache.currentEpoch :=
    currentEpoch_insert
  refine ⟨he ▸ h.bounded, he ▸ h.current, fun row hr => ?_, he ▸ h.searchers, h.writers⟩
  rw [he]
  obtain rfl | ⟨row', hr', hkey, hvalue⟩ := mem_insert hr
  · exact ⟨hle, hc⟩
  · have he := h.entries row' hr'
    rwa [hkey, hvalue] at he

variable [DecidableEq ι] {i : ι}

theorem enter (h : FreshAt indexEpoch buildKey execute floor s)
    (hp : PhaseFresh indexEpoch buildKey execute floor s.history
    s.cache.currentEpoch (s.searchers i).request (s.searchers i).since phase) :
    FreshAt indexEpoch buildKey execute floor (s.enter i phase) := by
  refine ⟨h.bounded, h.current, h.entries, fun j => ?_, h.writers⟩
  by_cases hj : j = i
  case pos =>
    subst hj
    simpa [System.enter] using hp
  case neg =>
    simpa [System.enter, hj] using h.searchers j

theorem begin (h : FreshAt indexEpoch buildKey execute floor s) {request : ρ}
    (hk : indexEpoch (buildKey request s.cache.currentEpoch) = s.cache.currentEpoch) :
    FreshAt indexEpoch buildKey execute floor
      (s.begin i request (buildKey request s.cache.currentEpoch)) := by
  refine ⟨h.bounded, h.current, h.entries, fun j => ?_, h.writers⟩
  by_cases hj : j = i
  case pos =>
    subst hj
    simp only [System.begin, Function.update_self]
    exact ⟨hk.le, by rw [hk], by rw [hk, h.current]⟩
  case neg =>
    simpa [System.begin, hj] using h.searchers j

variable [DecidableEq ω] {w : ω} {position : Nat}

omit [DecidableEq ι] in
theorem writer (h : FreshAt indexEpoch buildKey execute floor s) {writer : Writer}
    (hw : WriterFresh s.announced s.history writer) :
    FreshAt indexEpoch buildKey execute floor { s with
      writers := Function.update s.writers w writer } := by
  refine ⟨h.bounded, h.current, h.entries, h.searchers, fun v => ?_⟩
  by_cases hv : v = w
  case pos => subst hv; simpa using hw
  case neg => simpa [hv] using h.writers v

theorem WriterFresh.mono {announced announced' : Nat} {writer : Writer}
    (h : WriterFresh announced history writer) (ha : announced ≤ announced')
    (hh : history <+: history') : WriterFresh announced' history' writer := by
  unfold WriterFresh at h ⊢
  split at h
  case h_1 => trivial
  case h_2 => exact h.trans_le hh.length_le
  case h_3 => exact h.trans ha
  case h_4 => exact h.trans ha

omit [DecidableEq ι] [DecidableEq ω] in
theorem append (h : FreshAt indexEpoch buildKey execute floor s) :
    FreshAt indexEpoch buildKey execute floor { s with history := s.history ++ [index] } where
  bounded e he  := (h.bounded e he).trans_le (List.prefix_append _ _).length_le
  current       := h.current
  entries row hr := (h.entries row hr).imp_right (·.mono (List.prefix_append _ _) rfl)
  searchers i   := (h.searchers i).mono (List.prefix_append _ _) le_rfl fun _ _ => rfl
  writers w     := WriterFresh.mono (h.writers w) le_rfl (List.prefix_append _ _)

omit [DecidableEq ι] [DecidableEq ω] in
theorem bump (h : FreshAt indexEpoch buildKey execute floor s)
    (hn : s.cache.currentEpoch + 1 < 2 ^ 64) :
    FreshAt indexEpoch buildKey execute (Function.update floor (s.cache.currentEpoch + 1)
      (s.history.length - 1))
      { s with cache := s.cache.bumpEpoch, announced := s.history.length - 1 } := by
  have hb := h.bounded _ le_rfl
  have he : s.cache.bumpEpoch.currentEpoch = s.cache.currentEpoch + 1 := Nat.mod_eq_of_lt hn
  have hf (e) (hle : e ≤ s.cache.currentEpoch) :
      Function.update floor (s.cache.currentEpoch + 1) (s.history.length - 1) e = floor e :=
    Function.update_of_ne (by omega) ..
  refine ⟨fun e hle => ?_, ?_, fun row hr => ?_, fun i => ?_, fun w => ?_⟩
  · by_cases hl : e ≤ s.cache.currentEpoch
    case pos => exact hf e hl ▸ h.bounded e hl
    case neg =>
      have : e = s.cache.currentEpoch + 1 := by rw [he] at hle; omega
      rw [this, Function.update_self]
      dsimp only
      omega
  · dsimp only
    rw [he, Function.update_self]
  · have ⟨hle, hc⟩ := h.entries row hr
    dsimp only
    exact ⟨by rw [he]; omega, hc.mono (List.prefix_refl _) (hf _ hle)⟩
  · exact (h.searchers i).mono (List.prefix_refl _) (by rw [he]; omega) hf
  · refine WriterFresh.mono (h.writers w) ?_ (List.prefix_refl _)
    have hc := h.current
    dsimp only
    omega

end FreshAt

variable [DecidableEq ι] [DecidableEq ω] [DecidableEq κ]

-- The counter of the epochs does not wrap around.
def NoWrap (s : System ι ω ρ σ κ τ) : Event ι ω ρ σ κ → Prop
  | .bump _ => s.cache.currentEpoch + 1 < 2 ^ 64
  | _       => True

instance decidableNoWrap {s : System ι ω ρ σ κ τ} : ∀ e, Decidable (NoWrap s e)
  | .bump _    => inferInstanceAs (Decidable (_ < _))
  | .tick _    => isTrue trivial
  | .start ..  => isTrue trivial
  | .get _     => isTrue trivial
  | .lookup _  => isTrue trivial
  | .compute _ => isTrue trivial
  | .fail _    => isTrue trivial
  | .put _     => isTrue trivial
  | .insert .. => isTrue trivial
  | .prune     => isTrue trivial
  | .commit .. => isTrue trivial
  | .clear _   => isTrue trivial

def Fresh (indexEpoch : κ → Nat) (buildKey : ρ → Nat → κ) (execute : ρ → σ → τ)
    (s : System ι ω ρ σ κ τ) : Prop :=
  ∃ floor, FreshAt indexEpoch buildKey execute floor s

omit [DecidableEq ι] [DecidableEq ω] [DecidableEq κ] in
theorem fresh_init {config : CacheConfig} {request : ρ} :
    Fresh indexEpoch buildKey execute (.init config index request : System ι ω ρ σ κ τ) :=
  ⟨fun _ => 0, fun _ _ => Nat.one_pos, rfl, nofun, fun _ => trivial, fun _ => trivial⟩

theorem fresh_step (hkey : ∀ request e, indexEpoch (buildKey request e) = e)
    (h : Fresh indexEpoch buildKey execute s) (hn : NoWrap s e)
    (hs : step indexEpoch buildKey execute s e = some s') :
    Fresh indexEpoch buildKey execute s' := by
  have ⟨floor, h⟩ := h
  cases step_cases hs
  case tick  => exact ⟨floor, h.bounded, h.current, h.entries, h.searchers, h.writers⟩
  case start => exact ⟨floor, h.begin (hkey ..)⟩
  case prune => exact ⟨floor, h.keep .pruneExpired⟩
  case get i key hp =>
    have hi := h.searchers i
    have hk : s.cache.Keeps (s.cache.checkGet indexEpoch key).1 := .checkGet
    rw [hp] at hi
    refine ⟨floor, (h.keep hk).enter ?_⟩
    rw [← hk.epoch] at hi
    split
    case isTrue  => exact hi
    case isFalse => exact hi
  case lookup i key hp =>
    have hi := h.searchers i
    have hk : s.cache.Keeps (s.cache.lookup s.now key).1 := .lookup
    rw [hp] at hi
    refine ⟨floor, (h.keep hk).enter ?_⟩
    cases hl : (s.cache.lookup s.now key).2
    case none => exact hk.epoch ▸ hi
    case some value =>
      obtain ⟨row, hr, rfl, rfl⟩ := exists_of_lookup hl
      exact ⟨row.1, hk.epoch ▸ hi, (h.entries row hr).right⟩
  case compute i key index hp hl =>
    have hi := h.searchers i
    rw [hp] at hi
    have hb := h.bounded (indexEpoch key) hi.le
    rw [List.getLast?_eq_getElem?] at hl
    exact ⟨floor, h.enter ⟨hi, _, _, index, hi.built, Nat.le_sub_one_of_lt hb, hl, rfl⟩⟩
  case fail i key hp => exact ⟨floor, h.enter trivial⟩
  case put i key value hp =>
    have hi := h.searchers i
    rw [hp] at hi
    refine ⟨floor, h.enter ?_⟩
    split
    case isTrue  => exact hi
    case isFalse => exact ⟨key, hi⟩
  case insert i key value victim hp _ =>
    have hi := h.searchers i
    rw [hp] at hi
    have he : (s.cache.insert s.now key value victim).currentEpoch = s.cache.currentEpoch :=
      currentEpoch_insert
    exact ⟨floor, (h.insert hi.left.le hi.right).enter ⟨key, he ▸ hi.left, hi.right⟩⟩
  case commit w index =>
    exact ⟨floor, h.append.writer (by simp [WriterFresh])⟩
  case bump w position hw =>
    have hp := h.writers w
    rw [hw] at hp
    exact ⟨_, (h.bump hn).writer (Nat.le_sub_one_of_lt hp)⟩
  case clear w position hw =>
    have hp := h.writers w
    rw [hw] at hp
    exact ⟨floor, (h.keep .clear).writer hp⟩

end Fresh

-- A search never responds with what was found in a state of the index before the last one that was
-- announced when it began. By the time an update returns, its state has been announced.
theorem responses_fresh {ι ω ρ σ κ τ : Type} [DecidableEq ι] [DecidableEq ω] [DecidableEq κ]
    {indexEpoch : κ → Nat} {buildKey : ρ → Nat → κ} {execute : ρ → σ → τ} {config : CacheConfig}
    {index₀ : σ} {request₀ : ρ} {es : List (Event ι ω ρ σ κ)} {s : System ι ω ρ σ κ τ}
    (hkey : ∀ request e, indexEpoch (buildKey request e) = e)
    (hc : Along (step indexEpoch buildKey execute) NoWrap (.init config index₀ request₀) es)
    (h : run (step indexEpoch buildKey execute) (.init config index₀ request₀) es = some s) :
    (∀ i value, (s.searchers i).phase = .responded value → ∃ request position index,
      (∃ e, buildKey request e = buildKey (s.searchers i).request e) ∧
        (s.searchers i).since ≤ position ∧
        s.history[position]? = some index ∧ value = execute request index) ∧
    ∀ w position, s.writers w = .returned position → position ≤ s.announced := by
  have ⟨floor, hs⟩ := Run.invariant_along (fresh_step hkey) fresh_init hc h
  constructor
  case left =>
    intro i value hp
    have hi := hs.searchers i
    rw [hp] at hi
    have ⟨key, hk, request, position, index, hb, hle, hpos, hv⟩ := hi
    exact ⟨request, position, index, ⟨_, hb.trans hk.built.symm⟩, hk.since ▸ hle, hpos, hv⟩
  case right =>
    intro w position hw
    have hp := hs.writers w
    rwa [hw] at hp

theorem responses_fresh_update : ∃ s : System Bool Unit Nat Nat (Nat × Nat) Nat,
    (s.searchers true).phase = .responded 15 ∧ (s.searchers true).since = 1 ∧
      ∃ request position index,
      (∃ e : Nat, (request, e) = ((s.searchers true).request, e)) ∧
        (s.searchers true).since ≤ position ∧
        s.history[position]? = some index ∧ 15 = request + index := by
  let es : List (Event Bool Unit Nat Nat (Nat × Nat)) :=
    [.start false 10, .get false, .lookup false, .compute false, .put false, .commit () 5, .bump (),
      .insert false none, .clear (), .start true 10, .get true, .lookup true, .compute true,
      .put true, .insert true none]
  have hc : Along (step Prod.snd Prod.mk (· + ·)) NoWrap
      (.init ⟨100, 300, true⟩ 0 0 : System Bool Unit Nat Nat (Nat × Nat) Nat) es := by
    decide
  have hf := responses_fresh (fun _ _ => rfl) hc rfl
  exact ⟨_, rfl, rfl, hf.left true 15 rfl⟩

end SearchCache
