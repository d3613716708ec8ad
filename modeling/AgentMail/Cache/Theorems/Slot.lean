import AgentMail.Cache.Basic
import Mathlib.Data.List.Induction

namespace Cache.S3FifoCache

variable {κ α β : Type} [DecidableEq κ] {cache : S3FifoCache κ α} {key key' : κ}
  {entry entry' : CacheEntry α} {f : CacheEntry α → CacheEntry α} {baseTtl now : Nat}
    {shouldMaintain : Bool} {value : α}

theorem peek_insert : (cache.insert key entry).peek key' = if key = key' then some entry
    else cache.peek key' := by
  rw [peek, insert, Table.get?_put]
  split <;> rfl

theorem peek_delete (lost : κ → Bool) : peek (cache.delete (lost ·.1)) key = if lost key then none
    else cache.peek key := by
  rw [peek, Table.get?_delete_key]
  split <;> rfl

theorem peek_remove : (cache.remove key).peek key' = if key' = key then none
    else cache.peek key' := by
  rw [remove, peek_delete fun k => decide (k = key)]
  simp only [decide_eq_true_eq]

theorem peek_modify : (cache.modify key f).peek key' = if key = key' then (cache.peek key').map f
    else cache.peek key' := by
  rw [peek, peek, modify, Table.get?_update]
  cases h : cache.get? key'
  case none => simp
  case some row =>
    have hk : row.1 = key' := (Table.get?_eq_some_iff.mp h).right
    rw [Option.map_some, Option.map_some, hk]
    by_cases he : key = key'
    case pos => simp [he]
    case neg => simp [he, Ne.symm he]

section Touch

variable (h : cache.peek key = some entry)

include h

theorem touch_of_expired (he : entry.isExpired baseTtl now) :
    cache.touch baseTtl now key = (true, cache) := by
  rw [touch, h]
  exact if_pos he

theorem touch_of_fresh (he : ¬entry.isExpired baseTtl now) :
    cache.touch baseTtl now key = (false, cache.modify key (·.touch now)) := by
  rw [touch, h]
  exact if_neg he

-- A value is returned if its entry is fresh.
theorem lookup_of_fresh (he : ¬entry.isExpired baseTtl now) :
    cache.lookup baseTtl shouldMaintain now key =
      (some entry.value, if shouldMaintain then cache.modify key (·.touch now) else cache) := by
  rw [lookup, h]
  dsimp only
  rw [if_pos he, maintain, touch_of_fresh h he]
  rfl

theorem lookup_of_expired (he : entry.isExpired baseTtl now) :
    cache.lookup baseTtl shouldMaintain now key = (none, cache.remove key) := by
  rw [lookup, h]
  dsimp only
  rw [if_neg (not_not.mpr he), touch_of_expired h he]
  rfl

end Touch

theorem lookup_of_none (h : cache.peek key = none) :
    cache.lookup baseTtl shouldMaintain now key = (none, cache) := by
  rw [lookup, h]

theorem le_of_fresh (h : ¬entry.isExpired baseTtl now) :
    now ≤ entry.lastAccessed + 2 * baseTtl := by
  have hle : entry.effectiveTtl baseTtl ≤ 2 * baseTtl := by
    rw [CacheEntry.effectiveTtl]
    split <;> omega
  rw [CacheEntry.isExpired, decide_eq_true_eq] at h
  omega

theorem value_lookup (h : (cache.lookup baseTtl shouldMaintain now key).1 = some value) :
    ∃ entry, cache.peek key = some entry ∧ entry.value = value ∧
      now ≤ entry.lastAccessed + 2 * baseTtl := by
  cases hp : cache.peek key
  case none =>
    rw [lookup_of_none hp] at h
    cases h
  case some entry =>
    by_cases he : entry.isExpired baseTtl now
    case pos =>
      rw [lookup_of_expired hp he] at h
      cases h
    case neg =>
      rw [lookup_of_fresh hp he] at h
      exact ⟨entry, rfl, Option.some_inj.mp h, le_of_fresh he⟩

-- What a lookup leaves behind.
theorem peek_lookup (h : (cache.lookup baseTtl shouldMaintain now key).2.peek key' = some entry') :
    ∃ entry, cache.peek key' = some entry ∧ entry.value = entry'.value ∧
      (entry'.lastAccessed = entry.lastAccessed ∨ shouldMaintain ∧ key = key' ∧
        entry'.lastAccessed = now) := by
  cases hp : cache.peek key
  case none =>
    rw [lookup_of_none hp] at h
    exact ⟨entry', h, rfl, .inl rfl⟩
  case some entry =>
    by_cases he : entry.isExpired baseTtl now
    case pos =>
      rw [lookup_of_expired hp he, peek_remove] at h
      split at h
      case isTrue  => cases h
      case isFalse => exact ⟨entry', h, rfl, .inl rfl⟩
    case neg =>
      rw [lookup_of_fresh hp he] at h
      cases shouldMaintain
      case false => exact ⟨entry', h, rfl, .inl rfl⟩
      case true =>
        rw [if_pos rfl, peek_modify] at h
        split at h
        case isFalse => exact ⟨entry', h, rfl, .inl rfl⟩
        case isTrue hk =>
          subst hk
          rw [hp, Option.map_some] at h
          cases h
          exact ⟨entry, hp, rfl, .inr ⟨rfl, rfl, rfl⟩⟩

-- Of the values that are inserted under a key the last one stays.
theorem peek_foldl {insert : S3FifoCache κ α → α → S3FifoCache κ α} {p : α → Bool}
    (h : ∀ cache value, (insert cache value).peek key = if p value then some (.new value now)
      else cache.peek key)
    {values : List α} : (values.foldl insert cache).peek key =
      ((values.filter p).getLast?.map (CacheEntry.new · now)).or (cache.peek key) := by
  induction values using List.reverseRecOn
  case nil => rfl
  case append_singleton values value hi =>
    rw [List.foldl_append, List.foldl_cons, List.foldl_nil, h, List.filter_append, hi]
    cases hv : p value
    case true  => simp [hv]
    case false => simp [hv]

theorem mem_of_peek (h : cache.peek key = some entry) : (key, entry) ∈ cache.rows := by
  have ⟨row, hr, he⟩ := Option.map_eq_some_iff.mp h
  have ⟨hm, hk⟩ := Table.get?_eq_some_iff.mp hr
  rw [← he, ← hk]
  exact hm

theorem peek_remove_eq_some : (cache.remove key).peek key' = some entry ↔ key' ≠ key ∧
    cache.peek key' = some entry := by
  rw [peek_remove]
  split
  case isTrue hk  => simp [hk]
  case isFalse hk => simp [hk]

theorem peek_foldl_remove_eq_some {keys : List κ} :
    (keys.foldl remove cache).peek key = some entry ↔ key ∉ keys ∧ cache.peek key = some entry := by
  induction keys generalizing cache
  case nil => simp
  case cons key' keys hi =>
    rw [List.foldl_cons, hi, peek_remove_eq_some, List.mem_cons, not_or, and_comm, and_right_comm]

end Cache.S3FifoCache

open Inbox (InboxStatsRow)
open Pattern (Str)
open Search (eqIgnoreAsciiCase toAsciiLowercase)

namespace Cache

open S3FifoCache

variable {α κ : Type} [DecidableEq κ] {slot : Slot α} {cell cell' : Option (CacheEntry α)}
  {entry entry' : CacheEntry α} {index : S3FifoCache κ α} {key key' : κ} {now baseTtl : Nat}
    {shouldMaintain : Bool} {call : Call} {steps : List Step}

namespace Slot

-- What a call can do to the entry of a key: put a new one, keep it, or refresh it.
def Follows (slot : Slot α) (now : Nat) (call : Call) (cell cell' : Option (CacheEntry α)) : Prop :=
  ∀ entry' ∈ cell',
    (slot.puts call).getLast? = some entry'.value ∧ entry'.lastAccessed = now ∨
    slot.puts call = [] ∧ ∃ entry ∈ cell, entry.value = entry'.value ∧
      ¬slot.voids call entry'.value ∧
      (entry'.lastAccessed = entry.lastAccessed ∨ slot.refreshes call ∧ entry'.lastAccessed = now)

theorem follows_of_subset (hp : slot.puts call = [])
    (h : ∀ entry' ∈ cell', entry' ∈ cell ∧ ¬slot.voids call entry'.value) :
    slot.Follows now call cell cell' :=
  fun entry' he => .inr ⟨hp, entry', (h entry' he).left, rfl, (h entry' he).right, .inl rfl⟩

theorem follows_self (hp : slot.puts call = []) (hv : ∀ value, ¬slot.voids call value) :
    slot.Follows now call cell cell :=
  follows_of_subset hp fun _ he => ⟨he, hv _⟩

theorem follows_put {insert : S3FifoCache κ α → α → S3FifoCache κ α} {p : α → Bool}
    (values : List α) (hp : slot.puts call = values.filter p) (hv : ∀ value, ¬slot.voids call value)
    (h : ∀ index value, (insert index value).peek key = if p value then some (.new value now)
      else index.peek key) :
    slot.Follows now call (index.peek key) ((values.foldl insert index).peek key) := by
  have hf : (values.foldl insert index).peek key = _ := peek_foldl h
  rw [← hp] at hf
  cases hl : (slot.puts call).getLast?
  case none =>
    rw [hl, Option.map_none, Option.none_or] at hf
    exact hf ▸ follows_self (List.getLast?_eq_none_iff.mp hl) hv
  case some value =>
    rw [hl, Option.map_some, Option.some_or] at hf
    rintro entry' he
    obtain rfl := Option.some_inj.mp (hf.symm.trans he)
    exact .inl ⟨hl, rfl⟩

theorem follows_lookup (hp : slot.puts call = []) (hv : ∀ value, ¬slot.voids call value)
    (hr : shouldMaintain → key = key' → slot.refreshes call) :
    slot.Follows now call (index.peek key')
      ((index.lookup baseTtl shouldMaintain now key).2.peek key') := by
  intro entry' he
  have ⟨entry, hpe, hval, ht⟩ := peek_lookup he
  exact .inr ⟨hp, entry, hpe, hval, hv _, ht.imp_right fun ⟨hm, hk, hn⟩ => ⟨hr hm hk, hn⟩⟩

-- The entry goes back to the latest value that was put, and to the time at which this was put or
-- refreshed.
def Holds (slot : Slot α) (steps : List Step) (entry : CacheEntry α) : Prop :=
  ∃ t later, slot.Latest steps entry.value t later ∧
    (entry.lastAccessed = t ∨ ∃ call, .call entry.lastAccessed call ∈ later ∧ slot.refreshes call)

theorem Latest.loses {value : α} {t : Nat} {later : List Step} {loss : Loss}
    (h : slot.Latest steps value t later) :
    slot.Latest (steps ++ [.lose loss]) value t (later ++ [.lose loss]) where
  put     := by
    have ⟨earlier, call, hs, hp⟩ := h.put
    exact ⟨earlier, call, by simp [hs], hp⟩
  current := fun now call hm => h.current now call (by simpa using hm)

theorem Latest.keeps {value : α} {t : Nat} {later : List Step} (h : slot.Latest steps value t later)
    (hp : slot.puts call = []) (hv : ¬slot.voids call value) :
    slot.Latest (steps ++ [.call now call]) value t (later ++ [.call now call]) where
  put     := by
    have ⟨earlier, call', hs, hp⟩ := h.put
    exact ⟨earlier, call', by simp [hs], hp⟩
  current := by
    intro now' call' hm
    cases List.mem_append.mp hm
    case inl hm => exact h.current now' call' hm
    case inr hm =>
      obtain ⟨rfl, rfl⟩ := Step.call.inj (List.mem_singleton.mp hm)
      exact ⟨hp, hv⟩

theorem holds_lose {loss : Loss} (h : slot.Holds steps entry) :
    slot.Holds (steps ++ [.lose loss]) entry := by
  have ⟨t, later, hl, ht⟩ := h
  exact ⟨t, _, hl.loses, ht.imp_right fun ⟨call, hm, hr⟩ => ⟨call, List.mem_append_left _ hm, hr⟩⟩

theorem holds_call (h : ∀ entry ∈ cell, slot.Holds steps entry)
    (hf : slot.Follows now call cell cell') :
    ∀ entry' ∈ cell', slot.Holds (steps ++ [.call now call]) entry' := by
  intro entry' he
  rcases hf entry' he with ⟨hp, ht⟩ | ⟨hp, entry, he, hval, hv, ht⟩
  · exact ⟨now, [], ⟨⟨steps, call, rfl, hp⟩, fun _ _ hm => nomatch hm⟩, .inl ht⟩
  · have ⟨t, later, hl, ht'⟩ := h entry he
    refine ⟨t, _, (hval ▸ hl).keeps hp hv, ?_⟩
    rcases ht with heq | ⟨hr, heq⟩
    · rw [heq]
      exact ht'.imp_right fun ⟨call', hm, hr⟩ => ⟨call', List.mem_append_left _ hm, hr⟩
    · exact .inr ⟨call, heq ▸ List.mem_append_right _ (List.mem_singleton_self _), hr⟩

end Slot

end Cache
