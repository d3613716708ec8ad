import Mathlib.Data.Finset.Card
import Mathlib.Data.List.Induction
import Mathlib.Data.List.Nodup
import Mathlib.Tactic.Common

-- Keys of rows that are inserted one after the other, some with a given key. The others get the
-- successor of the greatest key so far, as long as it does not exceed a limit.

namespace RowIds

variable {α : Type} (limit : Int)

def next (top : Int) : Option Int :=
  if top < limit then some (top + 1) else none

-- The greatest key, without knowing which rows were inserted.
def highest (given : List (Option Int)) : Int :=
  given.foldl (fun top key => key.elim (min (top + 1) limit) (max top)) 0

-- No key is chosen that is given to a later row.
def NoneTaken (given : List (Option Int)) : Prop :=
  ∀ before after, given = before ++ none :: after →
    highest limit before < limit ∧ some (highest limit before + 1) ∉ after

-- Every item has its row, where items with the same key share one.
structure Attributed (given : α → Option Int) (items : List α) (keys : List Int)
    (source : Int → α) : Prop where
  mem     : ∀ k ∈ keys, source k ∈ items
  unique  : ∀ a ∈ items, ∀ k ∈ given a, (∀ b ∈ items, given b = some k → b = a) →
    k ∈ keys ∧ source k = a
  missing : ∀ a ∈ items, given a = none → ∃! k, k ∈ keys ∧ source k = a
  shared  : ∀ a ∈ items, ∀ k ∈ given a, ∃! b, (b ∈ items ∧ given b = some k) ∧
    ∃ l ∈ keys, source l = b

-- The items that were inserted, and their keys.
structure Log (given : α → Option Int) (items : List α) (log : List (α × Int)) : Prop where
  sublist : (log.map Prod.fst).Sublist items
  nodup   : (log.map Prod.snd).Nodup
  kept    : ∀ e ∈ log, ∀ k ∈ given e.fst, e.snd = k
  taken   : ∀ a ∈ items, ∀ k ∈ given a, k ∈ log.map Prod.snd
  chosen  : ∀ before a after, items = before ++ a :: after → given a = none →
    ∀ k, (a, k) ∈ log ↔ next limit (highest limit (before.map given)) = some k
  top     : (log.map Prod.snd).foldl max 0 = highest limit (items.map given)

variable {limit} {given : α → Option Int} {items : List α} {log : List (α × Int)} {a b : α}
  {k top : Int}

theorem next_eq_some_iff : next limit top = some k ↔ top < limit ∧ k = top + 1 := by
  rw [next, Option.ite_none_right_eq_some, Option.some.injEq, eq_comm (a := k)]

theorem le_foldl_max {keys : List Int} : top ≤ keys.foldl max top ∧
    ∀ k ∈ keys, k ≤ keys.foldl max top := by
  induction keys generalizing top
  case nil => exact ⟨le_rfl, nofun⟩
  case cons k ks hi =>
    have ⟨ht, hk⟩ := @hi (max top k)
    refine ⟨(le_max_left _ _).trans ht, fun l hl => ?_⟩
    obtain rfl | hl := List.mem_cons.mp hl
    · exact (le_max_right _ _).trans ht
    · exact hk l hl

theorem highest_concat {ks : List (Option Int)} {k : Option Int} :
    highest limit (ks ++ [k]) = k.elim (min (highest limit ks + 1) limit)
      (max (highest limit ks)) := by
  simp [highest]

theorem le_highest_of_mem (h₀ : 0 ≤ limit) {ks : List (Option Int)}
    (hl : ∀ k ∈ ks, ∀ n ∈ k, n ≤ limit) :
    highest limit ks ≤ limit ∧ ∀ k, some k ∈ ks → k ≤ highest limit ks := by
  induction ks using List.reverseRecOn
  case nil => exact ⟨h₀, nofun⟩
  case append_singleton ks k hi =>
    have ⟨ht, hk⟩ := hi fun k h => hl k (List.mem_append_left _ h)
    have hk' := hl k (List.mem_append_right _ (List.mem_singleton_self k))
    rw [highest_concat]
    cases k
    case none =>
      refine ⟨min_le_right _ _, fun l hl => ?_⟩
      have := hk l (by simpa using hl)
      simp only [Option.elim]
      omega
    case some n =>
      have hn := hk' n rfl
      refine ⟨max_le ht hn, fun l hl => ?_⟩
      obtain hl | hl := List.mem_append.mp hl
      · exact (hk l hl).trans (le_max_left _ _)
      · cases List.mem_singleton.mp hl
        exact le_max_right _ _

theorem concat_eq_append_cons {before after : List α} (h : items ++ [a] = before ++ b :: after) :
    (before = items ∧ b = a ∧ after = []) ∨ ∃ after', items = before ++ b :: after' ∧
      after = after' ++ [a] := by
  obtain rfl | ⟨after, c, rfl⟩ := after.eq_nil_or_concat'
  case inl =>
    have ⟨hi, hb⟩ := List.append_inj' h rfl
    cases hb
    exact .inl ⟨hi.symm, rfl, rfl⟩
  case inr =>
    rw [← List.cons_append, ← List.append_assoc] at h
    have ⟨hi, hc⟩ := List.append_inj' h rfl
    cases hc
    exact .inr ⟨after, hi, rfl⟩

namespace Log

theorem nil : Log limit given [] [] where
  sublist := .slnil
  nodup   := .nil
  kept    := nofun
  taken   := nofun
  chosen  := by simp
  top     := rfl

section

variable (hl : Log limit given items log)

include hl

theorem eq_of_key (ha : (a, k) ∈ log) (hb : (b, k) ∈ log) : a = b :=
  congrArg Prod.fst (List.inj_on_of_nodup_map hl.nodup ha hb rfl)

theorem exists_source [Nonempty α] : ∃ source : Int → α, ∀ e ∈ log, source e.snd = e.fst := by
  have h (k : Int) : ∃ a, ∀ b, (b, k) ∈ log → a = b := by
    by_cases h : ∃ a, (a, k) ∈ log
    case pos =>
      have ⟨a, ha⟩ := h
      exact ⟨a, fun b => hl.eq_of_key ha⟩
    case neg => exact ⟨Classical.arbitrary α, fun b hb => (h ⟨b, hb⟩).elim⟩
  choose source hs using h
  exact ⟨source, fun (a, k) => hs k a⟩

theorem mem_items (ha : (a, k) ∈ log) : a ∈ items :=
  hl.sublist.subset (List.mem_map.mpr ⟨_, ha, rfl⟩)

theorem le_highest (hk : k ∈ log.map Prod.snd) : k ≤ highest limit (items.map given) :=
  hl.top ▸ le_foldl_max.right k hk

theorem key_of_given (hg : given a = some k) (ha : (a, top) ∈ log) : top = k :=
  hl.kept _ ha k hg

-- The next item adds no row, because its row exists or because there is no key left for it.
theorem leave (hk : ∀ l ∈ given a, l ∈ log.map Prod.snd)
    (hc : given a = none → ∀ l, (a, l) ∈ log ↔
      next limit (highest limit (items.map given)) = some l)
    (ht : highest limit (items.map given ++ [given a]) = highest limit (items.map given)) :
    Log limit given (items ++ [a]) log where
  sublist := hl.sublist.trans (List.sublist_append_left _ _)
  nodup   := hl.nodup
  kept    := hl.kept
  taken   := by
    intro b hb
    obtain hb | hb := List.mem_append.mp hb
    · exact hl.taken b hb
    · exact List.mem_singleton.mp hb ▸ hk
  chosen  := by
    intro before b after he hb
    obtain ⟨rfl, rfl, rfl⟩ | ⟨after, he', rfl⟩ := concat_eq_append_cons he
    · exact hc hb
    · exact hl.chosen before b after he' hb
  top     := by rw [List.map_append, List.map_singleton, ht, hl.top]

-- The next item adds a row.
theorem add (hk : k ∉ log.map Prod.snd) (hg : ∀ l ∈ given a, k = l)
    (hb : ∀ b ∈ items, given b = none → b ≠ a)
    (hc : given a = none → ∀ l, (a, l) ∈ log ++ [(a, k)] ↔
      next limit (highest limit (items.map given)) = some l)
    (ht : highest limit (items.map given ++ [given a]) = max (highest limit (items.map given)) k) :
    Log limit given (items ++ [a]) (log ++ [(a, k)]) where
  sublist := by
    rw [List.map_append]
    exact hl.sublist.append_right _
  nodup   := by
    rw [List.map_append]
    exact List.nodup_append.mpr ⟨hl.nodup, List.nodup_singleton _, by
      rintro l hl' m hm rfl
      cases List.mem_singleton.mp hm
      exact hk hl'⟩
  kept    := by
    intro e he
    obtain he | he := List.mem_append.mp he
    · exact hl.kept e he
    · exact List.mem_singleton.mp he ▸ hg
  taken   := by
    intro b hb l hl'
    rw [List.map_append]
    obtain hb | hb := List.mem_append.mp hb
    · exact List.mem_append_left _ (hl.taken b hb l hl')
    · cases List.mem_singleton.mp hb
      exact List.mem_append_right _ (List.mem_singleton.mpr (hg l hl').symm)
  chosen  := by
    intro before b after he hn l
    obtain ⟨rfl, rfl, rfl⟩ | ⟨after, he', rfl⟩ := concat_eq_append_cons he
    · exact hc hn l
    · rw [← hl.chosen before b after he' hn, List.mem_append, or_iff_left]
      intro h
      have hm : b ∈ items := he' ▸ List.mem_append_right _ List.mem_cons_self
      exact hb b hm hn (congrArg Prod.fst (List.mem_singleton.mp h))
  top     := by
    rw [List.map_append, List.map_append, List.map_singleton, List.map_singleton, ht,
      List.foldl_append, hl.top]
    rfl

-- The row of the next item exists.
theorem skip (hg : given a = some k) (hk : k ∈ log.map Prod.snd) :
    Log limit given (items ++ [a]) log := by
  refine hl.leave (fun l hl' => ?_) (fun hn => ?_) ?_
  · cases hg.symm.trans hl'
    exact hk
  · cases hn.symm.trans hg
  · rw [hg, highest_concat]
    exact max_eq_left (hl.le_highest hk)

theorem insert (hg : given a = some k) (hk : k ∉ log.map Prod.snd) :
    Log limit given (items ++ [a]) (log ++ [(a, k)]) := by
  refine hl.add hk (fun l hl' => Option.some.inj (hg.symm.trans hl')) (fun b _ hn he => ?_)
    (fun hn => ?_) ?_
  · cases hn.symm.trans (he ▸ hg)
  · cases hn.symm.trans hg
  · rw [hg, highest_concat, Option.elim_some]

-- The next item gets a key.
theorem choose (ha : a ∉ items) (hg : given a = none)
    (hk : next limit (highest limit (items.map given)) = some k) :
    Log limit given (items ++ [a]) (log ++ [(a, k)]) := by
  have ⟨hlt, hk'⟩ := next_eq_some_iff.mp hk
  refine hl.add (fun hm => ?_) (fun l hl' => ?_) (fun b hb _ he => ha (he ▸ hb)) (fun _ l => ?_) ?_
  · have := hl.le_highest hm
    omega
  · cases hg.symm.trans hl'
  · rw [hk, List.mem_append, or_iff_right fun h => ha (hl.mem_items h)]
    simp [eq_comm]
  · rw [hg, highest_concat, hk', Option.elim_none]
    omega

-- The next item cannot get a key.
theorem refuse (h₀ : 0 ≤ limit) (hb : ∀ a ∈ items, ∀ k ∈ given a, k ≤ limit) (ha : a ∉ items)
    (hg : given a = none) (hk : next limit (highest limit (items.map given)) = none) :
    Log limit given (items ++ [a]) log := by
  have hle := (le_highest_of_mem h₀ (List.forall_mem_map.mpr hb)).left
  have hlt : ¬highest limit (items.map given) < limit := fun h => by simp [next, h] at hk
  refine hl.leave (fun l hl' => ?_) (fun _ l => ?_) ?_
  · cases hg.symm.trans hl'
  · rw [hk]
    exact iff_of_false (fun h => ha (hl.mem_items h)) (Option.some_ne_none l).symm
  · rw [hg, highest_concat, Option.elim_none]
    omega

-- Without a clash, a given key is the key of an item to which it was given.
theorem exists_given (h₀ : 0 ≤ limit) (hb : ∀ a ∈ items, ∀ k ∈ given a, k ≤ limit)
    (hn : NoneTaken limit (items.map given)) (ha : a ∈ items) (hg : given a = some k) :
    ∃ b, given b = some k ∧ (b, k) ∈ log := by
  have ⟨⟨b, l⟩, hbk, (hk : l = k)⟩ := List.mem_map.mp (hl.taken a ha k hg)
  subst hk
  cases hgb : given b
  case some k => exact ⟨b, hl.key_of_given hgb hbk ▸ hgb, hbk⟩
  case none   =>
    have ⟨before, after, he⟩ := List.append_of_mem (hl.mem_items hbk)
    have ⟨_, hk⟩ := next_eq_some_iff.mp ((hl.chosen before b after he hgb l).mp hbk)
    subst he
    have he : (before ++ b :: after).map given = before.map given ++ none :: after.map given := by
      rw [List.map_append, List.map_cons, hgb]
    have hm : some l ∈ before.map given ++ none :: after.map given :=
      he ▸ List.mem_map.mpr ⟨a, ha, hg⟩
    have ⟨_, hn⟩ := hn _ _ he
    obtain hm | hm := List.mem_append.mp hm
    · have hb' : ∀ k ∈ before.map given, ∀ n ∈ k, n ≤ limit :=
        List.forall_mem_map.mpr fun a ha => hb a (List.mem_append_left _ ha)
      have := (le_highest_of_mem h₀ hb').right l hm
      omega
    · cases List.mem_cons.mp hm
      case inl h => cases h
      case inr h => exact (hn (hk ▸ h)).elim

theorem attributed (h₀ : 0 ≤ limit) (hb : ∀ a ∈ items, ∀ k ∈ given a, k ≤ limit)
    (hn : NoneTaken limit (items.map given)) {source : Int → α}
    (hs : ∀ e ∈ log, source e.snd = e.fst) : Attributed given items (log.map Prod.snd) source where
  mem     := List.forall_mem_map.mpr fun e he => hs e he ▸ hl.mem_items he
  unique  := by
    intro a ha k hk hu
    have ⟨b, hgb, hbk⟩ := hl.exists_given h₀ hb hn ha hk
    exact ⟨hl.taken a ha k hk, (hs _ hbk).trans (hu b (hl.mem_items hbk) hgb)⟩
  missing := by
    intro a ha hg
    have ⟨before, after, he⟩ := List.append_of_mem ha
    have ⟨hlt, _⟩ := hn (before.map given) (after.map given) (by simp [he, hg])
    have hc := hl.chosen before a after he hg
    have hm := (hc _).mpr (next_eq_some_iff.mpr ⟨hlt, rfl⟩)
    refine ⟨_, ⟨List.mem_map.mpr ⟨_, hm, rfl⟩, hs _ hm⟩, fun k ⟨hk, ha⟩ => ?_⟩
    have ⟨⟨b, l⟩, hbk, (hk : l = k)⟩ := List.mem_map.mp hk
    subst hk
    cases (hs _ hbk).symm.trans ha
    exact (next_eq_some_iff.mp ((hc l).mp hbk)).right
  shared  := by
    intro a ha k hk
    have ⟨b, hgb, hbk⟩ := hl.exists_given h₀ hb hn ha hk
    refine ⟨b, ⟨⟨hl.mem_items hbk, hgb⟩, k, List.mem_map.mpr ⟨_, hbk, rfl⟩, hs _ hbk⟩, ?_⟩
    intro c ⟨⟨_, hgc⟩, l, hl', hc⟩
    have ⟨⟨c', _⟩, hcl, hl'⟩ := List.mem_map.mp hl'
    cases hl'
    cases (hs _ hcl).symm.trans hc
    cases hl.key_of_given hgc hcl
    exact hl.eq_of_key hcl hbk

end

end Log

variable {keys : List Int} {source : Int → α}

-- How many rows there must be at least.
theorem Attributed.length_le (ha : Attributed given items keys source) (hi : items.Nodup) :
    (items.filter fun a => (given a).isNone).length + (items.filterMap given).dedup.length ≤
      keys.length := by
  rw [keys.length_eq_length_filter_add fun k => (given (source k)).isNone]
  refine Nat.add_le_add ?_ ?_
  · have h : (items.filter fun a => (given a).isNone) ⊆
        (keys.filter fun k => (given (source k)).isNone).map source := by
      intro a hm
      have ⟨hm, hg⟩ := List.mem_filter.mp hm
      have ⟨k, ⟨hk, hs⟩, _⟩ := ha.missing a hm (Option.isNone_iff_eq_none.mp hg)
      exact List.mem_map.mpr ⟨k, List.mem_filter.mpr ⟨hk, hs ▸ hg⟩, hs⟩
    have := (List.subperm_of_subset (hi.filter _) h).length_le
    rwa [List.length_map] at this
  · have h : (items.filterMap given).dedup ⊆
        (keys.filter fun k => !(given (source k)).isNone).filterMap fun k => given (source k) := by
      intro k hm
      have ⟨a, hm, hg⟩ := List.mem_filterMap.mp (List.mem_dedup.mp hm)
      have ⟨b, ⟨⟨_, hb⟩, l, hl, hs⟩, _⟩ := ha.shared a hm k hg
      have hb : given (source l) = some k := hs ▸ hb
      exact List.mem_filterMap.mpr ⟨l, List.mem_filter.mpr ⟨hl, by simp [hb]⟩, hb⟩
    exact (List.subperm_of_subset (List.nodup_dedup _) h).length_le.trans
      (List.length_filterMap_le _ _)

-- The rows are not more than the items without a key and the given keys, so that there is one for
-- each.
theorem Log.noneTaken (hl : Log limit given items log) (hi : items.Nodup)
    (ha : Attributed given items (log.map Prod.snd) source) :
    NoneTaken limit (items.map given) := by
  have hle := ha.length_le hi
  rw [List.length_map, log.length_eq_length_filter_add fun e => (given e.fst).isNone] at hle
  have hs := hl.sublist.filter fun a => (given a).isNone
  rw [List.filter_map] at hs
  have hn : ((log.filter fun e => !(given e.fst).isNone).map Prod.snd).Nodup :=
    (List.filter_sublist.map Prod.snd).nodup hl.nodup
  have hsub : (log.filter fun e => !(given e.fst).isNone).map Prod.snd ⊆
      (items.filterMap given).dedup := by
    refine List.forall_mem_map.mpr fun e he => ?_
    have ⟨he, hg⟩ := List.mem_filter.mp he
    have ⟨k, hk⟩ : ∃ k, given e.fst = some k := Option.isSome_iff_exists.mp (by simpa using hg)
    exact List.mem_dedup.mpr (List.mem_filterMap.mpr ⟨_, hl.mem_items he, hl.kept e he k hk ▸ hk⟩)
  have hsp := List.subperm_of_subset hn hsub
  have hl₀ := hs.length_le
  have hl₁ := hsp.length_le
  simp only [List.length_map, Function.comp_def] at hl₀ hl₁
  have hall := hs.eq_of_length_le (by simp only [List.length_map, Function.comp_def]; omega)
  have hperm := hsp.perm_of_length_le (by simp only [List.length_map]; omega)
  intro before after he
  obtain ⟨before, rest, rfl, rfl, hr⟩ := List.map_eq_append_iff.mp he
  obtain ⟨a, after, rfl, hg, rfl⟩ := List.map_eq_cons_iff.mp hr
  have ham : a ∈ (before ++ a :: after).filter fun a => (given a).isNone :=
    List.mem_filter.mpr ⟨List.mem_append_right _ List.mem_cons_self,
      Option.isNone_iff_eq_none.mpr hg⟩
  rw [← hall] at ham
  have ⟨⟨a', k⟩, hak, (ha' : a' = a)⟩ := List.mem_map.mp ham
  subst ha'
  have hak := List.mem_of_mem_filter hak
  have ⟨hlt, hk⟩ := next_eq_some_iff.mp ((hl.chosen before _ after rfl hg k).mp hak)
  refine ⟨hlt, fun hm => ?_⟩
  have ⟨b, hb, hgb⟩ := List.mem_map.mp hm
  have hkm : k ∈ ((before ++ a' :: after).filterMap given).dedup :=
    List.mem_dedup.mpr (List.mem_filterMap.mpr
      ⟨b, List.mem_append_right _ (List.mem_cons_of_mem _ hb), hk ▸ hgb⟩)
  have ⟨⟨c, l⟩, hcl, (hlk : l = k)⟩ := List.mem_map.mp (hperm.mem_iff.mpr hkm)
  subst hlk
  have ⟨hcl, hgc⟩ := List.mem_filter.mp hcl
  cases hl.eq_of_key hcl hak
  simp [hg] at hgc

end RowIds
