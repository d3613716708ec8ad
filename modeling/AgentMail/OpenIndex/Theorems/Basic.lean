import AgentMail.OpenIndex.Basic

open List (Perm)
open Pattern (Str)

namespace OpenIndex

-- An entry up to the flag, which is the only part of it that changes.
def OpenExperienceEntry.unflagged (e : OpenExperienceEntry) : OpenExperienceEntry :=
  { e with potentiallyConfounded := false }

section Entries

variable {entries : Entries} {p : OpenExperienceEntry → Bool} {flag : Bool}
  {e : OpenExperienceEntry} {id : Nat}
variable {rows rows' : List OpenExperienceEntry}

theorem unflagged_eq_self (h : e.potentiallyConfounded = false) : e.unflagged = e := by
  rw [OpenExperienceEntry.unflagged, ← h]

theorem experienceId_eq {e' : OpenExperienceEntry} (h : e.unflagged = e'.unflagged) :
    e.experienceId = e'.experienceId := by
  have h : e.unflagged.experienceId = e'.unflagged.experienceId := congrArg _ h
  exact h

theorem unflagged_setConfounded :
    (entries.setConfounded p flag).rows.map (·.unflagged) = entries.rows.map (·.unflagged) := by
  simp only [Entries.setConfounded, Table.update, List.map_map]
  refine List.map_congr_left fun e _ => ?_
  rw [Function.comp_apply]
  split <;> rfl

theorem mem_setConfounded : e ∈ (entries.setConfounded p flag).rows ↔
    ∃ e' ∈ entries.rows, e = if p e' then { e' with potentiallyConfounded := flag } else e' := by
  simp only [Entries.setConfounded, Table.update, List.mem_map, eq_comm]

theorem rows_put (h : entries.get? e.experienceId = none) :
    (entries.put e).rows = entries.rows ++ [e] := by
  have hd : entries.delete (·.experienceId = e.experienceId) = entries := by
    refine Table.ext (List.filter_eq_self.mpr fun e' he' => ?_)
    simpa using Table.get?_eq_none_iff.mp h e' he'
  rw [Entries.put, hd, Table.rows_insertOrIgnore h]

-- Maps do not depend on the flags of the entries that they list.
theorem lists_of_unflagged {κ : Type} [LinearOrder κ] {m : MultiMap κ Nat}
    {f : OpenExperienceEntry → κ} (hf : ∀ e, f e.unflagged = f e)
    (h : rows.map (·.unflagged) = rows'.map (·.unflagged)) (hm : m.Lists f (·.experienceId) rows') :
    m.Lists f (·.experienceId) rows := by
  have h := congrArg (List.map fun e => (f e, e.experienceId)) h
  simp only [List.map_map, Function.comp_def, hf] at h
  exact hm.trans (.of_eq h.symm)

theorem exists_of_unflagged (h : rows.map (·.unflagged) = rows'.map (·.unflagged)) (he : e ∈ rows) :
    ∃ e' ∈ rows', e'.unflagged = e.unflagged :=
  List.mem_map.mp (h ▸ List.mem_map_of_mem he)

end Entries

-- Every entry that shares its subject with another one is flagged, and no other entry is.
def Flagged (rows : List OpenExperienceEntry) : Prop :=
  ∀ e ∈ rows, e.potentiallyConfounded = true ↔
    ∃ e' ∈ rows, e'.experienceId ≠ e.experienceId ∧ subjectKey e' = subjectKey e

structure Consistent (index : OpenExperienceIndex) : Prop where
  subjects     : index.bySubject.Lists subjectKey (·.experienceId) index.entries.rows
  subjects_ne  : index.bySubject.NoEmpty
  creations    : index.byCreation.Lists (·.createdTsMicros) (·.experienceId) index.entries.rows
  creations_ne : index.byCreation.NoEmpty
  flagged      : Flagged index.entries.rows
  len_le       : index.len ≤ index.capacity
  capacity_pos : 0 < index.capacity

def Balanced (index : OpenExperienceIndex) : Prop :=
  index.totalAdded =
    index.len + index.totalResolved + index.totalExpired + index.totalCensored + index.totalEvicted

section Removal

variable {rows : List OpenExperienceEntry} {entry : OpenExperienceEntry}

-- The flags stay right if those that shared the subject of the removed entry still share it with
-- another one.
theorem Flagged.filter (h : Flagged rows) (hn : (rows.map (·.experienceId)).Nodup)
    (he : entry ∈ rows)
    (hs : ∀ e ∈ rows.filter (·.experienceId ≠ entry.experienceId), subjectKey e = subjectKey entry →
      ∃ e' ∈ rows.filter (·.experienceId ≠ entry.experienceId), e'.experienceId ≠ e.experienceId ∧
        subjectKey e' = subjectKey e) :
    Flagged (rows.filter (·.experienceId ≠ entry.experienceId)) := by
  intro e hek
  rw [h e (List.mem_filter.mp hek).left]
  constructor
  case mp =>
    intro ⟨e', he', hne, hk⟩
    by_cases hid : e'.experienceId = entry.experienceId
    case pos =>
      obtain rfl := List.inj_on_of_nodup_map hn he' he hid
      exact hs e hek hk.symm
    case neg => exact ⟨e', List.mem_filter.mpr ⟨he', by simpa using hid⟩, hne, hk⟩
  case mpr =>
    intro ⟨e', he', h⟩
    exact ⟨e', (List.mem_filter.mp he').left, h⟩

-- The last entry of the subject is not flagged any more.
theorem Flagged.filter_last {entries : Entries} {id : Nat} (h : Flagged rows)
    (hn : (rows.map (·.experienceId)).Nodup) (he : entry ∈ rows)
    (hr : entries.rows = rows.filter (·.experienceId ≠ entry.experienceId))
    (hs : ∀ e ∈ entries.rows, subjectKey e = subjectKey entry ↔ e.experienceId = id) :
    Flagged (entries.setConfounded (·.experienceId = id) false).rows := by
  have key (e : OpenExperienceEntry) (p : Prop) [Decidable p] :
      subjectKey (if p then { e with potentiallyConfounded := false } else e) = subjectKey e ∧
        (if p then { e with potentiallyConfounded := false } else e).experienceId =
          e.experienceId := by
    split <;> exact ⟨rfl, rfl⟩
  intro e hem
  have ⟨e₀, he₀, heq⟩ := mem_setConfounded.mp hem
  simp only [decide_eq_true_eq] at heq
  by_cases hid : e₀.experienceId = id
  case pos =>
    rw [if_pos hid] at heq
    subst heq
    refine iff_of_false Bool.false_ne_true fun ⟨e', hem', hne, hk⟩ => hne ?_
    have ⟨e₁, he₁, heq⟩ := mem_setConfounded.mp hem'
    have ⟨hk₁, hid₁⟩ := key e₁ (e₁.experienceId = id)
    simp only [decide_eq_true_eq] at heq
    subst heq
    rw [hid₁, (hs e₁ he₁).mp (hk₁ ▸ hk ▸ (hs e₀ he₀).mpr hid), ← hid]
  case neg =>
    rw [if_neg hid] at heq
    subst heq
    have he₀' := List.mem_filter.mp (hr ▸ he₀)
    rw [h e he₀'.left]
    constructor
    case mp =>
      intro ⟨e', he', hne, hk⟩
      have hid' : e'.experienceId ≠ entry.experienceId := by
        intro hid'
        obtain rfl := List.inj_on_of_nodup_map hn he' he hid'
        exact hid ((hs e he₀).mp hk.symm)
      have he' : e' ∈ entries.rows := hr ▸ List.mem_filter.mpr ⟨he', by simpa using hid'⟩
      have ⟨hk', hid'⟩ := key e' (e'.experienceId = id)
      exact ⟨_, mem_setConfounded.mpr ⟨e', he', by simp only [decide_eq_true_eq]⟩,
        hid' ▸ hne, hk' ▸ hk⟩
    case mpr =>
      intro ⟨e', hem', hne, hk⟩
      have ⟨e₁, he₁, heq⟩ := mem_setConfounded.mp hem'
      have ⟨hk₁, hid₁⟩ := key e₁ (e₁.experienceId = id)
      simp only [decide_eq_true_eq] at heq
      subst heq
      exact ⟨e₁, (List.mem_filter.mp (hr ▸ he₁)).left, hid₁ ▸ hne, hk₁ ▸ hk⟩

end Removal

section Remove

open OpenExperienceIndex

variable {index : OpenExperienceIndex} {entry : OpenExperienceEntry} {id : Nat}

-- What is left of the entries when one of them is taken out.
def Leaves (index index' : OpenExperienceIndex) (id : Nat) : Prop :=
  index'.entries.rows.map (·.unflagged) =
    (index.entries.rows.filter (·.experienceId ≠ id)).map (·.unflagged)

structure TakenFromSubject (index index' : OpenExperienceIndex) (id : Nat) : Prop where
  leaves      : Leaves index index' id
  subjects    : index'.bySubject.Lists subjectKey (·.experienceId) index'.entries.rows
  subjects_ne : index'.bySubject.NoEmpty
  flagged     : Flagged index'.entries.rows
  same        : index' = { index with entries := index'.entries, bySubject := index'.bySubject }

theorem takenFromSubject (h : Consistent index) (hg : index.entries.get? id = some entry) :
    TakenFromSubject index
      (removeFromSubject { index with entries := index.entries.delete (·.experienceId = id) }
        entry id) id := by
  obtain ⟨he, hid⟩ := Table.get?_eq_some_iff.mp hg
  have hrows : (index.entries.delete (·.experienceId = id)).rows =
      index.entries.rows.filter (·.experienceId ≠ entry.experienceId) := by
    simp [Table.delete, hid]
  have hm := h.subjects.take index.entries.nodup he
  have hne := @MultiMap.NoEmpty.dropIfEmpty_modify _ _ _ _ (subjectKey entry) h.subjects_ne
    (·.filter (· ≠ entry.experienceId))
  generalize hmod : index.bySubject.modify (subjectKey entry) (·.filter (· ≠ entry.experienceId)) =
    m at hm hne
  rw [hid] at hmod hrows
  rw [hid, ← hrows] at hm
  -- Those that shared the subject are in its set.
  have hset {ids : List Nat} (hk : m.get? (subjectKey entry) = some ids) {e : OpenExperienceEntry}
      (he : e ∈ (index.entries.delete (·.experienceId = id)).rows) :
      subjectKey e = subjectKey entry ↔ e.experienceId ∈ ids := by
    rw [hm.mem_iff hk]
    refine ⟨fun hs => ⟨e, he, rfl, hs⟩, ?_⟩
    rintro ⟨e', he', hid', hs⟩
    exact List.inj_on_of_nodup_map (index.entries.delete _).nodup he' he hid' ▸ hs
  have hflags (hs : ∀ e ∈ index.entries.rows.filter (·.experienceId ≠ entry.experienceId),
      subjectKey e = subjectKey entry →
        ∃ e' ∈ index.entries.rows.filter (·.experienceId ≠ entry.experienceId),
          e'.experienceId ≠ e.experienceId ∧ subjectKey e' = subjectKey e) :
      Flagged (index.entries.delete (·.experienceId = id)).rows := by
    rw [hrows, ← hid]
    exact h.flagged.filter index.entries.nodup he hs
  have hleaves :
      Leaves index { index with entries := index.entries.delete (·.experienceId = id) } id :=
    congrArg _ hrows
  simp only [removeFromSubject, hmod, reconcileSubjectConfounding]
  have hn := hm.nodup (index.entries.delete _).nodup
  split
  case h_1 hk =>
    have hd : m.dropIfEmpty (subjectKey entry) = m.erase (subjectKey entry) := by
      simp [MultiMap.dropIfEmpty, hk]
    refine ⟨hleaves, hd ▸ MultiMap.lists_dropIfEmpty_iff.mpr hm, hd ▸ hne,
      hflags fun e he hs => ?_, rfl⟩
    rw [hid, ← hrows] at he
    exact absurd ((hset hk he).mp hs) List.not_mem_nil
  case h_2 id' hk =>
    have hd : m.dropIfEmpty (subjectKey entry) = m := by simp [MultiMap.dropIfEmpty, hk]
    refine ⟨unflagged_setConfounded.trans hleaves,
      lists_of_unflagged (fun _ => rfl) unflagged_setConfounded hm, hd ▸ hne, ?_, rfl⟩
    refine h.flagged.filter_last index.entries.nodup he (hid ▸ hrows) fun e he => ?_
    rw [hset hk he, List.mem_singleton]
  case h_3 hnil hone =>
    have hd : m.dropIfEmpty (subjectKey entry) = m := by
      unfold MultiMap.dropIfEmpty
      split
      case h_1 hk => exact absurd hk hnil
      case h_2    => rfl
    refine ⟨hleaves, hm, hd ▸ hne, hflags fun e he hs => ?_, rfl⟩
    rw [hid, ← hrows] at he
    obtain ⟨ids, hk, hmem⟩ := hm.exists_get? he
    rw [hs] at hk
    obtain ⟨id', hid', hne⟩ : ∃ id' ∈ ids, id' ≠ e.experienceId := by
      by_contra hall
      push Not at hall
      have hids : ids = [e.experienceId] :=
        List.perm_singleton.mp
          ((List.perm_ext_iff_of_nodup (MultiMap.nodup_of_get? hn hk) (List.nodup_singleton _)).mpr
          fun i => ⟨fun hi => List.mem_singleton.mpr (hall i hi),
            fun hi => List.mem_singleton.mp hi ▸ hmem⟩)
      exact hone _ (hids ▸ hk)
    obtain ⟨e', he', hid'', hs'⟩ := (hm.mem_iff hk).mp hid'
    rw [hid, ← hrows]
    exact ⟨e', he', hid'' ▸ hne, hs'.trans hs.symm⟩

structure Removed (index index' : OpenExperienceIndex) (id : Nat) : Prop where
  leaves     : Leaves index index' id
  consistent : Consistent index'
  len        : index'.len + 1 = index.len
  same       : index' =
    { index with
      entries := index'.entries, bySubject := index'.bySubject, byCreation := index'.byCreation }

theorem remove_eq_none (hg : index.entries.get? id = none) : index.remove id = (index, none) := by
  simp only [remove, hg]

theorem removed_remove (h : Consistent index) (hg : index.entries.get? id = some entry) :
    Removed index (index.remove id).1 id ∧ (index.remove id).2 = some entry := by
  have ⟨he, hid⟩ := Table.get?_eq_some_iff.mp hg
  have ht := takenFromSubject h hg
  have hc : ((index.byCreation.modify entry.createdTsMicros (·.filter (· ≠ id))).dropIfEmpty
      entry.createdTsMicros).Lists (·.createdTsMicros) (·.experienceId)
        (index.entries.rows.filter (·.experienceId ≠ id)) := by
    rw [← hid]
    exact MultiMap.lists_dropIfEmpty_iff.mpr (h.creations.take index.entries.nodup he)
  have hlen := congrArg List.length ht.leaves
  simp only [List.length_map] at hlen
  have hdel := Table.length_delete hg
  have hrows : (index.entries.delete (·.experienceId = id)).rows.length =
      (index.entries.rows.filter (·.experienceId ≠ id)).length := by
    simp [Table.delete]
  simp only [remove, hg]
  generalize removeFromSubject { index with entries := index.entries.delete (·.experienceId = id) }
    entry id =
    index' at ht hlen
  have hcreation : index'.byCreation = index.byCreation := by rw [ht.same]
  have hcapacity : index'.capacity = index.capacity := by rw [ht.same]
  have hl : index'.len + 1 = index.len := by
    simp only [len]
    omega
  refine ⟨⟨ht.leaves, ⟨ht.subjects, ht.subjects_ne, ?_, ?_, ht.flagged, ?_,
    hcapacity ▸ h.capacity_pos⟩, hl, ?_⟩, trivial⟩
  · exact lists_of_unflagged (fun _ => rfl) ht.leaves (hcreation ▸ hc)
  · exact hcreation ▸ h.creations_ne.dropIfEmpty_modify
  · have := h.len_le
    simp only [len, hcapacity] at *
    omega
  · rw [ht.same]

theorem Leaves.get?_ne_none {index' : OpenExperienceIndex} (hl : Leaves index index' id)
    (he : entry ∈ index.entries.rows) (hne : entry.experienceId ≠ id) :
    index'.entries.get? entry.experienceId ≠ none := by
  have hmem : entry ∈ index.entries.rows.filter (·.experienceId ≠ id) :=
    List.mem_filter.mpr ⟨he, by simpa using hne⟩
  have ⟨e, he, hu⟩ := exists_of_unflagged hl.symm hmem
  rw [Ne, Table.get?_eq_none_iff]
  exact fun hall => hall e he (experienceId_eq hu)

theorem Leaves.get?_eq_none {index' : OpenExperienceIndex} {k : Nat} (hl : Leaves index index' id)
    (h : index.entries.get? k = none) : index'.entries.get? k = none := by
  rw [Table.get?_eq_none_iff] at *
  intro e he
  have ⟨e', he', hu⟩ := exists_of_unflagged hl he
  exact experienceId_eq hu ▸ h e' (List.mem_filter.mp he').left

end Remove

section Evict

open OpenExperienceIndex

variable {index : OpenExperienceIndex} {entry : OpenExperienceEntry} {id fuel : Nat}

theorem dropLast_eq_filter {ids : List Nat} (hn : ids.Nodup) (h : ids.getLast? = some id) :
    ids.dropLast = ids.filter (· ≠ id) := by
  have hl := List.dropLast_append_getLast? id h
  rw [← hl, List.nodup_append] at hn
  conv_rhs => rw [← hl]
  have hf : ids.dropLast.filter (· ≠ id) = ids.dropLast :=
    List.filter_eq_self.mpr fun a ha => by
      simpa using hn.right.right a ha id (List.mem_singleton_self _)
  rw [List.filter_append, hf]
  simp

theorem removeFromSubject_byCreation {byCreation : MultiMap Int Nat} :
    removeFromSubject { index with byCreation } entry id =
      { removeFromSubject index entry id with byCreation } := by
  simp only [removeFromSubject, reconcileSubjectConfounding]
  split <;> rfl

theorem evictOldest_eq (h : Consistent index) (hl : 0 < index.len) : ∃ e ∈ index.entries.rows,
    (∀ e' ∈ index.entries.rows, e.createdTsMicros ≤ e'.createdTsMicros) ∧
      index.evictOldest = { (index.remove e.experienceId).1 with
        totalEvicted := index.totalEvicted + 1 } := by
  have ⟨e₀, he₀⟩ := List.exists_mem_of_length_pos hl
  have ⟨_, hk₀, _⟩ := h.creations.exists_get? he₀
  have hb : ∃ ts ids rest, index.byCreation.entries = (ts, ids) :: rest := by
    cases hes : index.byCreation.entries
    case nil         => exact absurd (hes ▸ MultiMap.get?_eq_some_iff.mp hk₀) List.not_mem_nil
    case cons b rest => exact ⟨b.1, b.2, rest, rfl⟩
  have ⟨ts, ids, rest, hes⟩ := hb
  have hmem : (ts, ids) ∈ index.byCreation.entries := hes ▸ List.mem_cons_self
  have hk := MultiMap.get?_eq_some_iff.mpr hmem
  have hlast : ∃ id, ids.getLast? = some id :=
    Option.isSome_iff_exists.mp (by simpa using h.creations_ne _ hmem)
  have ⟨id, hlast⟩ := hlast
  have ⟨e, he, hid, hts⟩ := (h.creations.mem_iff hk).mp (List.mem_of_getLast? hlast)
  have hget : index.entries.get? id = some e := Table.get?_eq_some_iff.mpr ⟨he, hid⟩
  refine ⟨e, he, fun e' he' => ?_, ?_⟩
  · have ⟨ids', hk', _⟩ := h.creations.exists_get? he'
    have hmem' := MultiMap.get?_eq_some_iff.mp hk'
    rw [hes] at hmem'
    rw [hts]
    obtain hh | ht := List.mem_cons.mp hmem'
    · exact (congrArg Prod.fst hh).ge
    · have hs := index.byCreation.sorted
      rw [hes] at hs
      exact ((List.pairwise_cons.mp hs).left _ ht).le
  · have hf : index.byCreation.modify ts List.dropLast =
        index.byCreation.modify ts (·.filter (· ≠ id)) := by
      refine MultiMap.modify_congr fun ids' hk' => ?_
      obtain rfl := Option.some.inj (hk.symm.trans hk')
      exact dropLast_eq_filter (MultiMap.nodup_of_get? (h.creations.nodup index.entries.nodup) hk)
        hlast
    have hr := takenFromSubject h hget
    simp only [evictOldest, hes, hlast, hget, remove, hid, hts, hf]
    have hb :=
      @removeFromSubject_byCreation { index with
        entries := index.entries.delete (·.experienceId = id) } e id
      ((index.byCreation.modify ts (·.filter (· ≠ id))).dropIfEmpty ts)
    simp only at hb
    rw [hb, hr.same]

-- What the loop of an addition leaves: there is room for one more entry, and what is gone was among
-- the oldest.
structure Evicted (index index' : OpenExperienceIndex) : Prop where
  consistent : Consistent index'
  lt         : index'.len < index'.capacity
  capacity   : index'.capacity = index.capacity
  window     : index'.resolutionWindowMicros = index.resolutionWindowMicros
  balanced   : Balanced index → Balanced index'
  absent     : ∀ id, index.entries.get? id = none → index'.entries.get? id = none
  oldest     : ∀ e ∈ index.entries.rows, index'.entries.get? e.experienceId = none →
    ∀ e' ∈ index.entries.rows, e.createdTsMicros ≤ e'.createdTsMicros

theorem evicted_evictOldest (h : Consistent index) (hl : index.len = index.capacity) :
    Evicted index index.evictOldest := by
  have ⟨e, he, hmin, hev⟩ := evictOldest_eq h (hl ▸ h.capacity_pos)
  have ⟨hr, _⟩ := removed_remove h (Table.get?_key he)
  generalize (index.remove e.experienceId).1 = removed at hev hr
  have hcapacity : removed.capacity = index.capacity := by rw [hr.same]
  have hlen := hr.len
  rw [hev]
  have hc := hr.consistent
  refine ⟨⟨hc.subjects, hc.subjects_ne, hc.creations, hc.creations_ne, hc.flagged, hc.len_le,
    hc.capacity_pos⟩, ?_, hcapacity, ?_, ?_, fun _ => hr.leaves.get?_eq_none, fun e' he' hnone =>
      ?_⟩
  · simp only [len] at *
    omega
  · rw [hr.same]
  · intro hb
    have hlen : removed.entries.rows.length + 1 = index.entries.rows.length := hlen
    rw [hr.same]
    simp only [Balanced, len] at *
    omega
  · by_cases hid : e'.experienceId = e.experienceId
    case pos => exact List.inj_on_of_nodup_map index.entries.nodup he' he hid ▸ hmin
    case neg => exact absurd hnone (hr.leaves.get?_ne_none he' hid)

theorem evictWhileFull_of_lt (h : index.len < index.capacity) :
    index.evictWhileFull fuel = some index := by
  cases fuel <;> exact if_neg (Nat.not_le.mpr h)

theorem Evicted.refl (h : Consistent index) (hl : index.len < index.capacity) :
    Evicted index index := by
  refine ⟨h, hl, rfl, rfl, id, fun _ => id, fun e he hnone => ?_⟩
  exact absurd (Table.get?_key he) (hnone ▸ nofun)

-- One round is enough.
theorem evicted_evictWhileFull (h : Consistent index) :
    ∃ index', index.evictWhileFull (fuel + 1) = some index' ∧ Evicted index index' := by
  by_cases hl : index.len < index.capacity
  case pos => exact ⟨index, evictWhileFull_of_lt hl, .refl h hl⟩
  case neg =>
    have he := evicted_evictOldest h (Nat.le_antisymm h.len_le (Nat.not_lt.mp hl))
    refine ⟨index.evictOldest, ?_, he⟩
    rw [evictWhileFull, if_pos (Nat.not_lt.mp hl), evictWhileFull_of_lt he.lt]

end Evict

section Add

open OpenExperienceIndex

variable {index : OpenExperienceIndex} {entry : OpenExperienceEntry}
  {rows rows' : List OpenExperienceEntry} {fuel : Nat}

theorem Flagged.append (h : Flagged rows) (hid : ∀ e ∈ rows, e.experienceId ≠ entry.experienceId)
    (hrows : ∀ e, e ∈ rows' ↔ ∃ e' ∈ rows,
      e = if subjectKey e' = subjectKey entry then { e' with potentiallyConfounded := true }
        else e')
    (hflag : entry.potentiallyConfounded = true ↔ ∃ e ∈ rows, subjectKey e = subjectKey entry) :
    Flagged (rows' ++ [entry]) := by
  intro e he
  obtain he | he := List.mem_append.mp he
  · have ⟨e₀, he₀, heq⟩ := (hrows e).mp he
    by_cases hk : subjectKey e₀ = subjectKey entry
    case pos =>
      rw [if_pos hk] at heq
      subst heq
      exact iff_of_true rfl ⟨entry, by simp, (hid e₀ he₀).symm, hk.symm⟩
    case neg =>
      rw [if_neg hk] at heq
      subst heq
      rw [h e he₀]
      constructor
      case mp =>
        intro ⟨e', he', hne, hs⟩
        have hmem : e' ∈ rows' := (hrows e').mpr ⟨e', he', by rw [if_neg (hs ▸ hk)]⟩
        exact ⟨e', List.mem_append_left _ hmem, hne, hs⟩
      case mpr =>
        intro ⟨e', he', hne, hs⟩
        obtain he' | he' := List.mem_append.mp he'
        · have ⟨e₁, he₁, heq⟩ := (hrows e').mp he'
          split at heq
          case isTrue hk'  => exact absurd (hs.symm.trans (heq ▸ hk')) hk
          case isFalse     => exact ⟨e', heq ▸ he₁, hne, hs⟩
        · exact absurd (List.mem_singleton.mp he' ▸ hs).symm hk
  · obtain rfl := List.mem_singleton.mp he
    rw [hflag]
    constructor
    case mp =>
      intro ⟨e', he', hk⟩
      have hmem : { e' with potentiallyConfounded := true } ∈ rows' :=
        (hrows _).mpr ⟨e', he', by rw [if_pos hk]⟩
      exact ⟨_, List.mem_append_left _ hmem, hid e' he', hk⟩
    case mpr =>
      intro ⟨e', he', hne, hk⟩
      obtain he' | he' := List.mem_append.mp he'
      · have ⟨e₁, he₁, heq⟩ := (hrows e').mp he'
        split at heq
        case isTrue hk' => exact ⟨e₁, he₁, hk'⟩
        case isFalse    => exact ⟨e₁, he₁, heq ▸ hk⟩
      · exact absurd (congrArg _ (List.mem_singleton.mp he')) hne

theorem addId_eq_push (h : Consistent index) {key : Str} {id : Nat}
    (hg : index.entries.get? id = none) :
    addId index.bySubject key id = index.bySubject.push key id := by
  refine if_neg fun hm => ?_
  have hget : index.bySubject.get key = (index.bySubject.get? key).getD [] := rfl
  rw [hget] at hm
  cases hk : index.bySubject.get? key
  case none     => simp [hk] at hm
  case some ids =>
    rw [hk] at hm
    have ⟨e, he, hid, _⟩ := (h.subjects.mem_iff hk).mp hm
    exact Table.get?_eq_none_iff.mp hg e he hid

structure Inserted (index index' : OpenExperienceIndex) (rows : List OpenExperienceEntry) :
    Prop where
  consistent : Consistent index'
  balanced   : Balanced index → Balanced index'
  rows       : index'.entries.rows = rows
  capacity   : index'.capacity = index.capacity
  window     : index'.resolutionWindowMicros = index.resolutionWindowMicros

theorem inserted_insertEntry {entries : Entries} (h : Consistent index)
    (hl : index.len < index.capacity)
    (hu : entries.rows.map (·.unflagged) = index.entries.rows.map (·.unflagged))
    (hg : index.entries.get? entry.experienceId = none) (hf : Flagged (entries.rows ++ [entry])) :
    Inserted index (insertEntry { index with entries } entry (subjectKey entry))
      (entries.rows ++ [entry]) := by
  have hg' : entries.get? entry.experienceId = none := by
    rw [Table.get?_eq_none_iff] at *
    intro e he
    have ⟨e', he', hue⟩ := exists_of_unflagged hu he
    exact experienceId_eq hue ▸ hg e' he'
  have hrows := rows_put hg'
  have hlen : entries.rows.length = index.entries.rows.length := by
    simpa using congrArg List.length hu
  have hs := lists_of_unflagged (fun _ => rfl) hu h.subjects
  have hc := lists_of_unflagged (fun _ => rfl) hu h.creations
  refine ⟨⟨?_, ?_, ?_, h.creations_ne.push _ _, ?_, ?_, h.capacity_pos⟩, fun hb => ?_,
    hrows, rfl, rfl⟩
  · simp only [insertEntry, hrows, addId_eq_push h hg]
    exact hs.push entry
  · simp only [insertEntry, addId_eq_push h hg]
    exact h.subjects_ne.push _ _
  · simp only [insertEntry, hrows]
    exact hc.push entry
  · simp only [insertEntry, hrows]
    exact hf
  · simp only [len, insertEntry, hrows, List.length_append, List.length_singleton] at *
    omega
  · simp only [Balanced, len, insertEntry, hrows, List.length_append, List.length_singleton] at *
    omega

-- The flags after the addition of an entry that is not flagged itself.
theorem inserted_of_evicted (h : Consistent index) (hl : index.len < index.capacity)
    (hg : index.entries.get? entry.experienceId = none) (hf : entry.potentiallyConfounded = false) :
    ∃ rows, Inserted index
      (match (index.bySubject.get? (subjectKey entry)).filter (· ≠ []) with
        | some existingIds =>
          let entries := index.entries.setConfounded (·.experienceId ∈ existingIds) true
          insertEntry { index with entries } { entry with potentiallyConfounded := true }
            (subjectKey entry)
        | none => index.insertEntry entry (subjectKey entry)) rows ∧
      (∀ e ∈ index.entries.rows, ∃ e' ∈ rows, e'.experienceId = e.experienceId) ∧
      ∃ e ∈ rows, e.unflagged = entry.unflagged := by
  have hid := Table.get?_eq_none_iff.mp hg
  cases hk : index.bySubject.get? (subjectKey entry)
  case none =>
    have hno : ∀ e ∈ index.entries.rows, subjectKey e ≠ subjectKey entry := by
      intro e he hs
      have ⟨_, hk', _⟩ := h.subjects.exists_get? he
      rw [hs, hk] at hk'
      exact nomatch hk'
    refine ⟨_, inserted_insertEntry h hl rfl hg ?_, fun e he => ⟨e, List.mem_append_left _ he, rfl⟩,
      entry, List.mem_append_right _ (List.mem_singleton_self entry), rfl⟩
    refine h.flagged.append hid (fun e => ?_)
      (iff_of_false (hf ▸ Bool.false_ne_true) fun ⟨e, he, hs⟩ => hno e he hs)
    constructor
    case mp =>
      intro he
      exact ⟨e, he, by rw [if_neg (hno e he)]⟩
    case mpr =>
      intro ⟨e', he', heq⟩
      rw [if_neg (hno e' he')] at heq
      exact heq ▸ he'
  case some ids =>
    have hne : ids ≠ [] := h.subjects_ne _ (MultiMap.get?_eq_some_iff.mp hk)
    have hmem {e : OpenExperienceEntry} (he : e ∈ index.entries.rows) :
        e.experienceId ∈ ids ↔ subjectKey e = subjectKey entry := by
      rw [h.subjects.mem_iff hk]
      refine ⟨fun ⟨e', he', hid', hs⟩ => ?_, fun hs => ⟨e, he, rfl, hs⟩⟩
      exact List.inj_on_of_nodup_map index.entries.nodup he' he hid' ▸ hs
    have hsome : (some ids).filter (· ≠ []) = some ids := by simpa using hne
    have hu := @unflagged_setConfounded index.entries (·.experienceId ∈ ids) true
    rw [hsome]
    refine ⟨_, inserted_insertEntry h hl hu hg ?_, fun e he => ?_,
      _, List.mem_append_right _ (List.mem_singleton_self _), rfl⟩
    · refine h.flagged.append hid (fun e => ?_) (iff_of_true rfl ?_)
      · rw [mem_setConfounded]
        refine exists_congr fun e' => and_congr_right fun he' => ?_
        simp only [decide_eq_true_eq, hmem he']
        rfl
      · have ⟨id, hid⟩ := List.exists_mem_of_ne_nil ids hne
        have ⟨e, he, _, hs⟩ := (h.subjects.mem_iff hk).mp hid
        exact ⟨e, he, hs⟩
    · have ⟨e', he', hu⟩ := exists_of_unflagged hu.symm he
      exact ⟨e', List.mem_append_left _ he', experienceId_eq hu⟩

structure Added (entry : OpenExperienceEntry) (index index' : OpenExperienceIndex) : Prop where
  consistent : Consistent index'
  balanced   : Balanced index → Balanced index'
  capacity   : index'.capacity = index.capacity
  window     : index'.resolutionWindowMicros = index.resolutionWindowMicros
  oldest     : ∀ e ∈ index.entries.rows, index'.entries.get? e.experienceId = none →
    ∀ e' ∈ index.entries.rows, e.createdTsMicros ≤ e'.createdTsMicros
  present    : ∃ e ∈ index'.entries.rows, e.experienceId = entry.experienceId
  stored     : index.entries.get? entry.experienceId = none →
    ∃ e ∈ index'.entries.rows, e.unflagged = entry.unflagged

theorem added_add (h : Consistent index) (hf : entry.potentiallyConfounded = false) :
    ∃ index', index.add (fuel + 1) entry = some index' ∧ Added entry index index' := by
  unfold add
  split
  case isTrue hg =>
    obtain ⟨e, he⟩ := Option.isSome_iff_exists.mp hg
    obtain ⟨hm, hid⟩ := Table.get?_eq_some_iff.mp he
    refine ⟨index, rfl, h, id, rfl, rfl, fun e he hnone => ?_, ⟨e, hm, hid⟩, fun hnone => ?_⟩
    · exact absurd (Table.get?_key he) (hnone ▸ (by rintro ⟨⟩))
    · exact absurd he (hnone ▸ (by rintro ⟨⟩))
  case isFalse hg =>
    have hg : index.entries.get? entry.experienceId = none := by simpa using hg
    obtain ⟨evicted, he, hev⟩ := @evicted_evictWhileFull index fuel h
    obtain ⟨rows, hins, hkept, e, hmem, hu⟩ :=
      inserted_of_evicted hev.consistent hev.lt (hev.absent _ hg) hf
    rw [he]
    have hmem := hins.rows ▸ hmem
    refine ⟨_, ?_, hins.consistent, fun hb => hins.balanced (hev.balanced hb),
      hins.capacity.trans hev.capacity, hins.window.trans hev.window, fun e hmem hnone =>
        hev.oldest e hmem ?_, ⟨e, hmem, experienceId_eq hu⟩,
      fun _ => ⟨e, hmem, hu⟩⟩
    · simp only [Option.bind_eq_bind, Option.bind_some, Option.pure_def]
      generalize (evicted.bySubject.get? (subjectKey entry)).filter (· ≠ []) = existing
      cases existing <;> rfl
    · rw [Table.get?_eq_none_iff] at *
      intro e' he' hid
      obtain ⟨e'', he'', hid'⟩ := hkept e' he'
      exact hnone e'' (hins.rows ▸ he'') (hid'.trans hid)

end Add

section Run

open OpenExperienceIndex

variable {index : OpenExperienceIndex} {fuel : Nat} {events : List Event}

def candidate (nowMicros : Int) (e : OpenExperienceEntry) : ResolutionCandidate where
  experienceId    := e.experienceId
  decisionId      := e.decisionId
  createdTsMicros := e.createdTsMicros
  effectKind      := e.effectKind
  ageMicros       := saturatingSub nowMicros e.createdTsMicros

theorem expiredCandidates_perm (h : Consistent index) (nowMicros : Int) :
    Perm (index.expiredCandidates nowMicros)
      ((index.entries.rows.filter (·.createdTsMicros ≤
        saturatingSub nowMicros index.resolutionWindowMicros)).map
        (candidate nowMicros)) := by
  let p : Int → Bool := (· ≤ saturatingSub nowMicros index.resolutionWindowMicros)
  have hp : ∀ k k', k ≤ k' → p k' → p k := by
    intro k k' hk hk'
    exact decide_eq_true (hk.trans (of_decide_eq_true hk'))
  have he : index.expiredCandidates nowMicros =
      ((index.byCreation.items.filter (p ·.1)).map Prod.snd).filterMap
      fun id => (index.entries.get? id).map (candidate nowMicros) := by
    rw [MultiMap.filter_items_map, ← MultiMap.takeWhile_entries hp, List.filterMap_flatMap]
    simp only [expiredCandidates, p, gt_iff_lt, not_lt]
    rfl
  rw [he]
  refine (((h.creations.filter (p ·.1)).map Prod.snd).filterMap _).trans (.of_eq ?_)
  rw [List.filter_map, List.map_map, List.filterMap_map, ← List.filterMap_eq_map]
  refine List.filterMap_congr fun e he => ?_
  simp [Table.get?_key (List.mem_filter.mp he).left]

-- What the operations and the callers rely on, with the capacity and the window that the index was
-- made with.
structure Exact (capacity : Nat) (window : Int) (index : OpenExperienceIndex) : Prop where
  subjects     : ∀ key ids, index.bySubject.get? key = some ids → ids ≠ [] ∧ ids.Nodup ∧
    ∀ id, id ∈ ids ↔ ∃ e ∈ index.entries.rows, e.experienceId = id ∧
      toAsciiLowercase e.subject = key
  subject_mem  : ∀ e ∈ index.entries.rows, ∃ ids,
    index.bySubject.get? (toAsciiLowercase e.subject) = some ids ∧ e.experienceId ∈ ids
  creations    : ∀ ts ids, index.byCreation.get? ts = some ids → ids ≠ [] ∧ ids.Nodup ∧
    ∀ id, id ∈ ids ↔ ∃ e ∈ index.entries.rows, e.experienceId = id ∧ e.createdTsMicros = ts
  creation_mem : ∀ e ∈ index.entries.rows, ∃ ids,
    index.byCreation.get? e.createdTsMicros = some ids ∧ e.experienceId ∈ ids
  len_le       : index.len ≤ max capacity 1
  flagged      : ∀ e ∈ index.entries.rows, e.potentiallyConfounded = true ↔
    ∃ e' ∈ index.entries.rows, e'.experienceId ≠ e.experienceId ∧
      toAsciiLowercase e'.subject = toAsciiLowercase e.subject
  total        : index.totalAdded =
    index.len + index.totalResolved + index.totalExpired + index.totalCensored + index.totalEvicted
  expired      : ∀ nowMicros, Perm (index.expiredCandidates nowMicros)
    ((index.entries.rows.filter (·.createdTsMicros ≤ saturatingSub nowMicros window)).map
      (candidate nowMicros))

theorem Consistent.exact {capacity : Nat} {window : Int} (h : Consistent index)
    (hb : Balanced index) (hc : index.capacity = max capacity 1)
    (hw : index.resolutionWindowMicros = window) : Exact capacity window index where
  subjects _ _ hk   := ⟨h.subjects_ne _ (MultiMap.get?_eq_some_iff.mp hk),
    MultiMap.nodup_of_get? (h.subjects.nodup index.entries.nodup) hk, fun _ =>
      h.subjects.mem_iff hk⟩
  subject_mem _ he  := h.subjects.exists_get? he
  creations _ _ hk  := ⟨h.creations_ne _ (MultiMap.get?_eq_some_iff.mp hk),
    MultiMap.nodup_of_get? (h.creations.nodup index.entries.nodup) hk, fun _ =>
      h.creations.mem_iff hk⟩
  creation_mem _ he := h.creations.exists_get? he
  len_le            := hc ▸ h.len_le
  flagged           := h.flagged
  total             := hb
  expired           := hw ▸ expiredCandidates_perm h

def Kept (index index' : OpenExperienceIndex) : Prop :=
  Consistent index' ∧ Balanced index' ∧ index'.capacity = index.capacity ∧
    index'.resolutionWindowMicros = index.resolutionWindowMicros

-- The three ways to close an entry differ in the counter that they increment.
theorem kept_of_removed {index' : OpenExperienceIndex} {id : Nat} (hb : Balanced index)
    (hr : Removed index index' id) (resolved expired censored : Nat)
    (h : resolved + expired + censored = 1) : Kept index
      {
        index' with
        totalResolved := index'.totalResolved + resolved
        totalExpired  := index'.totalExpired + expired
        totalCensored := index'.totalCensored + censored
      } := by
  have hc := hr.consistent
  refine ⟨⟨hc.subjects, hc.subjects_ne, hc.creations, hc.creations_ne, hc.flagged, hc.len_le,
    hc.capacity_pos⟩, ?_, by rw [hr.same], by rw [hr.same]⟩
  have hlen : index'.entries.rows.length + 1 = index.entries.rows.length := hr.len
  rw [hr.same]
  simp only [Balanced, len] at *
  omega

theorem kept_step (h : Consistent index) (hb : Balanced index) {event : Event}
    (hf : ∀ entry, event = .add entry → entry.potentiallyConfounded = false) :
    ∃ index', step (fuel + 1) index event = some index' ∧ Kept index index' := by
  have close {id : Nat} : index.entries.get? id = none ∧ index.remove id = (index, none) ∨
      ∃ index' entry, index.remove id = (index', some entry) ∧ Removed index index' id := by
    cases hg : index.entries.get? id
    case none       => exact .inl ⟨rfl, remove_eq_none hg⟩
    case some entry =>
      have ⟨hr, he⟩ := removed_remove h hg
      exact .inr ⟨_, entry, Prod.ext rfl he, hr⟩
  cases event
  case add entry =>
    have ⟨index', he, ha⟩ := @added_add index entry fuel h (hf entry rfl)
    exact ⟨index', he, ha.consistent, ha.balanced hb, ha.capacity, ha.window⟩
  case markResolved id =>
    refine ⟨_, rfl, ?_⟩
    obtain ⟨_, hr⟩ | ⟨index', entry, hr, hr'⟩ := @close id
    · simpa only [markResolved, hr] using ⟨h, hb, rfl, rfl⟩
    · simp only [markResolved, hr]
      exact kept_of_removed hb hr' 1 0 0 rfl
  case markExpired id =>
    refine ⟨_, rfl, ?_⟩
    obtain ⟨_, hr⟩ | ⟨index', entry, hr, hr'⟩ := @close id
    · simpa only [markExpired, hr] using ⟨h, hb, rfl, rfl⟩
    · simp only [markExpired, hr]
      exact kept_of_removed hb hr' 0 1 0 rfl
  case markCensored id =>
    refine ⟨_, rfl, ?_⟩
    obtain ⟨_, hr⟩ | ⟨index', entry, hr, hr'⟩ := @close id
    · simpa only [markCensored, hr] using ⟨h, hb, rfl, rfl⟩
    · simp only [markCensored, hr]
      exact kept_of_removed hb hr' 0 0 1 rfl

theorem kept_run (h : Consistent index) (hb : Balanced index)
    (hf : ∀ entry, .add entry ∈ events → entry.potentiallyConfounded = false) :
    ∃ index', run (step (fuel + 1)) index events = some index' ∧ Kept index index' := by
  induction events generalizing index
  case nil => exact ⟨index, rfl, h, hb, rfl, rfl⟩
  case cons event events hi =>
    have ⟨index', he, hc, hb', hcap, hw⟩ :=
      @kept_step index fuel h hb event fun entry he => hf entry (he ▸ List.mem_cons_self)
    have ⟨index'', he', hc', hb'', hcap', hw'⟩ := hi hc hb' fun entry hm =>
      hf entry (List.mem_cons_of_mem _ hm)
    exact ⟨index'', by rw [run, he, Option.bind_some, he'], hc', hb'',
      hcap'.trans hcap, hw'.trans hw⟩

theorem consistent_withCapacity (capacity : Nat) (window : Int) :
    Consistent (withCapacity capacity window) where
  subjects     := .refl _
  subjects_ne  := nofun
  creations    := .refl _
  creations_ne := nofun
  flagged      := nofun
  len_le       := Nat.zero_le _
  capacity_pos := Nat.lt_of_lt_of_le Nat.one_pos (Nat.le_max_right ..)

-- Every history has a result, which is exact, and the loop of an addition ends after at most one
-- round. What is added is in the index then, as it is unless its identifier was there before.
theorem openIndex_exact (capacity : Nat) (window : Int) (events : List Event)
    (hf : ∀ entry, .add entry ∈ events → entry.potentiallyConfounded = false) (fuel : Nat) :
    ∃ index, run (step (fuel + 1)) (withCapacity capacity window) events = some index ∧
      index.resolutionWindowMicros = window ∧ Exact capacity window index ∧
      ∀ entry, entry.potentiallyConfounded = false →
        ∃ index', index.add (fuel + 1) entry = some index' ∧
        (∃ e ∈ index'.entries.rows, e.experienceId = entry.experienceId) ∧
        (index.entries.get? entry.experienceId = none →
          ∃ e ∈ index'.entries.rows, e.unflagged = entry) ∧
        ∀ e ∈ index.entries.rows, index'.entries.get? e.experienceId = none →
          ∀ e' ∈ index.entries.rows, e.createdTsMicros ≤ e'.createdTsMicros := by
  have ⟨index, he, hc, hb, hcap, hw⟩ :=
    @kept_run _ fuel events (consistent_withCapacity capacity window) rfl hf
  refine ⟨index, he, hw, hc.exact hb hcap hw, fun entry hfe => ?_⟩
  have ⟨index', he', ha⟩ := @added_add index entry fuel hc hfe
  exact ⟨index', he', ha.present, fun hn => unflagged_eq_self hfe ▸ ha.stored hn, ha.oldest⟩

def experience (id : Nat) (subject : String) (ts : Int) : OpenExperienceEntry where
  experienceId          := id
  decisionId            := id * 10
  subject               := subject.toList
  createdTsMicros       := ts
  effectKind            := "advisory".toList
  subsystem             := "liveness".toList
  potentiallyConfounded := false

def overlap : List Event :=
  [.add (experience 1 "AgentA" 1000), .add (experience 2 "agenta" 2000), .markResolved 1,
    .add (experience 3 "B" 500)]

theorem openIndex_exact_overlap :
    ∃ index, run (step 1) (withCapacity 1 500) overlap = some index ∧
      index.resolutionWindowMicros = 500 ∧ Exact 1 500 index ∧
      ∀ entry, entry.potentiallyConfounded = false → ∃ index', index.add 1 entry = some index' ∧
        (∃ e ∈ index'.entries.rows, e.experienceId = entry.experienceId) ∧
        (index.entries.get? entry.experienceId = none →
          ∃ e ∈ index'.entries.rows, e.unflagged = entry) ∧
        ∀ e ∈ index.entries.rows, index'.entries.get? e.experienceId = none →
          ∀ e' ∈ index.entries.rows, e.createdTsMicros ≤ e'.createdTsMicros :=
  openIndex_exact 1 500 overlap (by simp [overlap, experience]) 0

end Run

end OpenIndex
