import AgentMail.CommitTree.Theorems.Applied

open Pattern (Str)

namespace CommitTree

variable {β : Type} {ups : List (List Str × Option β)} {path p : List Str} {base : Entry β}

theorem ofTree_eq_some_iff {e : Entry β} {oid : β} : Index.ofTree e path = some oid ↔
    e.kindAt path = some (.file oid) := by
  rw [Index.ofTree, Entry.kindAt]
  cases e.find path
  case none => simp
  case some e => cases e <;> simp [Entry.kind]

-- The path is in the way of an added one.
def Displaced (ups : List (List Str × Option β)) (path : List Str) : Prop :=
  ∃ u ∈ ups, u.2.isSome ∧ (u.1 <+: path ∨ path <+: u.1)

-- What the index has at a path after the updates.
inductive Staged (ups : List (List Str × Option β)) (index : Index β) (path : List Str) : Option β →
    Prop
  | updated {o} : lastUpdate ups path = some o → Staged ups index path o
  | displaced   : lastUpdate ups path = none → Displaced ups path → Staged ups index path none
  | kept        : lastUpdate ups path = none → ¬Displaced ups path →
      Staged ups index path (index path)

theorem apply_eq {index : Index β} {u : Update β} :
    index.apply u path =
      if path = components u.1 then u.2
      else if u.2.isSome ∧ (components u.1 <+: path ∨ path <+: components u.1) then none
      else index path := by
  rw [Index.apply]
  cases u.2
  case none => simp [Index.removePath]
  case some => simp [Index.addPath, or_comm]

theorem staged_foldl {updates : List (Update β)} {index : Index β}
    (hp : NoPrefix (parsed updates)) :
    Staged (parsed updates) index path (updates.foldl .apply index path) := by
  induction updates generalizing index
  case nil => exact .kept rfl fun ⟨_, hu, _⟩ => nomatch hu
  case cons u us hi =>
    have hp' : NoPrefix (parsed us) := fun v hv v' hv' =>
      hp v (List.mem_cons_of_mem _ hv) v' (List.mem_cons_of_mem _ hv')
    have hl : lastUpdate (parsed (u :: us)) path =
      (lastUpdate (parsed us) path).or (if components u.1 = path then some u.2 else none) := rfl
    have hd : Displaced (parsed (u :: us)) path ↔
        (u.2.isSome ∧ (components u.1 <+: path ∨ path <+: components u.1)) ∨
          Displaced (parsed us) path :=
      List.exists_mem_cons_iff ..
    have hs := @hi (index.apply u) hp'
    rw [List.foldl_cons]
    generalize us.foldl .apply (index.apply u) path = v at hs
    cases hs
    case updated h => exact .updated (by rw [hl, h, Option.some_or])
    case displaced h hd' =>
      by_cases hu : components u.1 = path
      case neg => exact .displaced (by simp [hl, h, hu]) (hd.mpr (.inr hd'))
      case pos =>
        -- Two paths that are in the way of each other are the same.
        have ⟨u', hu', _, hpre⟩ := hd'
        have hne := lastUpdate_eq_none_iff.mp h u' hu'
        rw [← hu] at hne hpre
        have hm : (components u.1, u.2) ∈ parsed (u :: us) := List.mem_cons_self
        cases hpre
        case inl hpre => exact absurd (hp _ (List.mem_cons_of_mem _ hu') _ hm hpre) hne
        case inr hpre => exact absurd (hp _ hm _ (List.mem_cons_of_mem _ hu') hpre).symm hne
    case kept h hd' =>
      rw [apply_eq]
      by_cases hu : path = components u.1
      case pos =>
        rw [if_pos hu]
        exact .updated (by rw [hl, h, if_pos hu.symm, Option.none_or])
      case neg =>
        have hl : lastUpdate (parsed (u :: us)) path = none := by simp [hl, h, Ne.symm hu]
        rw [if_neg hu]
        split
        case isTrue hpre  => exact .displaced hl (hd.mpr (.inl hpre))
        case isFalse hpre => exact .kept hl fun h => (hd.mp h).elim hpre hd'

theorem commitPaths_eq_some_iff {base : Option (Tree β)} {updates : List (Update β)} {oid : β}
    (hp : NoPrefix (parsed updates)) :
    commitPaths base updates path = some oid ↔
      lastUpdate (parsed updates) path = some (some oid) ∨
      (root base).kindAt path = some (.file oid) ∧ KeptFile (parsed updates) (root base) path := by
  have hs : Staged (parsed updates) _ path (commitPaths base updates path) := staged_foldl hp
  have hk : KeptFile (parsed updates) (root base) path ↔
      (∃ oid, (root base).kindAt path = some (.file oid)) ∧
      lastUpdate (parsed updates) path = none ∧ ¬Displaced (parsed updates) path := by
    rw [KeptFile, lastUpdate_eq_none_iff, Displaced]
    simp
  rw [hk]
  generalize commitPaths base updates path = v at hs
  cases hs
  case updated h     => simp [h]
  case displaced h d => simp [h, d]
  case kept h hd     =>
    rw [ofTree_eq_some_iff]
    simp only [h, hd, not_false_eq_true, and_true, reduceCtorEq, false_or]
    exact ⟨fun h => ⟨h, oid, h⟩, And.left⟩

section WritesTree

variable {index : Index β} {t : Tree β}
  (hp : NoPrefix ups) (hr : ∀ path, (Entry.tree t).kindAt path = place ups (base.kindAt path) path)
  (hi : ∀ path oid, index path = some oid ↔
    lastUpdate ups path = some (some oid) ∨ base.kindAt path = some (.file oid) ∧
      KeptFile ups base path)

include hi in
theorem ne_none_iff : index p ≠ none ↔ (∃ oid, lastUpdate ups p = some (some oid)) ∨
    KeptFile ups base p := by
  rw [Option.ne_none_iff_exists']
  simp only [hi]
  constructor
  case mp =>
    intro ⟨oid, h⟩
    exact h.imp (⟨oid, ·⟩) And.right
  case mpr =>
    intro h
    cases h
    case inl h =>
      have ⟨oid, h⟩ := h
      exact ⟨oid, .inl h⟩
    case inr h =>
      have ⟨oid, hf⟩ := h.left
      exact ⟨oid, .inr ⟨hf, h⟩⟩

include hp in
-- Files below a path that is only deleted are no reason for the index to change.
theorem keptFile_below {u : List Str × Option β} {oid : β} (hu : u ∈ ups)
    (hd : ∀ u' ∈ ups, u'.1 = u.1 → u'.2 = none) (hpre : u.1 <+: p) (hne : p ≠ u.1)
    (hf : base.kindAt p = some (.file oid)) : KeptFile ups base p := by
  refine ⟨⟨oid, hf⟩, fun u' hu' he => ?_, fun u' hu' hs => ⟨fun h => ?_, fun h => ?_⟩⟩
  · exact hne (he.symm.trans (hp u hu u' hu' (he ▸ hpre)).symm)
  · have he : u'.1 = u.1 := by
      cases List.prefix_or_prefix_of_prefix h hpre
      case inl h => exact hp u' hu' u hu h
      case inr h => exact (hp u hu u' hu' h).symm
    simp [hd u' hu' he] at hs
  · have he := hp u hu u' hu' (hpre.trans h)
    exact hne (h.eq_of_length_le (he ▸ hpre.length_le) |>.trans he.symm)

theorem keptFile_of_unrelated {oid : β} (hf : base.kindAt p = some (.file oid))
    (ha : ∀ u ∈ ups, ¬p <+: u.1) (hb : ¬AtOrBelowUpdate ups p) : KeptFile ups base p :=
  ⟨⟨oid, hf⟩, fun u hu he => ha u hu (he ▸ List.prefix_rfl),
    fun u hu _ => ⟨fun h => hb ⟨u, hu, h⟩, ha u hu⟩⟩

theorem LikeIndex.not_keptFile (h : LikeIndex ups base) {u : List Str × Option β} (hu : u ∈ ups)
    (hpre : u.1 <+: p) : ¬KeptFile ups base p := by
  intro ⟨⟨oid, hf⟩, hne, hk⟩
  have hd (u') (hu' : u' ∈ ups) (he : u'.1 = u.1) : u'.2 = none := by
    by_contra hs
    exact (hk u' hu' (Option.isSome_iff_ne_none.mpr hs)).left (he ▸ hpre)
  exact h.deleted u hu hd p oid hpre (hne u hu).symm hf

include hp hr hi in
theorem Index.WritesTree.likeIndex (h : index.WritesTree t) : LikeIndex ups base where
  above path hn ha := by
    have ⟨u, hu, hpre, hne⟩ := ha
    have hd : (Entry.tree t).kindAt path = some .dir := by
      rw [hr]
      exact place_above (lastUpdate_eq_none_of_related hp hu (.inl hpre) hne) hu hpre
    have ⟨p, hpp, hpne, hi'⟩ := (h path hn).right.mp hd
    cases (ne_none_iff hi).mp hi'
    case inl hs =>
      have ⟨oid, hl⟩ := hs
      exact .inl ⟨p, oid, hl, hpp, hpne.symm⟩
    case inr hk => exact .inr ⟨p, hpp, hpne, hk⟩
  deleted u hu hd p oid hpre hne hf := by
    have hpn : p ≠ [] := by
      intro hnil
      exact hne (hnil.trans (List.prefix_nil.mp (hnil ▸ hpre)).symm)
    have hi' := (hi p oid).mpr (.inr ⟨hf, keptFile_below hp hu hd hpre hne hf⟩)
    have hf' := ((h p hpn).left oid).mpr hi'
    rw [hr, place_below hp hu hpre hne] at hf'
    contradiction
  unrelated path hn hd hb ha := by
    have ha' (u) (hu : u ∈ ups) (hpre : path <+: u.1) : False :=
      ha ⟨u, hu, hpre, fun he => hb ⟨u, hu, he ▸ List.prefix_rfl⟩⟩
    have hd' : (Entry.tree t).kindAt path = some .dir := by
      rw [hr, place_unrelated ha' fun u hu h => hb ⟨u, hu, h⟩, hd]
    have ⟨p, hpp, _, hi'⟩ := (h path hn).right.mp hd'
    cases (ne_none_iff hi).mp hi'
    case inl hs =>
      have ⟨oid, hl⟩ := hs
      exact absurd hpp (ha' _ (mem_of_lastUpdate hl))
    case inr hk =>
      have ⟨oid, hf⟩ := hk.left
      exact ⟨p, oid, hpp, hf⟩

-- What is written at one path.
def WritesAt (index : Index β) (path : List Str) (v : Option (Kind β)) : Prop :=
  (∀ oid, v = some (.file oid) ↔ index path = some oid) ∧
    (v = some .dir ↔ ∃ p, path <+: p ∧ p ≠ path ∧ index p ≠ none)

theorem writesAt_none (hi : index path = none) (hb : ∀ p, path <+: p → p ≠ path → index p = none) :
    WritesAt index path none :=
  ⟨fun oid => by simp [hi], by simp, fun ⟨p, hpre, hne, hs⟩ => absurd (hb p hpre hne) hs⟩

namespace LikeIndex

variable (h : LikeIndex ups base)

include h

include hp hi in
theorem index_eq_none {u : List Str × Option β} (hu : u ∈ ups) (hpre : u.1 <+: p) (hne : p ≠ u.1) :
    index p = none := by
  by_contra hs
  cases (ne_none_iff hi).mp hs
  case inl hs =>
    have ⟨oid, hl⟩ := hs
    rw [lastUpdate_eq_none_of_related hp hu (.inr hpre) hne] at hl
    contradiction
  case inr hk => exact h.not_keptFile hu hpre hk

include hi in
theorem writesAt_above (hn : path ≠ []) (hl : lastUpdate ups path = none)
    (ha : AboveUpdate ups path) : WritesAt index path (some .dir) := by
  have ha := h.above path hn ha
  have hi' : index path = none := by
    by_contra hs
    cases (ne_none_iff hi).mp hs
    case inl hs => simp [hl] at hs
    case inr hk =>
      cases ha
      case inl ha =>
        have ⟨p, oid, hs, hpre, _⟩ := ha
        exact (hk.right.right _ (mem_of_lastUpdate hs) rfl).right hpre
      case inr ha =>
        have ⟨p, hpre, hne, ⟨oid', hf'⟩, _⟩ := ha
        have ⟨oid, hf⟩ := hk.left
        rw [kindAt_of_file hf hpre hne] at hf'
        contradiction
  refine ⟨fun oid' => by simp [hi'], fun _ => ?_, fun _ => rfl⟩
  cases ha
  case inl ha =>
    have ⟨p, oid, hs, hpre, hne⟩ := ha
    exact ⟨p, hpre, hne.symm, (ne_none_iff hi).mpr (.inl ⟨oid, hs⟩)⟩
  case inr ha =>
    have ⟨p, hpre, hne, hk⟩ := ha
    exact ⟨p, hpre, hne, (ne_none_iff hi).mpr (.inr hk)⟩

include hi in
theorem writesAt_unrelated (hn : path ≠ []) (ha : ∀ u ∈ ups, ¬path <+: u.1)
    (hb : ¬AtOrBelowUpdate ups path) : WritesAt index path (base.kindAt path) := by
  have hb' {p : List Str} (hpp : path <+: p) : ¬AtOrBelowUpdate ups p := by
    intro ⟨u, hu, hup⟩
    cases List.prefix_or_prefix_of_prefix hup hpp
    case inl h => exact hb ⟨u, hu, h⟩
    case inr h => exact ha u hu h
  refine ⟨fun oid => ⟨fun hv => ?_, fun hs => ?_⟩, fun hv => ?_, fun ⟨p, hpp, hne, hs⟩ => ?_⟩
  · exact (hi path oid).mpr (.inr ⟨hv, keptFile_of_unrelated hv ha hb⟩)
  · cases (hi path oid).mp hs
    case inl hl => exact absurd List.prefix_rfl (ha _ (mem_of_lastUpdate hl))
    case inr hf => exact hf.left
  · have ⟨p, oid, hpp, hf⟩ := h.unrelated path hn hv hb fun ⟨u, hu, hpre, _⟩ => ha u hu hpre
    refine ⟨p, hpp, ?_, (ne_none_iff hi).mpr (.inr ?_)⟩
    · intro he
      simp [he, hv] at hf
    · exact keptFile_of_unrelated hf (fun u hu hpu => ha u hu (hpp.trans hpu)) (hb' hpp)
  · cases (ne_none_iff hi).mp hs
    case inl hs =>
      have ⟨oid, hl⟩ := hs
      exact absurd hpp (ha _ (mem_of_lastUpdate hl))
    case inr hkept =>
      have ⟨oid, hf⟩ := hkept.left
      exact kindAt_above (by simp [hf]) hpp hne

include hp hi in
theorem writesAt (hn : path ≠ []) {v : Option (Kind β)}
    (hc : Placed ups path (base.kindAt path) v) : WritesAt index path v := by
  cases hc
  case file oid hl =>
    have hi' : index path = some oid := (hi path oid).mpr (.inl hl)
    refine ⟨fun oid' => by simp [hi'], by simp, fun ⟨p, hpre, hne, hs⟩ => ?_⟩
    exact absurd (h.index_eq_none hp hi (mem_of_lastUpdate hl) hpre hne) hs
  case deleted hl =>
    refine writesAt_none ?_ fun p => h.index_eq_none hp hi (mem_of_lastUpdate hl)
    by_contra hs
    cases (ne_none_iff hi).mp hs
    case inl hs => simp [hl] at hs
    case inr hk => exact hk.right.left _ (mem_of_lastUpdate hl) rfl
  case above hl ha => exact h.writesAt_above hi hn hl ha
  case below u hl hu hpre hne =>
    refine writesAt_none (h.index_eq_none hp hi hu hpre hne) fun p hpp hpne => ?_
    refine h.index_eq_none hp hi hu (hpre.trans hpp) fun he => hpne ?_
    exact (hpp.eq_of_length_le (he ▸ hpre.length_le)).symm
  case unrelated ha hb hk => exact hk ▸ h.writesAt_unrelated hi hn ha hb

end LikeIndex

include hp hr hi in
theorem writesTree_iff : index.WritesTree t ↔ LikeIndex ups base :=
  ⟨fun h => h.likeIndex hp hr hi, fun h path hn => h.writesAt hp hi hn (hr path ▸ placed)⟩

end WritesTree

end CommitTree
