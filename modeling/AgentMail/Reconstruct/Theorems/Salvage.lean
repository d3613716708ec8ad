import AgentMail.Pattern.Theorems.Normalize
import AgentMail.Reconstruct.Salvage
import AgentMail.Reconstruct.Theorems.Messages

open Pattern (Str trim)

namespace Reconstruct

section

variable {projects : Table ProjectRow.id} {row : SalvagedProject} {project : ProjectRow}
  {nowMicros : Int} {s : Merge}

theorem mem_projectRows : project ∈ projectRows projects ↔ project ∈ projects.rows :=
  List.mem_insertionSort _

theorem mem_of_queryProject {p : ProjectRow → Bool} (h : queryProject projects p = some project) :
    project ∈ projects.rows :=
  mem_projectRows.mp (List.mem_of_find?_eq_some h)

theorem mem_of_existingProject (h : existingProject projects row = some project) :
    project ∈ projects.rows := by
  obtain h | ⟨_, h⟩ := Option.or_eq_some_iff.mp h
  · exact mem_of_queryProject h
  · have ⟨_, _, h⟩ := Option.bind_eq_some_iff.mp h
    exact mem_of_queryProject h

theorem maxId_enrichExistingProject {id createdAt : Int} {slug humanKey : Str} :
    maxId (enrichExistingProject projects id slug humanKey createdAt) = maxId projects := by
  have h (a : ProjectRow) :
      (if a.id = id then a.enrich slug humanKey createdAt else a).id = a.id := by
    split <;> rfl
  simp only [maxId, enrichExistingProject, Table.update, List.map_map, Function.comp_def,
    decide_eq_true_eq, h]

theorem maxId_insertOrIgnore {slug humanKey : Str} {createdAt : Int} :
    maxId (projects.insertOrIgnore ⟨maxId projects + 1, slug, humanKey, createdAt⟩) =
      maxId projects + 1 := by
  rw [maxId, Table.rows_insertOrIgnore (get?_of_maxId_lt (by dsimp only; omega)), List.map_append,
    List.foldl_append]
  change max (maxId projects) (maxId projects + 1) = _
  omega

-- What the merge of one project does to the table and to the map.
inductive MergesProject (s s' : Merge) (row : SalvagedProject) : Prop
  | skip (hr : ¬row.Valid) (hm : s'.projectIdMap = s.projectIdMap) (hp : s'.projects = s.projects)
  | found (hr : row.Valid) {project : ProjectRow} {createdAt : Int}
    (he : existingProject s.projects row = some project)
    (hm : s'.projectIdMap = s.projectIdMap ++ [(row.id, project.id)])
    (hp : s'.projects =
      enrichExistingProject s.projects project.id row.trimmedSlug row.humanKeyOrPlaceholder
        createdAt)
  | insert (hr : row.Valid) {createdAt : Int} (he : existingProject s.projects row = none)
    (hm : s'.projectIdMap = s.projectIdMap ++ [(row.id, maxId s.projects + 1)])
    (hp : s'.projects = s.projects.insertOrIgnore
      ⟨maxId s.projects + 1, row.trimmedSlug, row.humanKeyOrPlaceholder, createdAt⟩)

theorem mergesProject : MergesProject s (mergeProject nowMicros s row) row := by
  unfold mergeProject
  dsimp only
  split
  case isTrue h => exact .skip (fun hr => by have := hr.left; omega) rfl rfl
  case isFalse h =>
    split
    case isTrue h'  => exact .skip (fun hr => hr.right h') rfl rfl
    case isFalse h' =>
      have hr : row.Valid := ⟨by omega, h'⟩
      split
      case h_1 project he => exact .found hr he rfl rfl
      case h_2 he         => exact .insert hr he rfl rfl

-- Projects are only mapped to projects that there are.
def Bounded (s : Merge) : Prop :=
  ∀ id ∈ s.targets, id ≤ maxId s.projects

theorem Bounded.step {s' : Merge} (h : Bounded s) (hs : MergesProject s s' row) : Bounded s' := by
  unfold Bounded Merge.targets at *
  cases hs
  case skip _ hm hp => rwa [hm, hp]
  case found he hm hp =>
    rw [hm, hp, maxId_enrichExistingProject, List.map_append, List.forall_mem_append]
    exact ⟨h, List.forall_mem_singleton.mpr (le_maxId (mem_of_existingProject he))⟩
  case insert hm hp =>
    rw [hm, hp, maxId_insertOrIgnore, List.map_append, List.forall_mem_append]
    exact ⟨fun id hi => (h id hi).trans (by omega), List.forall_mem_singleton.mpr le_rfl⟩

-- Two projects are mapped to the same if one is found that another was mapped to.
theorem nodup_step_iff {s' : Merge} (h : Bounded s) (hs : MergesProject s s' row) :
    s'.targets.Nodup ↔ s.targets.Nodup ∧
      (row.Valid → ∀ project ∈ existingProject s.projects row, project.id ∉ s.targets) := by
  unfold Bounded Merge.targets at *
  cases hs
  case skip hr hm hp             => simp [hm, hr]
  case found hr project _ he hm hp =>
    rw [hm, List.map_append, List.map_singleton, List.nodup_append_comm, List.singleton_append,
      List.nodup_cons, and_comm]
    simp only [he, hr, Option.mem_some_iff, forall_eq', true_imp_iff]
  case insert hr _ he hm hp      =>
    have hn : maxId s.projects + 1 ∉ s.projectIdMap.map Prod.snd := fun hi => by
      have := h _ hi
      omega
    rw [hm, List.map_append, List.map_singleton, List.nodup_append_comm, List.singleton_append,
      List.nodup_cons, and_comm]
    simp only [he, hn, not_false_eq_true, Option.not_mem_none, false_imp_iff, implies_true]

variable {rows : List SalvagedProject}

theorem foldl_mergeProject (h : Bounded s) :
    Bounded (rows.foldl (mergeProject nowMicros) s) ∧
      ((rows.foldl (mergeProject nowMicros) s).targets.Nodup ↔ s.targets.Nodup ∧
        ∀ before row after, rows = before ++ row :: after → row.Valid →
          ∀ project ∈ existingProject (before.foldl (mergeProject nowMicros) s).projects row,
            project.id ∉ (before.foldl (mergeProject nowMicros) s).targets) := by
  induction rows using List.reverseRecOn
  case nil => exact ⟨h, by simp⟩
  case append_singleton rows row hi =>
    have ⟨hb, hn⟩ := hi
    rw [List.foldl_append, List.foldl_cons, List.foldl_nil]
    refine ⟨hb.step mergesProject, ?_⟩
    rw [nodup_step_iff hb mergesProject, hn, and_assoc]
    refine and_congr_right fun _ => ⟨fun ⟨hs, hr⟩ before row' after he => ?_, fun hs => ⟨?_, ?_⟩⟩
    · obtain ⟨rfl, rfl, rfl⟩ | ⟨after, he', rfl⟩ := RowIds.concat_eq_append_cons he
      · exact hr
      · exact hs before row' after he'
    · exact fun before row' after he =>
        hs before row' (after ++ [row]) (by rw [he, List.append_assoc, List.cons_append])
    · exact hs rows row [] rfl

end

section

variable {canonical placeholder id : Int} {ids : List Int}

theorem mem_map_replaceId_iff (hc : id ≠ canonical) (hp : id ≠ placeholder) :
    id ∈ ids.map (replaceId canonical placeholder) ↔ id ∈ ids := by
  simp only [List.mem_map, replaceId]
  constructor
  case mp =>
    intro ⟨i, hi, he⟩
    split at he
    case isTrue  => exact absurd he.symm hp
    case isFalse => exact he ▸ hi
  case mpr => exact fun h => ⟨id, h, if_neg hc⟩

theorem nodup_map_replaceId_iff (h : placeholder ≠ canonical) :
    (ids.map (replaceId canonical placeholder)).Nodup ↔
      ids.Nodup ∧ (placeholder ∉ ids ∨ canonical ∉ ids) := by
  constructor
  case mp =>
    intro hn
    refine ⟨hn.of_map, ?_⟩
    by_contra hpc
    push Not at hpc
    have ⟨hp, hc⟩ := hpc
    exact h (List.inj_on_of_nodup_map hn hp hc (by simp [replaceId, h]))
  case mpr =>
    intro ⟨hn, hpc⟩
    refine hn.map_on fun a ha b hb hab => ?_
    unfold replaceId at hab
    split at hab <;> split at hab <;> grind

-- Merging independent pairs, one after the other.
theorem nodup_foldl_replaceId_iff {pairs : List (Int × Int)} (hn : (pairs.map Prod.fst).Nodup)
    (hn' : (pairs.map Prod.snd).Nodup) (hd : ∀ p ∈ pairs, ∀ q ∈ pairs, p.fst ≠ q.snd) :
    (pairs.foldl (fun ids p => ids.map (replaceId p.snd p.fst)) ids).Nodup ↔
      ids.Nodup ∧ ∀ p ∈ pairs, p.fst ∉ ids ∨ p.snd ∉ ids := by
  induction pairs generalizing ids
  case nil => simp
  case cons p pairs hi =>
    have ⟨hp, hn⟩ := List.nodup_cons.mp hn
    have ⟨hp', hn'⟩ := List.nodup_cons.mp hn'
    rw [List.foldl_cons, hi hn hn' fun q hq r hr => hd q (.tail _ hq) r (.tail _ hr),
      nodup_map_replaceId_iff (hd p (.head _) p (.head _)), List.forall_mem_cons, and_assoc]
    refine and_congr_right fun _ => and_congr_right fun _ => forall₂_congr fun q hq => ?_
    have h₁ : q.fst ≠ p.snd := hd q (.tail _ hq) p (.head _)
    have h₂ : q.fst ≠ p.fst := fun h => hp (List.mem_map.mpr ⟨q, hq, h⟩)
    have h₃ : q.snd ≠ p.snd := fun h => hp' (List.mem_map.mpr ⟨q, hq, h⟩)
    have h₄ : q.snd ≠ p.fst := (hd p (.head _) q (.tail _ hq)).symm
    rw [mem_map_replaceId_iff h₁ h₂, mem_map_replaceId_iff h₃ h₄]

end

theorem eq_of_countToken {token : Str} {identities : List (Str × ProjectRow)} {a b : ProjectRow}
    (h : countToken token identities = 1) (ha : (token, a) ∈ identities)
    (hb : (token, b) ∈ identities) : a = b := by
  rw [countToken, List.countP_eq_length_filter, List.length_eq_one_iff] at h
  have ⟨x, hx⟩ := h
  have hm {c : ProjectRow} (hc : (token, c) ∈ identities) : (token, c) = x := by
    have : (token, c) ∈ identities.filter (·.fst = token) := List.mem_filter.mpr ⟨hc, by simp⟩
    exact List.mem_singleton.mp (hx ▸ this)
  exact congrArg Prod.snd ((hm ha).trans (hm hb).symm)

section

variable {rows : List ProjectRow} {token : Str} {row placeholder canonical : ProjectRow}

theorem mem_placeholderRows : (token, row) ∈ placeholderRows rows ↔ row ∈ rows ∧ 0 < row.id ∧
    isSyntheticProjectPlaceholder row.slug row.humanKey ∧
    normalizedProjectMatchToken row.slug = some token := by
  simp only [placeholderRows, List.mem_filterMap, Option.ite_none_right_eq_some,
    Option.map_eq_some_iff, Prod.mk.injEq]
  constructor
  case mp  => rintro ⟨_, hr, ⟨hp, hs⟩, _, ht, rfl, rfl⟩; exact ⟨hr, hp, hs, ht⟩
  case mpr => exact fun ⟨hr, hp, hs, ht⟩ => ⟨row, hr, ⟨hp, hs⟩, token, ht, rfl, rfl⟩

theorem mem_canonicalRows : (token, row) ∈ canonicalRows rows ↔ row ∈ rows ∧ 0 < row.id ∧
    ¬isSyntheticProjectPlaceholder row.slug row.humanKey ∧ isAbsolute (trim row.humanKey) ∧
      projectBasenameTokenForHumanKey row.humanKey = some token := by
  simp only [canonicalRows, List.mem_filterMap, Option.ite_none_right_eq_some,
    Option.map_eq_some_iff, Prod.mk.injEq]
  constructor
  case mp  => rintro ⟨_, hr, ⟨hp, hs, ha⟩, _, ht, rfl, rfl⟩; exact ⟨hr, hp, hs, ha, ht⟩
  case mpr => exact fun ⟨hr, hp, hs, ha, ht⟩ => ⟨row, hr, ⟨hp, hs, ha⟩, token, ht, rfl, rfl⟩

theorem placeholderByToken_eq_some_iff (h : countToken token (placeholderRows rows) = 1) :
    placeholderByToken rows token = some placeholder ↔
      (token, placeholder) ∈ placeholderRows rows := by
  have of_some {p} (hp : placeholderByToken rows token = some p) :
      (token, p) ∈ placeholderRows rows := by
    have ⟨⟨t, q⟩, hf, he⟩ := Option.map_eq_some_iff.mp hp
    obtain rfl : t = token := by simpa using List.find?_some hf
    exact he ▸ List.mem_of_find?_eq_some hf
  constructor
  case mp  => exact of_some
  case mpr =>
    intro hp
    have ⟨q, hq⟩ : ∃ q, placeholderByToken rows token = some q := by
      rw [← Option.isSome_iff_exists, placeholderByToken, Option.isSome_map, List.find?_isSome]
      exact ⟨_, hp, by simp⟩
    rw [hq, eq_of_countToken h hp (of_some hq)]

theorem mem_sortedCanonicalRows {x : Str × ProjectRow} :
    x ∈ sortedCanonicalRows rows ↔ x ∈ canonicalRows rows :=
  List.mem_insertionSort _

-- The ids of a placeholder and of the canonical project that is merged into it.
def duplicatePair (rows : List ProjectRow) (identity : Str × ProjectRow) : Option (Int × Int) :=
  if countToken identity.fst (placeholderRows rows) = 1 ∧
    countToken identity.fst (canonicalRows rows) = 1 then
    (placeholderByToken rows identity.fst).map fun placeholder => (placeholder.id, identity.snd.id)
  else
    none

theorem duplicatePair_eq_some_iff {pair : Int × Int} :
    duplicatePair rows (token, canonical) = some pair ↔
      ∃ placeholder, (token, placeholder) ∈ placeholderRows rows ∧
        countToken token (placeholderRows rows) = 1 ∧ countToken token (canonicalRows rows) = 1 ∧
          pair = (placeholder.id, canonical.id) := by
  simp only [duplicatePair, Option.ite_none_right_eq_some, Option.map_eq_some_iff]
  constructor
  case mp =>
    intro ⟨⟨hp, hc⟩, placeholder, hb, he⟩
    exact ⟨placeholder, (placeholderByToken_eq_some_iff hp).mp hb, hp, hc, he.symm⟩
  case mpr =>
    intro ⟨placeholder, hb, hp, hc, he⟩
    exact ⟨⟨hp, hc⟩, placeholder, (placeholderByToken_eq_some_iff hp).mpr hb, he.symm⟩

variable (hn : (rows.map ProjectRow.id).Nodup)

include hn

theorem id_ne_of_rows {token' : Str} (hp : (token, placeholder) ∈ placeholderRows rows)
    (hc : (token', canonical) ∈ canonicalRows rows) : placeholder.id ≠ canonical.id := by
  intro he
  have ⟨hp, _, hs, _⟩ := mem_placeholderRows.mp hp
  have ⟨hc, _, hs', _⟩ := mem_canonicalRows.mp hc
  exact hs' (List.inj_on_of_nodup_map hn hp hc he ▸ hs)

theorem nodup_filterMap_rows {f : ProjectRow → Option (Str × ProjectRow)}
    (hf : ∀ a, ∀ x ∈ f a, x.snd = a) : (rows.filterMap f).Nodup :=
  hn.of_map.filterMap fun a b x ha hb => (hf a x ha).symm.trans (hf b x hb)

theorem nodup_placeholderRows : (placeholderRows rows).Nodup := by
  refine nodup_filterMap_rows hn fun a x hx => ?_
  have ⟨_, hx⟩ := Option.ite_none_right_eq_some.mp hx
  have ⟨_, _, hx⟩ := Option.map_eq_some_iff.mp hx
  exact hx ▸ rfl

theorem nodup_canonicalRows : (canonicalRows rows).Nodup := by
  refine nodup_filterMap_rows hn fun a x hx => ?_
  have ⟨_, hx⟩ := Option.ite_none_right_eq_some.mp hx
  have ⟨_, _, hx⟩ := Option.map_eq_some_iff.mp hx
  exact hx ▸ rfl

-- The pairs have no project in common.
theorem duplicatePair_injective {token' : Str} {canonical' : ProjectRow} {p q : Int × Int}
    (hc : (token, canonical) ∈ canonicalRows rows) (hc' : (token', canonical') ∈ canonicalRows rows)
    (hp : duplicatePair rows (token, canonical) = some p)
    (hq : duplicatePair rows (token', canonical') = some q) :
    (p.fst = q.fst → (token, canonical) = (token', canonical')) ∧
      (p.snd = q.snd → (token, canonical) = (token', canonical')) ∧ p.fst ≠ q.snd := by
  obtain ⟨_, hm, _, h, rfl⟩ := duplicatePair_eq_some_iff.mp hp
  obtain ⟨_, hm', _, h', rfl⟩ := duplicatePair_eq_some_iff.mp hq
  have ⟨hr, _, _, ht⟩ := mem_placeholderRows.mp hm
  have ⟨hr', _, _, ht'⟩ := mem_placeholderRows.mp hm'
  have ⟨hs, _, _, _, hu⟩ := mem_canonicalRows.mp hc
  have ⟨hs', _, _, _, hu'⟩ := mem_canonicalRows.mp hc'
  refine ⟨fun he => ?_, fun he => ?_, id_ne_of_rows hn hm hc'⟩
  · cases List.inj_on_of_nodup_map hn hr hr' he
    cases ht.symm.trans ht'
    rw [eq_of_countToken h hc hc']
  · cases List.inj_on_of_nodup_map hn hs hs' he
    cases hu.symm.trans hu'
    rfl

theorem duplicatePairs_spec :
    let pairs := (sortedCanonicalRows rows).filterMap (duplicatePair rows)
    (pairs.map Prod.fst).Nodup ∧ (pairs.map Prod.snd).Nodup ∧
      ∀ p ∈ pairs, ∀ q ∈ pairs, p.fst ≠ q.snd := by
  have h : ((sortedCanonicalRows rows).filterMap (duplicatePair rows)).Pairwise
      fun p q => p.fst ≠ q.fst ∧ p.snd ≠ q.snd := by
    refine List.pairwise_filterMap.mpr
      (((List.perm_insertionSort _ _).nodup_iff.mpr (nodup_canonicalRows hn)).pairwise_of_forall_ne
      ?_)
    intro x hx y hy hne p hp q hq
    have ⟨hf, hs, _⟩ := duplicatePair_injective hn (mem_sortedCanonicalRows.mp hx)
      (mem_sortedCanonicalRows.mp hy) hp hq
    exact ⟨mt hf hne, mt hs hne⟩
  refine ⟨List.pairwise_map.mpr (h.imp And.left), List.pairwise_map.mpr (h.imp And.right), ?_⟩
  intro p hp q hq
  have ⟨x, hx, hp⟩ := List.mem_filterMap.mp hp
  have ⟨y, hy, hq⟩ := List.mem_filterMap.mp hq
  exact (duplicatePair_injective hn (mem_sortedCanonicalRows.mp hx) (mem_sortedCanonicalRows.mp hy)
    hp hq).right.right

-- What one canonical project changes, where the ids of the remembered placeholders stay the same.
theorem reconcileProject_step {s : Merge} {byToken : Str → Option ProjectRow}
    (hx : (token, canonical) ∈ canonicalRows rows)
    (hb : ∀ token, (byToken token).map ProjectRow.id =
      (placeholderByToken rows token).map ProjectRow.id) :
    let s' := reconcileProject rows (s, byToken) (token, canonical)
    (∀ token, (s'.snd token).map ProjectRow.id =
      (placeholderByToken rows token).map ProjectRow.id) ∧
      s'.fst.targets = match duplicatePair rows (token, canonical) with
        | none   => s.targets
        | some p => s.targets.map (replaceId p.snd p.fst) := by
  dsimp only
  by_cases hc : countToken token (placeholderRows rows) = 1 ∧
    countToken token (canonicalRows rows) = 1
  case neg =>
    have hr : reconcileProject rows (s, byToken) (token, canonical) = (s, byToken) :=
      if_pos (not_and_or.mp hc)
    rw [hr, duplicatePair, if_neg hc]
    exact ⟨hb, rfl⟩
  case pos =>
    have ht := hb token
    rw [duplicatePair, if_pos hc, reconcileProject]
    simp only [hc, ne_eq, not_true_eq_false, or_self, if_false]
    cases hp : placeholderByToken rows token <;> rw [hp] at ht
    case none =>
      rw [Option.map_eq_none_iff.mp ht]
      exact ⟨hb, rfl⟩
    case some placeholder =>
      obtain ⟨p, hbp, hid⟩ := Option.map_eq_some_iff.mp ht
      have hne := id_ne_of_rows hn ((placeholderByToken_eq_some_iff hc.left).mp hp) hx
      rw [hbp]
      simp only [hid, hne, if_false]
      refine ⟨fun t => ?_, by simp [Merge.targets, Function.comp_def]⟩
      by_cases h : t = token
      case pos => simp [h, hp, ProjectRow.promote, hid]
      case neg => rw [Function.update_of_ne h, hb]

theorem foldl_reconcileProject {identities : List (Str × ProjectRow)} {s : Merge}
    {byToken : Str → Option ProjectRow} (hi : ∀ x ∈ identities, x ∈ canonicalRows rows)
    (hb : ∀ token, (byToken token).map ProjectRow.id =
      (placeholderByToken rows token).map ProjectRow.id) :
    (identities.foldl (reconcileProject rows) (s, byToken)).fst.targets =
      (identities.filterMap (duplicatePair rows)).foldl
        (fun ids p => ids.map (replaceId p.snd p.fst)) s.targets := by
  induction identities generalizing s byToken
  case nil => rfl
  case cons x identities ih =>
    have ⟨hx, hi⟩ := List.forall_mem_cons.mp hi
    have ⟨hb, ht⟩ := reconcileProject_step (s := s) hn hx hb
    rw [List.foldl_cons, List.filterMap_cons, ih hi hb, ht]
    cases duplicatePair rows x <;> rfl

end

section

variable {s : Merge} {nowMicros : Int} {target : Table ProjectRow.id}
  {salvage : Table SalvagedProject.id}

def Merge.sources (s : Merge) : List Int :=
  s.projectIdMap.map Prod.fst

theorem sources_reconcile : (reconcile s).sources = s.sources := by
  have h {rows : List ProjectRow} {identities : List (Str × ProjectRow)}
      {s : Merge × (Str → Option ProjectRow)} :
      (identities.foldl (reconcileProject rows) s).fst.sources = s.fst.sources := by
    induction identities generalizing s
    case nil => rfl
    case cons x identities hi =>
      refine hi.trans ?_
      simp only [reconcileProject, Merge.sources]
      split
      case isTrue  => rfl
      case isFalse =>
        split
        case h_1 => rfl
        case h_2 => split <;> simp [Function.comp_def]
  exact h

theorem sources_foldl_mergeProject {rows : List SalvagedProject} :
    ∃ ids, ids.Sublist (rows.map SalvagedProject.id) ∧
      (rows.foldl (mergeProject nowMicros) s).sources = s.sources ++ ids := by
  induction rows generalizing s
  case nil => exact ⟨[], .slnil, (List.append_nil _).symm⟩
  case cons row rows hi =>
    have ⟨ids, hs, he⟩ := hi (s := mergeProject nowMicros s row)
    rw [List.foldl_cons, he, List.map_cons]
    unfold Merge.sources
    have concat {id : Int} (hm : (mergeProject nowMicros s row).projectIdMap = s.projectIdMap ++
        [(row.id, id)]) : ∃ ids', ids'.Sublist (row.id :: rows.map SalvagedProject.id) ∧
          (mergeProject nowMicros s row).projectIdMap.map Prod.fst ++ ids =
            s.projectIdMap.map Prod.fst ++ ids' :=
      ⟨row.id :: ids, hs.cons_cons _, by simp [hm]⟩
    cases @mergesProject row nowMicros s
    case skip hm _   => exact ⟨ids, hs.cons _, by rw [hm]⟩
    case found hm _  => exact concat hm
    case insert hm _ => exact concat hm

-- Every project is mapped once.
theorem separate_iff (h : s.sources.Nodup) : s.Separate ↔ s.targets.Nodup := by
  have hn : s.projectIdMap.Nodup := h.of_map
  rw [Merge.targets, List.nodup_map_iff_inj_on hn]
  refine forall₂_congr fun a ha => forall₂_congr fun b hb => imp_congr_right fun _ => ?_
  exact ⟨fun he => List.inj_on_of_nodup_map h ha hb he, fun he => he ▸ rfl⟩

theorem nodup_reconcile_iff {s : Merge} :
    (reconcile s).targets.Nodup ↔ s.targets.Nodup ∧
      ∀ placeholder canonical, Duplicates (projectRows s.projects) placeholder canonical →
        placeholder.id ∉ s.targets ∨ canonical.id ∉ s.targets := by
  have hn : ((projectRows s.projects).map ProjectRow.id).Nodup :=
    ((List.perm_insertionSort _ _).map _).nodup_iff.mpr s.projects.nodup
  have ⟨hf, hs, hd⟩ := duplicatePairs_spec hn
  rw [reconcile, foldl_reconcileProject hn (fun _ => mem_sortedCanonicalRows.mp) fun _ => rfl,
    nodup_foldl_replaceId_iff hf hs hd]
  refine and_congr_right fun _ => ⟨fun h placeholder canonical hpc => ?_, fun h p hp => ?_⟩
  · have ⟨token, hp, hc, hp', hc'⟩ := hpc
    exact h (placeholder.id, canonical.id) <| List.mem_filterMap.mpr
      ⟨_, mem_sortedCanonicalRows.mpr hc,
        duplicatePair_eq_some_iff.mpr ⟨placeholder, hp, hp', hc', rfl⟩⟩
  · have ⟨(token, canonical), hc, hp⟩ := List.mem_filterMap.mp hp
    obtain ⟨placeholder, hm, hp', hc', rfl⟩ := duplicatePair_eq_some_iff.mp hp
    exact h placeholder canonical ⟨token, hm, mem_sortedCanonicalRows.mp hc, hp', hc'⟩


-- The map of the projects is injective if no project is found that another one was mapped to.
theorem separate_mergeSalvagedProjects_iff :
    (mergeSalvagedProjects nowMicros target salvage).Separate ↔
      (∀ before row after, salvagedRows salvage = before ++ row :: after → row.Valid →
        ∀ project ∈
          existingProject (before.foldl (mergeProject nowMicros) (.ofTarget target)).projects row,
          project.id ∉ (before.foldl (mergeProject nowMicros) (.ofTarget target)).targets) ∧
      ∀ placeholder canonical, Duplicates (projectRows
          ((salvagedRows salvage).foldl (mergeProject nowMicros) (.ofTarget target)).projects)
            placeholder canonical →
        placeholder.id ∉
          ((salvagedRows salvage).foldl (mergeProject nowMicros) (.ofTarget target)).targets ∨
          canonical.id ∉
            ((salvagedRows salvage).foldl (mergeProject nowMicros) (.ofTarget target)).targets := by
  have ⟨ids, hs, he⟩ :=
    @sources_foldl_mergeProject (.ofTarget target) nowMicros (salvagedRows salvage)
  have hn : (mergeSalvagedProjects nowMicros target salvage).sources.Nodup := by
    rw [mergeSalvagedProjects, sources_reconcile, he]
    have := ((List.perm_insertionSort (fun a b => a.id ≤ b.id) _).map _).nodup_iff.mpr salvage.nodup
    exact hs.nodup this
  have hb : Bounded (.ofTarget target) := nofun
  rw [separate_iff hn, mergeSalvagedProjects, nodup_reconcile_iff, (foldl_mergeProject hb).right]
  have hnil : (Merge.ofTarget target).targets.Nodup := .nil
  exact and_congr_left fun _ => and_iff_right hnil

end

section

variable {s s' : Merge} {nowMicros : Int} {target : Table ProjectRow.id}
  {salvage : Table SalvagedProject.id} {before : List SalvagedProject} {row : SalvagedProject}
  {project : ProjectRow}

-- What is known after the merge of some projects, as long as none of them was found twice.
structure Merged (target : Table ProjectRow.id) (salvage : Table SalvagedProject.id) (s : Merge)
    (before : List SalvagedProject) : Prop where
  untouched : ∀ project ∈ target.rows, project.id ∉ s.targets → project ∈ s.projects.rows
  rows      : ∀ project ∈ s.projects.rows, project ∈ target.rows ∧ project.id ∉ s.targets ∨
    ∃ row ∈ before, row.Valid ∧ (row.id, project.id) ∈ s.projectIdMap ∧
      Ends target salvage row project.slug project.humanKey
  claimed   : ∀ project ∈ target.rows, project.id ∈ s.targets →
    ∃ row ∈ before, row.Valid ∧ Claims target salvage row project
  merged    : ∀ row ∈ before, row.Valid → ∃ project ∈ s.projects.rows,
    (row.id, project.id) ∈ s.projectIdMap ∧ Ends target salvage row project.slug project.humanKey
  taken     : ∀ row ∈ before, row.Valid → ∀ project ∈ target.rows,
    project.slug = row.trimmedSlug → project.id ∈ s.targets
  positive  : ∀ project ∈ s.projects.rows, 0 < project.id

theorem mem_targets {id id' : Int} (h : (id, id') ∈ s.projectIdMap) : id' ∈ s.targets :=
  List.mem_map.mpr ⟨_, h, rfl⟩

theorem merged_ofTarget (ht : Reconstructed target) :
    Merged target salvage (.ofTarget target) [] where
  untouched _ hp _ := hp
  rows _ hp        := .inl ⟨hp, nofun⟩
  claimed _ _ h    := nomatch h
  merged           := nofun
  taken            := nofun
  positive         := ht.ids

theorem queryProject_eq_none_iff {p : ProjectRow → Bool} {projects : Table ProjectRow.id} :
    queryProject projects p = none ↔ ∀ project ∈ projects.rows, ¬p project := by
  simp [queryProject, mem_projectRows]

-- Where a project is found.
theorem existingProject_cases {projects : Table ProjectRow.id}
    (h : existingProject projects row = some project) :
    project.slug = row.trimmedSlug ∨ (∀ project ∈ projects.rows, project.slug ≠ row.trimmedSlug) ∧
      row.placeholder = some project.humanKey := by
  obtain h | ⟨hn, h⟩ := Option.or_eq_some_iff.mp h
  · exact .inl (by simpa using List.find?_some h)
  · have ⟨humanKey, hk, h⟩ := Option.bind_eq_some_iff.mp h
    have he : project.humanKey = humanKey := by simpa using List.find?_some h
    exact .inr ⟨by simpa using queryProject_eq_none_iff.mp hn, he ▸ hk⟩

theorem existingProject_slug {projects : Table ProjectRow.id} (hp : project ∈ projects.rows)
    (hs : project.slug = row.trimmedSlug) :
    ∃ found, existingProject projects row = some found ∧ found.slug = row.trimmedSlug := by
  cases hq : queryProject projects (·.slug = row.trimmedSlug)
  case none       => exact absurd (decide_eq_true hs) (queryProject_eq_none_iff.mp hq project hp)
  case some found =>
    exact ⟨found, by simp [existingProject, hq], by simpa using List.find?_some hq⟩

theorem existingProject_placeholder {projects : Table ProjectRow.id} (hp : project ∈ projects.rows)
    (hk : row.placeholder = some project.humanKey) : existingProject projects row ≠ none := by
  intro hn
  have ⟨_, hn⟩ := Option.or_eq_none_iff.mp hn
  rw [show placeholderHumanKeyForHumanKey row.humanKeyOrPlaceholder = _ from hk,
    Option.bind_some] at hn
  exact absurd (decide_eq_true rfl) (queryProject_eq_none_iff.mp hn project hp)

theorem eq_of_slug (ht : Reconstructed target) {project' : ProjectRow} (h : project ∈ target.rows)
    (h' : project' ∈ target.rows) (hs : project.slug = project'.slug) : project = project' :=
  List.inj_on_of_nodup_map ht.slugs h h' hs

theorem eq_of_id {projects : Table ProjectRow.id} {project' : ProjectRow}
    (h : project ∈ projects.rows) (h' : project' ∈ projects.rows) (hi : project.id = project'.id) :
    project = project' :=
  List.inj_on_of_nodup_map projects.nodup h h' hi

-- A found row that no project was mapped to is one of the archive.
theorem Merged.claims (h : Merged target salvage s before) (hf : project.id ∉ s.targets)
    (he : existingProject s.projects row = some project)
    (ha : (∀ project ∈ s.projects.rows, project.slug ≠ row.trimmedSlug) →
      ¬Archived target salvage row) :
    project ∈ target.rows ∧ Claims target salvage row project := by
  have hp : project ∈ target.rows := by
    cases h.rows project (mem_of_existingProject he)
    case inl h => exact h.left
    case inr h =>
      have ⟨_, _, _, hm, _⟩ := h
      exact absurd (mem_targets hm) hf
  refine ⟨hp, hp, ?_⟩
  cases existingProject_cases he
  case inl hs => exact .inl hs
  case inr hk => exact .inr ⟨ha hk.left, hk.right⟩

theorem trim_trimmedSlug : trim row.trimmedSlug = row.trimmedSlug :=
  Pattern.trim_trim

theorem ends_enrich (createdAt : Int) (hv : row.Valid) (hc : Claims target salvage row project) :
    let enriched := project.enrich row.trimmedSlug row.humanKeyOrPlaceholder createdAt
    Ends target salvage row enriched.slug enriched.humanKey := by
  by_cases hp : project.IsPlaceholder
  case pos =>
    have := Ends.renamed hc hp
    simpa [ProjectRow.enrich, show _ ∨ _ from hp, trim_trimmedSlug, hv.right] using this
  case neg =>
    have := Ends.kept hc hp
    simpa [ProjectRow.enrich, show ¬(_ ∨ _) from hp] using this

theorem targets_append {entry : Int × Int} (hm : s'.projectIdMap = s.projectIdMap ++ [entry])
    {id : Int} : id ∈ s'.targets ↔ id ∈ s.targets ∨ id = entry.snd := by
  simp [Merge.targets, hm]

theorem Merged.skip (h : Merged target salvage s before) (hr : ¬row.Valid)
    (hm : s'.projectIdMap = s.projectIdMap) (hp : s'.projects = s.projects) :
    Merged target salvage s' (before ++ [row]) := by
  have mem {row' : SalvagedProject} (hm : row' ∈ before ++ [row]) (hv : row'.Valid) :
      row' ∈ before := by
    refine (List.mem_append.mp hm).resolve_right fun hm => hr ?_
    exact List.mem_singleton.mp hm ▸ hv
  have hi : s'.targets = s.targets := by rw [Merge.targets, hm, Merge.targets]
  constructor
  case untouched =>
    rw [hi, hp]
    exact h.untouched
  case rows =>
    rw [hi, hp, hm]
    exact fun project hp => (h.rows project hp).imp_right fun ⟨row', hb, h⟩ =>
      ⟨row', List.mem_append_left _ hb, h⟩
  case claimed =>
    rw [hi]
    intro project hp hi
    have ⟨row', hb, h⟩ := h.claimed project hp hi
    exact ⟨row', List.mem_append_left _ hb, h⟩
  case merged =>
    rw [hp, hm]
    exact fun row' hb hv => h.merged row' (mem hb hv) hv
  case taken =>
    rw [hi]
    exact fun row' hb hv => h.taken row' (mem hb hv) hv
  case positive =>
    rw [hp]
    exact h.positive

theorem Merged.found (ht : Reconstructed target) (h : Merged target salvage s before)
    (hv : row.Valid) {createdAt : Int} (he : existingProject s.projects row = some project)
    (hf : project.id ∉ s.targets) (hp : project ∈ target.rows)
    (hc : Claims target salvage row project)
    (hm : s'.projectIdMap = s.projectIdMap ++ [(row.id, project.id)]) (hs : s'.projects =
      enrichExistingProject s.projects project.id row.trimmedSlug row.humanKeyOrPlaceholder
        createdAt) :
    Merged target salvage s' (before ++ [row]) := by
  let write (a : ProjectRow) : ProjectRow :=
    if a.id = project.id then a.enrich row.trimmedSlug row.humanKeyOrPlaceholder createdAt else a
  have hrows : s'.projects.rows = s.projects.rows.map write := by
    simp [hs, enrichExistingProject, Table.update, write]
  have hmem : project ∈ s.projects.rows := mem_of_existingProject he
  have same {a : ProjectRow} (ha : a.id ≠ project.id) : write a = a := if_neg ha
  have self : write project = project.enrich row.trimmedSlug row.humanKeyOrPlaceholder createdAt :=
    if_pos rfl
  have keep {a : ProjectRow} (ha : a ∈ s.projects.rows) (hi : a.id ≠ project.id) :
      a ∈ s'.projects.rows :=
    hrows ▸ List.mem_map.mpr ⟨a, ha, same hi⟩
  have entry {e : Int × Int} (h : e ∈ s.projectIdMap) : e ∈ s'.projectIdMap :=
    hm ▸ List.mem_append_left _ h
  have last : (row.id, project.id) ∈ s'.projectIdMap :=
    hm ▸ List.mem_append_right _ (List.mem_singleton_self _)
  have hends := ends_enrich createdAt hv hc
  constructor
  case untouched =>
    intro a ha hi
    rw [targets_append hm, not_or] at hi
    exact keep (h.untouched a ha hi.left) hi.right
  case rows =>
    intro a ha
    obtain ⟨b, hb, rfl⟩ := List.mem_map.mp (hrows ▸ ha)
    by_cases hi : b.id = project.id
    case pos =>
      cases eq_of_id hb hmem hi
      rw [self]
      exact .inr ⟨row, by simp, hv, last, hends⟩
    case neg =>
      rw [same hi]
      refine (h.rows b hb).imp (fun ⟨hb, ha'⟩ => ⟨hb, ?_⟩) fun ⟨row', hb, hv, hm, he⟩ =>
        ⟨row', List.mem_append_left _ hb, hv, entry hm, he⟩
      rw [targets_append hm, not_or]
      exact ⟨ha', hi⟩
  case claimed =>
    intro a ha hi
    cases (targets_append hm).mp hi
    case inl hi =>
      have ⟨row', hb, h⟩ := h.claimed a ha hi
      exact ⟨row', List.mem_append_left _ hb, h⟩
    case inr hi => exact ⟨row, by simp, hv, eq_of_id ha hp hi ▸ hc⟩
  case merged =>
    intro row' hb hv'
    cases List.mem_append.mp hb
    case inl hb =>
      have ⟨a, ha, hm, he⟩ := h.merged row' hb hv'
      refine ⟨a, keep ha fun hi => hf ?_, entry hm, he⟩
      exact hi ▸ mem_targets hm
    case inr hb =>
      cases List.mem_singleton.mp hb
      have hmem' : write project ∈ s'.projects.rows := hrows ▸ List.mem_map.mpr ⟨project, hmem, rfl⟩
      rw [self] at hmem'
      exact ⟨_, hmem', last, hends⟩
  case taken =>
    intro row' hb hv' a ha hsl
    rw [targets_append hm]
    cases List.mem_append.mp hb
    case inl hb => exact .inl (h.taken row' hb hv' a ha hsl)
    case inr hb =>
      cases List.mem_singleton.mp hb
      by_cases hi : a.id ∈ s.targets
      case pos => exact .inl hi
      case neg =>
        have ⟨found, hf, hsl'⟩ := existingProject_slug (h.untouched a ha hi) hsl
        cases he.symm.trans hf
        exact .inr (congrArg _ (eq_of_slug ht ha hp (hsl.trans hsl'.symm)))
  case positive =>
    intro a ha
    obtain ⟨b, hb, rfl⟩ := List.mem_map.mp (hrows ▸ ha)
    have : (write b).id = b.id := by
      simp only [write]
      split <;> rfl
    exact this ▸ h.positive b hb

theorem Merged.insert (h : Merged target salvage s before) (hb : Bounded s) (hv : row.Valid)
    {createdAt : Int} (he : existingProject s.projects row = none)
    (ha : ¬Archived target salvage row)
    (hm : s'.projectIdMap = s.projectIdMap ++ [(row.id, maxId s.projects + 1)])
    (hs : s'.projects = s.projects.insertOrIgnore
      ⟨maxId s.projects + 1, row.trimmedSlug, row.humanKeyOrPlaceholder, createdAt⟩) :
    Merged target salvage s' (before ++ [row]) := by
  let inserted : ProjectRow :=
    ⟨maxId s.projects + 1, row.trimmedSlug, row.humanKeyOrPlaceholder, createdAt⟩
  have hrows : s'.projects.rows = s.projects.rows ++ [inserted] := by
    rw [hs, Table.rows_insertOrIgnore (get?_of_maxId_lt (by dsimp only; omega))]
  have fresh {a : ProjectRow} (ha : a ∈ target.rows) : a.id ≠ maxId s.projects + 1 := by
    have : a.id ≤ maxId s.projects := by
      by_cases hi : a.id ∈ s.targets
      case pos => exact hb a.id hi
      case neg => exact le_maxId (h.untouched a ha hi)
    omega
  have keep {a : ProjectRow} (ha : a ∈ s.projects.rows) : a ∈ s'.projects.rows :=
    hrows ▸ List.mem_append_left _ ha
  have entry {e : Int × Int} (h : e ∈ s.projectIdMap) : e ∈ s'.projectIdMap :=
    hm ▸ List.mem_append_left _ h
  have last : (row.id, inserted.id) ∈ s'.projectIdMap :=
    hm ▸ List.mem_append_right _ (List.mem_singleton_self _)
  constructor
  case untouched =>
    intro a ha hi
    rw [targets_append hm, not_or] at hi
    exact keep (h.untouched a ha hi.left)
  case rows =>
    intro a ha
    cases List.mem_append.mp (hrows ▸ ha)
    case inl ha =>
      refine (h.rows a ha).imp (fun ⟨ha, ha'⟩ => ⟨ha, ?_⟩) fun ⟨row', hb, hv, hm, he⟩ =>
        ⟨row', List.mem_append_left _ hb, hv, entry hm, he⟩
      rw [targets_append hm, not_or]
      exact ⟨ha', fresh ha⟩
    case inr ha =>
      cases List.mem_singleton.mp ha
      exact .inr ⟨row, by simp, hv, last, .inserted ‹_›⟩
  case claimed =>
    intro a ha hi
    have ⟨row', hb, h⟩ := h.claimed a ha (((targets_append hm).mp hi).resolve_right (fresh ha))
    exact ⟨row', List.mem_append_left _ hb, h⟩
  case merged =>
    intro row' hb hv'
    cases List.mem_append.mp hb
    case inl hb =>
      have ⟨a, ha, hm, he⟩ := h.merged row' hb hv'
      exact ⟨a, keep ha, entry hm, he⟩
    case inr hb =>
      cases List.mem_singleton.mp hb
      exact ⟨inserted, hrows ▸ by simp, last, .inserted ha⟩
  case taken =>
    intro row' hb hv' a ha' hsl
    rw [targets_append hm]
    refine .inl ?_
    cases List.mem_append.mp hb
    case inl hb => exact h.taken row' hb hv' a ha' hsl
    case inr hb =>
      cases List.mem_singleton.mp hb
      by_contra hi
      have ⟨_, hf, _⟩ := existingProject_slug (h.untouched a ha' hi) hsl
      cases he.symm.trans hf
  case positive =>
    intro a ha
    cases List.mem_append.mp (hrows ▸ ha)
    case inl ha => exact h.positive a ha
    case inr ha =>
      cases List.mem_singleton.mp ha
      exact Int.lt_add_one_of_le RowIds.le_foldl_max.left

-- The conditions under which a project is merged with a row of its own.
theorem Merged.step (ht : Reconstructed target) (h : Merged target salvage s before)
    (hb : Bounded s) (hs : MergesProject s s' row)
    (ha : row.Valid → (∀ project ∈ s.projects.rows, project.slug ≠ row.trimmedSlug) →
      ¬Archived target salvage row)
    (hf : row.Valid → ∀ project ∈ existingProject s.projects row, project.id ∉ s.targets) :
    Merged target salvage s' (before ++ [row]) := by
  cases hs
  case skip hr hm hp     => exact h.skip hr hm hp
  case found hv project _ he hm hp =>
    have ⟨hp', hc⟩ := h.claims (hf hv project he) he (ha hv)
    exact h.found ht hv he (hf hv project he) hp' hc hm hp
  case insert hv _ he hm hp =>
    refine h.insert hb hv he (ha hv fun project hp hs => ?_) hm hp
    have ⟨_, hf, _⟩ := existingProject_slug hp hs
    cases he.symm.trans hf

-- The state in front of a project.
def mergeAll (nowMicros : Int) (target : Table ProjectRow.id) (before : List SalvagedProject) :
    Merge :=
  before.foldl (mergeProject nowMicros) (.ofTarget target)

theorem bounded_mergeAll : Bounded (mergeAll nowMicros target before) :=
  (foldl_mergeProject (by nofun)).left

theorem mem_salvagedRows : row ∈ salvagedRows salvage ↔ row ∈ salvage.rows :=
  List.mem_insertionSort _

theorem eq_of_salvaged_id {row' : SalvagedProject} (h : row ∈ salvage.rows)
    (h' : row' ∈ salvage.rows) (hi : row.id = row'.id) : row = row' :=
  List.inj_on_of_nodup_map salvage.nodup h h' hi

-- The projects are merged in the order of their ids.
theorem id_lt_of_before {after : List SalvagedProject} {row' : SalvagedProject}
    (h : salvagedRows salvage = before ++ row :: after) (hb : row' ∈ before) :
    row'.id < row.id := by
  have hs : (before ++ row :: after).Pairwise fun a b => a.id ≤ b.id :=
    h ▸ List.pairwise_insertionSort (fun a b : SalvagedProject => a.id ≤ b.id) _
  have hn : ((before ++ row :: after).map SalvagedProject.id).Nodup :=
    h ▸ ((List.perm_insertionSort _ _).map _).nodup_iff.mpr salvage.nodup
  have hle := (List.pairwise_append.mp hs).right.right row' hb row (.head _)
  have hne : row'.id ≠ row.id := by
    rw [List.map_append] at hn
    exact (List.nodup_append.mp hn).right.right _ (List.mem_map.mpr ⟨row', hb, rfl⟩) _ (by simp)
  omega

theorem mem_before {after : List SalvagedProject} {row' : SalvagedProject}
    (h : salvagedRows salvage = before ++ row :: after) (hr : row' ∈ salvage.rows)
    (hi : row'.id < row.id) : row' ∈ before := by
  have hm := mem_salvagedRows.mpr hr
  rw [h] at hm
  have hs : (before ++ row :: after).Pairwise fun a b => a.id ≤ b.id :=
    h ▸ List.pairwise_insertionSort (fun a b : SalvagedProject => a.id ≤ b.id) _
  refine (List.mem_append.mp hm).resolve_right fun hm => ?_
  cases hm
  case head       => omega
  case tail hm    =>
    have := (List.pairwise_cons.mp (List.pairwise_append.mp hs).right.left).left row' hm
    omega

-- The invariant holds in front of each project if no one is found twice.
theorem merged_mergeAll (ht : Reconstructed target)
    (ha : ∀ before row after, salvagedRows salvage = before ++ row :: after → row.Valid →
      Merged target salvage (mergeAll nowMicros target before) before →
      (∀ project ∈ (mergeAll nowMicros target before).projects.rows,
        project.slug ≠ row.trimmedSlug) →
      ¬Archived target salvage row)
    (hf : ∀ before row after, salvagedRows salvage = before ++ row :: after → row.Valid →
      Merged target salvage (mergeAll nowMicros target before) before →
      ∀ project ∈ existingProject (mergeAll nowMicros target before).projects row,
        project.id ∉ (mergeAll nowMicros target before).targets)
    {after : List SalvagedProject} (h : salvagedRows salvage = before ++ after) :
    Merged target salvage (mergeAll nowMicros target before) before := by
  induction before using List.reverseRecOn generalizing after
  case nil => exact merged_ofTarget ht
  case append_singleton before row hi =>
    rw [List.append_assoc] at h
    have hm := hi h
    rw [mergeAll, List.foldl_append]
    exact hm.step ht bounded_mergeAll mergesProject (fun hv => ha before row after h hv hm)
      fun hv => hf before row after h hv hm

theorem Ends.unique (ht : Reconstructed target) (hs : Settled target salvage row)
    {slug humanKey slug' humanKey' : Str} (h : Ends target salvage row slug humanKey)
    (h' : Ends target salvage row slug' humanKey') : slug = slug' ∧ humanKey = humanKey' := by
  cases hs
  case inr hn =>
    have only {slug humanKey : Str} (h : Ends target salvage row slug humanKey) :
        slug = row.trimmedSlug ∧ humanKey = row.humanKeyOrPlaceholder := by
      cases h
      case inserted     => exact ⟨rfl, rfl⟩
      case renamed hc _ => exact absurd hc (hn _)
      case kept hc _    => exact absurd hc (hn _)
    exact ⟨(only h).left.trans (only h').left.symm, (only h).right.trans (only h').right.symm⟩
  case inl ha =>
    have same {project project' : ProjectRow} (h : Claims target salvage row project)
        (h' : Claims target salvage row project') : project = project' := by
      have slug {project : ProjectRow} (h : Claims target salvage row project) :
          project.slug = row.trimmedSlug := h.right.resolve_right fun h => h.left ha
      exact eq_of_slug ht h.left h'.left ((slug h).trans (slug h').symm)
    cases h <;> cases h'
    case renamed.renamed hc _ _ hc' _ => cases same hc hc'; exact ⟨rfl, rfl⟩
    case renamed.kept hc hp _ hc' hp' => cases same hc hc'; exact absurd hp hp'
    case kept.renamed hc hp _ hc' hp' => cases same hc hc'; exact absurd hp' hp
    case kept.kept hc _ _ hc' _       => cases same hc hc'; exact ⟨rfl, rfl⟩
    all_goals exact absurd ha ‹_›

section

variable (hn : NoneShared target salvage) (hm : Merged target salvage s before)
  (hb : ∀ row' ∈ before, row' ∈ salvage.rows ∧ row'.id < row.id) (hr : row ∈ salvage.rows)
    (hv : row.Valid)

include hn hm hb hr hv

theorem NoneShared.not_archived (hs : ∀ project ∈ s.projects.rows, project.slug ≠ row.trimmedSlug) :
    ¬Archived target salvage row := by
  intro ⟨project, hp, hslug, hother⟩
  by_cases hi : project.id ∈ s.targets
  case neg => exact hs project (hm.untouched project hp hi) hslug
  case pos =>
    have ⟨row', hb', hv', hc⟩ := hm.claimed project hp hi
    have ⟨hr', hlt⟩ := hb row' hb'
    have found {slug humanKey : Str} (h : Ends target salvage row' slug humanKey) :
        slug ≠ row.trimmedSlug :=
      (hn.found row' hr' row hr hv' hv hlt slug humanKey h).left
    by_cases hp' : project.IsPlaceholder
    case neg => exact found (.kept hc hp') hslug
    case pos =>
      cases hc.right
      case inl hslug' => exact found (.renamed hc hp') (hslug'.symm.trans hslug)
      case inr hkey   =>
        have := hother hp' row' hr' hv' hkey.right
        exact absurd (this ▸ hlt) (Int.lt_irrefl _)

theorem NoneShared.not_found (he : existingProject s.projects row = some project) :
    project.id ∉ s.targets := by
  intro hi
  cases hm.rows project (mem_of_existingProject he)
  case inl h => exact h.right hi
  case inr h =>
    have ⟨row', hb', hv', _, hends⟩ := h
    have ⟨hr', hlt⟩ := hb row' hb'
    have ⟨hslug, hkey⟩ := hn.found row' hr' row hr hv' hv hlt _ _ hends
    cases existingProject_cases he
    case inl hs => exact hslug hs
    case inr hk => exact hkey (hn.not_archived hm hb hr hv hk.left) hk.right

end

theorem merged_of_noneShared (ht : Reconstructed target) (hn : NoneShared target salvage)
    {after : List SalvagedProject} (h : salvagedRows salvage = before ++ after) :
    Merged target salvage (mergeAll nowMicros target before) before := by
  have rows {before : List SalvagedProject} {row : SalvagedProject} {after : List SalvagedProject}
      (h : salvagedRows salvage = before ++ row :: after) :
      (∀ row' ∈ before, row' ∈ salvage.rows ∧ row'.id < row.id) ∧ row ∈ salvage.rows :=
    ⟨fun row' hb => ⟨mem_salvagedRows.mp (h ▸ List.mem_append_left _ hb), id_lt_of_before h hb⟩,
      mem_salvagedRows.mp (h ▸ by simp)⟩
  refine merged_mergeAll ht (fun before row after h hv hm => ?_)
    (fun before row after h hv hm project => ?_) h
  · exact hn.not_archived hm (rows h).left (rows h).right hv
  · exact hn.not_found hm (rows h).left (rows h).right hv

theorem Claims.slug (h : Claims target salvage row project) (hs : Settled target salvage row) :
    project.slug = row.trimmedSlug :=
  h.right.resolve_right fun hk => hs.elim hk.left fun hn => hn project h

theorem Ends.slug {slug humanKey : Str} (h : Ends target salvage row slug humanKey)
    (hs : Settled target salvage row) : slug = row.trimmedSlug := by
  cases h
  case inserted  => rfl
  case renamed   => rfl
  case kept hc _ => exact hc.slug hs

theorem id_unique {id a b : Int} (h : s.sources.Nodup) (ha : (id, a) ∈ s.projectIdMap)
    (hb : (id, b) ∈ s.projectIdMap) : a = b :=
  congrArg Prod.snd (List.inj_on_of_nodup_map h ha hb rfl)

theorem source_unique {id a b : Int} (h : s.targets.Nodup) (ha : (a, id) ∈ s.projectIdMap)
    (hb : (b, id) ∈ s.projectIdMap) : a = b :=
  congrArg Prod.fst (List.inj_on_of_nodup_map h ha hb rfl)

theorem nodup_sources_mergeAll :
    (mergeAll nowMicros target (salvagedRows salvage)).sources.Nodup := by
  have ⟨ids, hs, he⟩ :=
    @sources_foldl_mergeProject (.ofTarget target) nowMicros (salvagedRows salvage)
  rw [mergeAll, he]
  have := ((List.perm_insertionSort (fun a b => a.id ≤ b.id) _).map _).nodup_iff.mpr salvage.nodup
  exact hs.nodup this

section

variable (ht : Reconstructed target) (hm : Merged target salvage s (salvagedRows salvage))

include hm

-- The fixed rows are in the table in the end, and belong to their owners only.
theorem Merged.fixed (ht : Reconstructed target) (hn : s.targets.Nodup)
    {owner : Option SalvagedProject} {slug humanKey : Str}
    (hf : Fixed target salvage owner slug humanKey) :
    ∃ project ∈ s.projects.rows, project.slug = slug ∧ project.humanKey = humanKey ∧
      ∀ row ∈ salvage.rows, (row.id, project.id) ∈ s.projectIdMap → owner = some row := by
  cases hf
  case archived project hp hc =>
    have hi : project.id ∉ s.targets := fun hi =>
      have ⟨row, hr, hv, h⟩ := hm.claimed project hp hi
      hc row (mem_salvagedRows.mp hr) hv h
    exact ⟨project, hm.untouched project hp hi, rfl, rfl, fun row _ h => absurd (mem_targets h) hi⟩
  case merged row hr hv hs he =>
    have ⟨project, hp, hi, he'⟩ := hm.merged row (mem_salvagedRows.mpr hr) hv
    have ⟨hslug, hkey⟩ := he'.unique ht hs he
    refine ⟨project, hp, hslug, hkey, fun row' hr' h => congrArg some ?_⟩
    exact eq_of_salvaged_id hr hr' (source_unique hn hi h)

theorem Merged.owner (hp : project ∈ s.projects.rows) (hi : project.id ∈ s.targets) :
    ∃ row ∈ salvage.rows, row.Valid ∧ (row.id, project.id) ∈ s.projectIdMap ∧
      Ends target salvage row project.slug project.humanKey := by
  cases hm.rows project hp
  case inl h => exact absurd hi h.right
  case inr h =>
    have ⟨row, hr, h⟩ := h
    exact ⟨row, mem_salvagedRows.mp hr, h⟩

theorem NoneShared.not_duplicates (ht : Reconstructed target) (hn : NoneShared target salvage)
    (hs : s.sources.Nodup) (hnt : s.targets.Nodup) {placeholder canonical : ProjectRow}
    (hd : Duplicates (projectRows s.projects) placeholder canonical) :
    placeholder.id ∉ s.targets ∨ canonical.id ∉ s.targets := by
  by_contra hc
  push Not at hc
  have ⟨token, hp, hc', hone, hone'⟩ := hd
  have ⟨hp₁, _, hsyn, htoken⟩ := mem_placeholderRows.mp hp
  have ⟨hc₁, _, hcan⟩ := mem_canonicalRows.mp hc'
  have ⟨row, hr, hv, hi, he⟩ := hm.owner (mem_projectRows.mp hp₁) hc.left
  have ⟨other, hr', hv', hi', he'⟩ := hm.owner (mem_projectRows.mp hc₁) hc.right
  have hids : ((projectRows s.projects).map ProjectRow.id).Nodup :=
    ((List.perm_insertionSort _ _).map _).nodup_iff.mpr s.projects.nodup
  have hne : row ≠ other := by
    rintro rfl
    exact id_ne_of_rows hids hp hc' (id_unique hs hi hi')
  obtain ⟨owner, slug, humanKey, hf, hfix⟩ :=
    hn.names row hr other hr' hv hv' hne token _ _ _ _ he ⟨hsyn, htoken⟩ he' hcan
  obtain ⟨project, hmem, rfl, rfl, howner⟩ := hm.fixed ht hnt hf
  have hmem' := mem_projectRows.mpr hmem
  have hpos := hm.positive project hmem
  rcases hfix with ⟨hne, hsyn⟩ | ⟨hne, hcan⟩
  · cases eq_of_countToken hone hp (mem_placeholderRows.mpr ⟨hmem', hpos, hsyn⟩)
    exact hne (howner row hr hi)
  · cases eq_of_countToken hone' hc' (mem_canonicalRows.mpr ⟨hmem', hpos, hcan⟩)
    exact hne (howner other hr' hi')

end

theorem countToken_eq_one {token : Str} {identities : List (Str × ProjectRow)}
    (hn : identities.Nodup) (hp : (token, project) ∈ identities)
    (h : ∀ a, (token, a) ∈ identities → a = project) : countToken token identities = 1 := by
  rw [← List.count_eq_one_of_mem hn hp, countToken, List.count]
  refine List.countP_congr fun ⟨t, a⟩ ha => ?_
  simp only [decide_eq_true_eq, beq_iff_eq, Prod.mk.injEq]
  exact ⟨fun ht => ⟨ht, h a (ht ▸ ha)⟩, And.left⟩

-- Conversely, if every project is merged with a row of its own.

theorem not_archived_of_settled {after : List SalvagedProject}
    (hset : ∀ row ∈ salvage.rows, row.Valid → Settled target salvage row)
    (h : salvagedRows salvage = before ++ row :: after) (hm : Merged target salvage s before)
    (hs : ∀ project ∈ s.projects.rows, project.slug ≠ row.trimmedSlug) :
    ¬Archived target salvage row := by
  intro ⟨project, hp, hslug, _⟩
  by_cases hi : project.id ∈ s.targets
  case neg => exact hs project (hm.untouched project hp hi) hslug
  case pos =>
    have ⟨row', hb, hv, hc⟩ := hm.claimed project hp hi
    have hset := hset row' (mem_salvagedRows.mp (h ▸ List.mem_append_left _ hb)) hv
    have ⟨merged, hmem, _, he⟩ := hm.merged row' hb hv
    exact hs merged hmem ((he.slug hset).trans ((hc.slug hset).symm.trans hslug))

section

variable (ht : Reconstructed target)
  (hset : ∀ row ∈ salvage.rows, row.Valid → Settled target salvage row)
  (hfound : ∀ before row after, salvagedRows salvage = before ++ row :: after → row.Valid →
    ∀ project ∈ existingProject (mergeAll nowMicros target before).projects row,
      project.id ∉ (mergeAll nowMicros target before).targets)

include ht hset hfound

theorem merged_of_settled {after : List SalvagedProject}
    (h : salvagedRows salvage = before ++ after) :
    Merged target salvage (mergeAll nowMicros target before) before :=
  merged_mergeAll ht (fun _ _ _ h _ hm => not_archived_of_settled hset h hm)
    (fun before row after h hv _ => hfound before row after h hv) h

theorem found_of_settled {next : SalvagedProject} {slug humanKey : Str} (hr : row ∈ salvage.rows)
    (hn : next ∈ salvage.rows) (hv : row.Valid) (hv' : next.Valid) (hlt : row.id < next.id)
    (he : Ends target salvage row slug humanKey) : slug ≠ next.trimmedSlug ∧
      (¬Archived target salvage next → next.placeholder ≠ some humanKey) := by
  have ⟨before, after, h⟩ := List.append_of_mem (mem_salvagedRows.mpr hn)
  have hb := mem_before h hr hlt
  have hm := merged_of_settled ht hset hfound h
  have hfound := hfound before next after h hv'
  have ⟨project, hp, _, he'⟩ := hm.merged row hb hv
  have ⟨hslug, hkey⟩ := he.unique ht (hset row hr hv) he'
  constructor
  case left =>
    intro hs
    have ⟨found, hf, hfs⟩ := existingProject_slug hp (hslug.symm.trans hs)
    have hi := hfound found hf
    cases hm.rows found (mem_of_existingProject hf)
    case inl hrows =>
      -- The row has the slug of the first project, which took it.
      have hfs := hfs.trans (hs.symm.trans (he.slug (hset row hr hv)))
      exact hi (hm.taken row hb hv found hrows.left hfs)
    case inr hrows =>
      have ⟨_, _, _, hrows, _⟩ := hrows
      exact hi (mem_targets hrows)
  case right =>
    intro ha hk
    have ⟨found, hf⟩ := Option.ne_none_iff_exists'.mp (existingProject_placeholder hp (hkey ▸ hk))
    have ⟨_, hc⟩ := hm.claims (hfound found hf) hf (not_archived_of_settled hset h hm)
    exact (hset next hn hv').elim ha fun hn => hn found hc

theorem ambiguous_of_settled {other : SalvagedProject} {token slug humanKey slug' humanKey' : Str}
    (hd : ∀ placeholder canonical,
      Duplicates (projectRows (mergeAll nowMicros target (salvagedRows salvage)).projects)
        placeholder canonical →
      placeholder.id ∉ (mergeAll nowMicros target (salvagedRows salvage)).targets ∨
        canonical.id ∉ (mergeAll nowMicros target (salvagedRows salvage)).targets)
    (hr : row ∈ salvage.rows) (hr' : other ∈ salvage.rows) (hv : row.Valid) (hv' : other.Valid)
    (he : Ends target salvage row slug humanKey) (hs : Synthetic token slug humanKey)
    (he' : Ends target salvage other slug' humanKey') (hc : Canonical token slug' humanKey') :
    Ambiguous target salvage token row other := by
  have hm := merged_of_settled ht hset hfound (salvagedRows salvage).append_nil.symm
  have hnodup := @nodup_sources_mergeAll nowMicros target salvage
  generalize mergeAll nowMicros target (salvagedRows salvage) = s at hd hm hnodup
  have ⟨placeholder, hp, hi, he₁⟩ := hm.merged row (mem_salvagedRows.mpr hr) hv
  have ⟨canonical, hp', hi', he₁'⟩ := hm.merged other (mem_salvagedRows.mpr hr') hv'
  obtain ⟨rfl, rfl⟩ := he.unique ht (hset row hr hv) he₁
  obtain ⟨rfl, rfl⟩ := he'.unique ht (hset other hr' hv') he₁'
  -- Every row of the table is fixed.
  have fixed {project : ProjectRow} (hp : project ∈ s.projects.rows) : ∃ owner,
      Fixed target salvage owner project.slug project.humanKey ∧
        ∀ row ∈ owner, (row.id, project.id) ∈ s.projectIdMap := by
    cases hm.rows project hp
    case inl hrows =>
      refine ⟨none, .archived hrows.left fun row hr hv hc => hrows.right ?_, nofun⟩
      exact hm.taken row (mem_salvagedRows.mpr hr) hv project hrows.left (hc.slug (hset row hr hv))
    case inr hrows =>
      have ⟨row, hr, hv, hi, he⟩ := hrows
      have hr := mem_salvagedRows.mp hr
      exact ⟨some row, .merged hr hv (hset row hr hv) he, by simpa using hi⟩
  -- Without another row of one of the kinds, the two are merged.
  by_contra hna
  have unique {row : SalvagedProject} {project : ProjectRow}
      (hi : (row.id, project.id) ∈ s.projectIdMap)
      {project' : ProjectRow} (hp : project ∈ s.projects.rows) (hp' : project' ∈ s.projects.rows)
      (h : ∀ owner, Fixed target salvage owner project'.slug project'.humanKey → owner = some row) :
      project' = project := by
    have ⟨owner, hf, howner⟩ := fixed hp'
    exact eq_of_id hp' hp (id_unique hnodup (howner row (h owner hf)) hi)
  have hids : ((projectRows s.projects).map ProjectRow.id).Nodup :=
    ((List.perm_insertionSort _ _).map _).nodup_iff.mpr s.projects.nodup
  have hmem := mem_placeholderRows.mpr ⟨mem_projectRows.mpr hp, hm.positive _ hp, hs⟩
  have hmem' := mem_canonicalRows.mpr ⟨mem_projectRows.mpr hp', hm.positive _ hp', hc⟩
  have hone : countToken token (placeholderRows (projectRows s.projects)) = 1 := by
    refine countToken_eq_one (nodup_placeholderRows hids) hmem fun a ha => ?_
    have ⟨ha, _, hs⟩ := mem_placeholderRows.mp ha
    refine unique hi hp (mem_projectRows.mp ha) fun owner hf => ?_
    by_contra hne
    exact hna ⟨owner, _, _, hf, .inl ⟨hne, hs⟩⟩
  have hone' : countToken token (canonicalRows (projectRows s.projects)) = 1 := by
    refine countToken_eq_one (nodup_canonicalRows hids) hmem' fun a ha => ?_
    have ⟨ha, _, hc⟩ := mem_canonicalRows.mp ha
    refine unique hi' hp' (mem_projectRows.mp ha) fun owner hf => ?_
    by_contra hne
    exact hna ⟨owner, _, _, hf, .inr ⟨hne, hc⟩⟩
  cases hd placeholder canonical ⟨token, hmem, hmem', hone, hone'⟩
  case inl h => exact h (mem_targets hi)
  case inr h => exact h (mem_targets hi')

end

end

-- The archive only knows the name of one of two projects with this name.
def fooArchive : Table ProjectRow.id where
  rows  := [⟨1, "foo".toList, "/foo".toList, 1⟩]
  nodup := by decide

def fooProjects : Table SalvagedProject.id where
  rows  := [⟨1, some "foo".toList, some "/a/foo".toList, some 1⟩,
    ⟨2, some "b-foo".toList, some "/b/foo".toList, some 1⟩]
  nodup := by decide

-- The project `/foo` looks like the placeholder for a project with this name.
def rootProject : Table SalvagedProject.id where
  rows  := [⟨1, some "foo".toList, some "/foo".toList, some 1⟩,
    ⟨2, some "b-foo".toList, some "/b/foo".toList, some 1⟩]
  nodup := by decide

end Reconstruct
