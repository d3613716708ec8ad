import AgentMail.Guard.Basic

open Pattern

namespace Guard

variable {gs : Globset} {lowercase : Str → Str} {s path : Str}

theorem containsGlob_eq (s : Str) : containsGlob s = hasGlobMeta s := by
  rw [Bool.eq_iff_iff]
  simp only [containsGlob, hasGlobMeta, Bool.or_eq_true, List.contains_iff_mem, List.any_eq_true,
    decide_eq_true_eq]
  constructor
  case mp =>
    rintro (((h | h) | h) | h)
    all_goals exact ⟨_, h, by decide⟩
  case mpr =>
    rintro ⟨c, hc, ((rfl | rfl) | rfl) | rfl⟩ <;> simp [hc]

theorem splitOn_slashed (s : Str) :
    (s.map fun c => if c = '\\' then '/' else c).splitOn '/' =
      s.splitOnP fun c => c = '/' || c = '\\' := by
  induction s
  case nil => rfl
  case cons c s hi =>
    rw [List.map_cons, List.splitOn_cons_eq_if_modifyHead, List.splitOnP_cons_eq_if_modifyHead, hi]
    by_cases hb : c = '\\'
    case pos => simp [hb]
    case neg =>
      by_cases hs : c = '/'
      case pos => simp [hs]
      case neg => simp [hb, hs]

-- The two normalizations agree on trimmed texts.
theorem normalizePath_eq (h : trim path = path) :
    normalizePath lowercase false path = normalizePattern path := by
  simp only [normalizePath, normalizePattern, h, splitOn_slashed, Bool.false_eq_true, if_false]

theorem startsWithDir_iff_below {dir : Str} :
    startsWithDir path dir ↔ dir = [] ∨ Below false dir path := by
  have h : isDirectoryPrefix false dir path = some (startsWithDir path dir) := by
    cases dir <;> simp [isDirectoryPrefix, isTextPrefix, startsWithDir]
  rw [← isDirectoryPrefix_iff, h, Option.some_inj]

theorem startsWithDir_iff {dir : Str} :
    startsWithDir path dir ↔ dir = [] ∨ dir ++ ['/'] <+: path := by
  rw [startsWithDir_iff_below, below_iff]
  exact .rfl

theorem isDirectory_iff {a b : CompiledPattern} :
    CompiledPattern.IsDirectory false a b ↔ a.isGlob = false ∧ startsWithDir b.norm a.norm := by
  rw [startsWithDir_iff_below, CompiledPattern.IsDirectory]

theorem mem_foldl_pushComponent {components parts : List Str} {part : Str}
    (h : part ∈ components.foldl pushComponent parts) : part ∈ parts ∨ part ∈ components := by
  induction components generalizing parts
  case nil => exact .inl h
  case cons c components hi =>
    cases hi h
    case inr h => exact .inr (List.mem_cons_of_mem _ h)
    case inl h =>
      unfold pushComponent at h
      split at h
      case isTrue => exact .inl h
      case isFalse =>
        split at h
        case isTrue  => exact .inl ((List.dropLast_sublist _).subset h)
        case isFalse =>
          cases List.mem_append.mp h
          case inl h => exact .inl h
          case inr h => exact .inr (List.mem_singleton.mp h ▸ List.mem_cons_self)

theorem mem_intercalate {parts : List Str} {c : Char} (h : c ∈ ['/'].intercalate parts) :
    c = '/' ∨ ∃ part ∈ parts, c ∈ part := by
  induction parts
  case nil => simp at h
  case cons part parts hi =>
    cases parts
    case nil => exact .inr ⟨part, List.mem_cons_self, by simpa using h⟩
    case cons part₁ parts =>
      rw [List.intercalate_cons_cons, List.mem_append, List.mem_append, List.mem_singleton] at h
      rcases h with (h | h) | h
      · exact .inr ⟨part, List.mem_cons_self, h⟩
      · exact .inl h
      · cases hi h
        case inl h => exact .inl h
        case inr h =>
          have ⟨p, hp, hc⟩ := h
          exact .inr ⟨p, List.mem_cons_of_mem _ hp, hc⟩

-- Normalizing a path does not introduce characters.
theorem mem_normalizePattern {c : Char} (h : c ∈ normalizePattern s) : c = '/' ∨ c ∈ s := by
  cases mem_intercalate h
  case inl h => exact .inl h
  case inr h =>
    have ⟨part, hp, hc⟩ := h
    have hp := (mem_foldl_pushComponent hp).resolve_left (by simp)
    have ht := (of_mem_splitOnP hp c hc).left
    simp only [trim, List.mem_reverse] at ht
    have ht := (List.dropWhile_sublist _).subset ht
    rw [List.mem_reverse] at ht
    exact .inr ((List.dropWhile_sublist _).subset ht)

theorem hasGlobMeta_normalizePattern (h : hasGlobMeta s = false) :
    hasGlobMeta (normalizePattern s) = false := by
  simp only [hasGlobMeta, List.any_eq_false] at h ⊢
  intro c hc
  cases mem_normalizePattern hc
  case inl hc => subst hc; decide
  case inr hc => exact h c hc

variable {res : FileReservationRecord lowercase false}

theorem normalizedPattern_eq (res : FileReservationRecord lowercase false) :
    res.normalizedPattern = (CompiledPattern.new gs false res.pathPattern).norm :=
  res.normalized.trans (normalizePath_eq res.trimmed)

-- The tests of the guard for a single record.
def Reported (gs : Globset) (normalized : Str) (res : FileReservationRecord lowercase false) :
    Prop :=
  ∃ m, gs.build false res.normalizedPattern = some m ∧
    (m normalized ∨ isPrefixConflict normalized res)

section

variable {m : Str → Bool} (hm : gs.build false res.normalizedPattern = some m)

include hm

theorem reported_iff_of_build : Reported gs s res ↔ m s ∨ isPrefixConflict s res := by
  simp [Reported, hm]

theorem overlooked_iff_of_literal (hl : hasGlobMeta res.normalizedPattern = false) :
    Overlooked gs s res ↔
      res.hasGlob ∧ startsWithDir s res.normalizedPattern ∧ s ≠ res.normalizedPattern := by
  constructor
  case mp =>
    intro h
    cases h
    case invalid h             => simp [hm] at h
    case dissolved hg _ h hp   => exact ⟨hg, h, hp⟩
    case unmatched hg _ _      => simp [hl] at hg
  case mpr => exact fun ⟨hg, h, hp⟩ => .dissolved hg hl h hp

theorem overlooked_iff_of_glob (hg : hasGlobMeta res.normalizedPattern) :
    Overlooked gs s res ↔ ¬m s ∧ ¬startsWithDir res.normalizedPattern s := by
  constructor
  case mp =>
    intro h
    cases h
    case invalid h           => simp [hm] at h
    case dissolved _ hn _ _  => simp [hg] at hn
    case unmatched _ h hs    => exact ⟨h m hm, hs⟩
  case mpr =>
    intro ⟨h, hs⟩
    refine .unmatched hg (fun m' hm' => ?_) hs
    rwa [Option.some_inj.mp (hm'.symm.trans hm)]

end

-- Directories are strictly above what is in them.
theorem not_startsWithDir_symm {dir : Str} (hd : dir ≠ []) (h : startsWithDir path dir) :
    ¬startsWithDir dir path := by
  rw [startsWithDir_iff] at h ⊢
  have h := (h.resolve_left hd).length_le
  rw [List.length_append, List.length_singleton] at h
  rintro (hn | h')
  · simp [hn] at h
  · have h' := h'.length_le
    rw [List.length_append, List.length_singleton] at h'
    omega

section

variable {m : Str → Bool} (hm : gs.build false res.normalizedPattern = some m)
variable (hp : IsConcrete path)

include hm hp

theorem reported_iff_of_literal (hgs : gs.Lawful) (hl : hasGlobMeta res.normalizedPattern = false) :
    Reported gs (normalizePattern path) res ↔
      CompiledPattern.Conflict false (.new gs false res.pathPattern) (.new gs false path) ∧
        ¬Overlooked gs (normalizePattern path) res := by
  have hnorm : res.normalizedPattern = (CompiledPattern.new gs false res.pathPattern).norm :=
    normalizedPattern_eq res
  have hlp : (CompiledPattern.new gs false path).isGlob = false :=
    hasGlobMeta_normalizePattern hp.literal
  have hlr : (CompiledPattern.new gs false res.pathPattern).isGlob = false := by
    rw [CompiledPattern.new_isGlob, ← hnorm, hl]
  have hb : '\\' ∉ res.normalizedPattern :=
    hnorm ▸ (CompiledPattern.new_normalized res.pathPattern).no_backslash
  have he : m (normalizePattern path) ↔ res.normalizedPattern = normalizePattern path :=
    hgs.literal hl hb hm _
  have hc : CompiledPattern.Conflict false (.new gs false res.pathPattern) (.new gs false path) ↔
      res.normalizedPattern = normalizePattern path ∨
        startsWithDir (normalizePattern path) res.normalizedPattern ∨
        startsWithDir res.normalizedPattern (normalizePattern path) := by
    rw [CompiledPattern.conflict_literal hlr hlp, isDirectory_iff, isDirectory_iff, hnorm]
    simp only [hlr, hlp, true_and]
    exact .rfl
  rw [reported_iff_of_build hm, isPrefixConflict, Bool.or_eq_true, Bool.and_eq_true,
    Bool.not_eq_true', overlooked_iff_of_literal hm hl, hc, he]
  constructor
  case mp =>
    rintro (h | h | ⟨hg, h⟩)
    · exact ⟨.inl h, fun ho => ho.right.right h.symm⟩
    · exact ⟨.inr (.inr h), fun ho => not_startsWithDir_symm hp.not_root h ho.right.left⟩
    · exact ⟨.inr (.inl h), fun ho => by simp [hg] at ho⟩
  case mpr =>
    rintro ⟨h | h | h, ho⟩
    · exact .inl h
    · cases hg : res.hasGlob
      case false => exact .inr (.inr ⟨rfl, h⟩)
      case true  => exact .inl (not_not.mp fun hn => ho ⟨hg, h, Ne.symm hn⟩)
    · exact .inr (.inl h)

theorem reported_iff_of_glob (hg : hasGlobMeta res.normalizedPattern) :
    Reported gs (normalizePattern path) res ↔
      CompiledPattern.Conflict false (.new gs false res.pathPattern) (.new gs false path) ∧
        ¬Overlooked gs (normalizePattern path) res := by
  have hnorm : res.normalizedPattern = (CompiledPattern.new gs false res.pathPattern).norm :=
    normalizedPattern_eq res
  have hlp : (CompiledPattern.new gs false path).isGlob = false :=
    hasGlobMeta_normalizePattern hp.literal
  have hh : res.hasGlob := by
    cases hh : res.hasGlob
    case true  => rfl
    case false =>
      rw [res.glob, containsGlob_eq] at hh
      rw [hnorm] at hg
      exact absurd hg (Bool.eq_false_iff.mp (hasGlobMeta_normalizePattern hh))
  have hmatch : (CompiledPattern.new gs false res.pathPattern).globMatches (normalizePattern path) =
      m (normalizePattern path) := by
    have hn : res.normalizedPattern = normalizePattern res.pathPattern := hnorm
    rw [hn] at hg hm
    simp [CompiledPattern.globMatches, CompiledPattern.new, hg, hm]
  rw [reported_iff_of_build hm, isPrefixConflict, hh, overlooked_iff_of_glob hm hg]
  simp only [Bool.not_true, Bool.false_and, Bool.or_false]
  constructor
  case mp =>
    rintro (h | h)
    · refine ⟨.inr (.inr (.inr ?_)), fun ho => ho.left h⟩
      have hmp : (CompiledPattern.new gs false path).isMatchable :=
        CompiledPattern.isMatchable_literal hlp
      rw [CompiledPattern.touches, hmp]
      have hmatch := hmatch.trans h
      simp only [Bool.true_and, Bool.or_eq_true]
      exact .inl (.inl hmatch)
    · exact ⟨.inr (.inr (.inl (isDirectory_iff.mpr ⟨hlp, hnorm ▸ h⟩))), fun ho => ho.right h⟩
  case mpr =>
    rintro ⟨_, ho⟩
    by_contra hn
    exact ho (not_or.mp hn)

end

-- The guard reports what overlaps, except for the records that it overlooks.
theorem reported_iff (hgs : gs.Lawful) (hp : IsConcrete path) :
    Reported gs (normalizePattern path) res ↔
      (CompiledPattern.new gs false res.pathPattern).overlaps false (.new gs false path) =
        some true ∧ ¬Overlooked gs (normalizePattern path) res := by
  rw [CompiledPattern.overlaps_iff CompiledPattern.overlaps_caseSensitive]
  cases hm : gs.build false res.normalizedPattern
  case none =>
    have ho : Overlooked gs (normalizePattern path) res := .invalid hm
    simp [Reported, hm, ho]
  case some m =>
    cases hg : hasGlobMeta res.normalizedPattern
    case false => exact reported_iff_of_literal hm hp hgs hg
    case true  => exact reported_iff_of_glob hm hp hg

variable {reservations : List (FileReservationRecord lowercase false)} {selfAgent : Str}

theorem mem_activeIndices {m : Str → Bool} : (res, m) ∈ activeIndices gs reservations selfAgent ↔
    res ∈ reservations ∧ isForeign selfAgent res ∧
      gs.build false res.normalizedPattern = some m := by
  simp only [activeIndices, List.mem_filterMap, List.mem_filter, Option.map_eq_some_iff]
  constructor
  case mp =>
    rintro ⟨r, ⟨hr, hf⟩, m', hm, ⟨⟩⟩
    exact ⟨hr, hf, hm⟩
  case mpr => exact fun ⟨hr, hf, hm⟩ => ⟨res, ⟨hr, hf⟩, m, hm, rfl⟩

theorem of_findConflict
    (h : findConflict (activeIndices gs reservations selfAgent) path = some res) :
    res ∈ reservations ∧ isForeign selfAgent res ∧ Reported gs path res := by
  unfold findConflict at h
  split at h
  case h_1 r m hf =>
    cases h
    have ⟨hr, hs, hm⟩ := mem_activeIndices.mp (List.mem_of_find?_eq_some hf)
    have hf := List.find?_some hf
    exact ⟨hr, hs, m, hm, .inl hf⟩
  case h_2 =>
    have ⟨⟨r, m⟩, hf, he⟩ := Option.map_eq_some_iff.mp h
    cases he
    have ⟨hr, hs, hm⟩ := mem_activeIndices.mp (List.mem_of_find?_eq_some hf)
    have hf := List.find?_some hf
    exact ⟨hr, hs, m, hm, .inr hf⟩

theorem findConflict_isSome : (findConflict (activeIndices gs reservations selfAgent) path).isSome ↔
    ∃ res ∈ reservations, isForeign selfAgent res ∧ Reported gs path res := by
  constructor
  case mp =>
    intro h
    have ⟨res, h⟩ := Option.isSome_iff_exists.mp h
    exact ⟨res, of_findConflict h⟩
  case mpr =>
    intro ⟨res, hr, hs, m, hm, h⟩
    have ha := mem_activeIndices.mpr ⟨hr, hs, hm⟩
    unfold findConflict
    split
    case h_1 => rfl
    case h_2 hn =>
      have hn := List.find?_eq_none.mp hn (res, m) ha
      rw [Option.isSome_map, List.find?_isSome]
      exact ⟨(res, m), ha, h.resolve_left hn⟩

theorem map_path_checkPathConflicts (paths : List Str) :
    (checkPathConflicts gs paths reservations selfAgent).map GuardConflict.path =
      paths.filter fun path => (findConflict (activeIndices gs reservations selfAgent)
        (normalizePath lowercase false path)).isSome := by
  induction paths
  case nil => rfl
  case cons path paths hi =>
    cases hf : findConflict (activeIndices gs reservations selfAgent)
      (normalizePath lowercase false path) <;> simpa [checkPathConflicts, hf] using hi

theorem blocks_iff {cache : PatternCache gs false} : blocks cache selfAgent path res ↔
    isForeign selfAgent res ∧
      (CompiledPattern.new gs false res.pathPattern).overlaps false (.new gs false path) =
        some true := by
  rw [blocks, Bool.and_eq_true, decide_eq_true_eq, patternsOverlap_fst]

theorem faithful_iff_not_overlooked (hgs : gs.Lawful) (cache : PatternCache gs false)
    (reservations : List (FileReservationRecord lowercase false)) (selfAgent : Str)
    (paths : List Str) (hp : ∀ path ∈ paths, IsConcrete path) :
    Faithful cache reservations selfAgent paths ↔ ∀ path ∈ paths,
      (∃ res ∈ reservations, blocks cache selfAgent path res) →
        ∃ res ∈ reservations, blocks cache selfAgent path res ∧
          ¬Overlooked gs (normalizePattern path) res := by
  have hreport {path : Str} (h : path ∈ paths) {res : FileReservationRecord lowercase false} :
      isForeign selfAgent res ∧ Reported gs (normalizePath lowercase false path) res ↔
        blocks cache selfAgent path res ∧ ¬Overlooked gs (normalizePattern path) res := by
    rw [normalizePath_eq (hp path h).trimmed, reported_iff hgs (hp path h), blocks_iff, and_assoc]
  have hfilter : (checkPathConflicts gs paths reservations selfAgent).map GuardConflict.path =
      paths.filter (fun path => reservations.any (blocks cache selfAgent path)) ↔
      ∀ path ∈ paths, (∃ res ∈ reservations, blocks cache selfAgent path res) →
        ∃ res ∈ reservations, blocks cache selfAgent path res ∧
          ¬Overlooked gs (normalizePattern path) res := by
    have hsome {path : Str} (h : path ∈ paths) : (findConflict
        (activeIndices gs reservations selfAgent) (normalizePath lowercase false path)).isSome ↔
        ∃ res ∈ reservations, blocks cache selfAgent path res ∧
          ¬Overlooked gs (normalizePattern path) res := by
      rw [findConflict_isSome]
      exact exists_congr fun res => and_congr_right fun _ => hreport h
    rw [map_path_checkPathConflicts]
    constructor
    case mp =>
      intro he path h hb
      have hm : path ∈ paths.filter fun path => reservations.any (blocks cache selfAgent path) :=
        List.mem_filter.mpr ⟨h, List.any_eq_true.mpr hb⟩
      rw [← he] at hm
      exact (hsome h).mp (List.mem_filter.mp hm).right
    case mpr =>
      intro hall
      refine List.filter_congr fun path h => ?_
      rw [Bool.eq_iff_iff, hsome h, List.any_eq_true]
      constructor
      case mp  => exact fun ⟨res, hr, hb, _⟩ => ⟨res, hr, hb⟩
      case mpr => exact hall path h
  have hnamed : ∀ c ∈ checkPathConflicts gs paths reservations selfAgent, ∃ res ∈ reservations,
      blocks cache selfAgent c.path res ∧
        c = { path := c.path, pattern := res.pathPattern, holder := res.agentName,
              expiresTs := res.expiresTs } := by
    intro c hc
    have ⟨path, h, hf⟩ := List.mem_filterMap.mp hc
    have ⟨res, hf, hc⟩ := Option.map_eq_some_iff.mp hf
    have ⟨hr, hs, hrep⟩ := of_findConflict hf
    subst hc
    exact ⟨res, hr, ((hreport h).mp ⟨hs, hrep⟩).left, rfl⟩
  rw [Faithful, hfilter, and_iff_left hnamed]

-- A directory is reported if everything in it is reserved.
theorem faithful_iff_not_overlooked_directory :
    Faithful (PatternCache.new 4 : PatternCache .wildcard false)
      [({ pathPattern := "src/**".toList, agentName := "BlueLake".toList, exclusive := true
          expiresTs := "2099-01-01T00:00:00Z".toList, normalizedPattern := "src/**".toList
          hasGlob := true, trimmed := by decide +kernel, nonempty := by decide
          normalized := by decide +kernel, glob := by decide +kernel } :
          FileReservationRecord id false)]
      "RedFox".toList ["src".toList] := by
  refine (faithful_iff_not_overlooked Globset.wildcard_lawful _ _ _ _ ?_).mpr ?_
  · rw [List.forall_mem_singleton]
    exact ⟨by decide +kernel, by decide +kernel, by decide +kernel⟩
  · rw [List.forall_mem_singleton]
    refine fun _ => ⟨_, List.mem_cons_self, by decide +kernel, fun h => ?_⟩
    cases h
    case invalid h          => exact absurd (congrArg Option.isSome h) (by decide +kernel)
    case dissolved _ hn _ _ => exact absurd hn (by decide +kernel)
    case unmatched _ _ h    => exact absurd h (by decide +kernel)

-- A path that is no valid glob is not reported, although it is reserved as it is.
theorem not_faithful_brace :
    IsConcrete "a\x7db".toList ∧ ¬Faithful (PatternCache.new 4 : PatternCache .wildcard false)
      [({ pathPattern := "a\x7db".toList, agentName := "BlueLake".toList, exclusive := true
          expiresTs := "2099-01-01T00:00:00Z".toList, normalizedPattern := "a\x7db".toList
          hasGlob := false, trimmed := by decide +kernel, nonempty := by decide
          normalized := by decide +kernel, glob := by decide +kernel } :
          FileReservationRecord id false)]
      "RedFox".toList ["a\x7db".toList] := by
  refine ⟨⟨by decide +kernel, by decide +kernel, by decide +kernel⟩, fun h => ?_⟩
  exact absurd h.left (by decide +kernel)

end Guard
