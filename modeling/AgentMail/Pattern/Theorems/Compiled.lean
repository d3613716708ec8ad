import AgentMail.Pattern.Globset

open Wildcard (Item meets meets_ones_iff Spells)
open Pattern.Globset (segmentItem)

namespace Pattern

variable {gs : Globset} {ci : Bool} {l r s t : Str}

theorem PatternCache.getOrInsert_fst (cache : PatternCache gs ci) (raw : Str) :
    (cache.getOrInsert raw).fst = .new gs ci raw := by
  unfold getOrInsert
  split
  case h_1 p hp =>
    have ⟨_, _, he, _⟩ := List.lookup_eq_some_iff.mp hp
    exact cache.compiled (raw, p) (by simp [he])
  case h_2 => rfl

theorem patternsOverlap_fst (cache : PatternCache gs ci) (l r : Str) :
    (patternsOverlap cache l r).fst = (CompiledPattern.new gs ci l).overlaps ci (.new gs ci r) := by
  simp [patternsOverlap, PatternCache.getOrInsert_fst]

-- The components of a normalized pattern are not empty.
theorem isPath_normalizePattern {raw : Str} (h : normalizePattern raw ≠ []) :
    IsPath (normalizePattern raw) := by
  have hsep (c : Str) (hc : c ∈ (trim raw).splitOnP fun c => c = '/' || c = '\\') :
      '/' ∉ c ∧ '\\' ∉ c :=
    ⟨fun hm => (of_mem_splitOnP hc _ hm).right rfl, fun hm => (of_mem_splitOnP hc _ hm).right rfl⟩
  have hnil : ∀ part ∈ ([] : List Str), IsComponent part := nofun
  have hc := isComponent_of_foldl hnil hsep
  unfold normalizePattern joinComponents at h ⊢
  generalize List.foldl pushComponent [] _ = parts at h hc ⊢
  have hn : parts ≠ [] := by
    rintro rfl
    exact h rfl
  rw [IsPath, List.splitOn_intercalate '/' (fun part hm => (hc part hm).no_slash) hn]
  exact fun part hm => (hc part hm).ne_nil

theorem hasGlobMeta_of_mem (hs : s ∈ l.splitOn '/') (h : hasGlobMeta l = false) :
    hasGlobMeta s = false := by
  simp only [hasGlobMeta, List.any_eq_false] at h ⊢
  exact fun c hc => h c ((of_mem_splitOn hs).right c hc)

theorem hasGlobMeta_fold : hasGlobMeta (fold ci s) = hasGlobMeta s := by
  cases ci
  case false => rfl
  case true =>
    simp only [hasGlobMeta, fold, if_true, List.any_map]
    congr 1
    funext c
    simp [toLower_eq_iff]

namespace CompiledPattern

theorem new_isGlob (raw : Str) : (new gs ci raw).isGlob = hasGlobMeta (new gs ci raw).norm :=
  rfl

theorem new_normalized (raw : Str) : Normalized (new gs ci raw).norm :=
  normalized_normalizePattern raw

theorem firstLiteralSegment_iff {raw : Str} : (new gs ci raw).firstLiteralSegment = some s ↔
    head (new gs ci raw).norm = s ∧ s ≠ [] ∧ hasGlobMeta s = false := by
  have h : (new gs ci raw).firstLiteralSegment =
      if head (new gs ci raw).norm = [] ∨ hasGlobMeta (head (new gs ci raw).norm) then none
      else some (head (new gs ci raw).norm) := by
    show (Pattern.firstLiteralSegmentEnd (new gs ci raw).norm).map _ = _
    unfold Pattern.firstLiteralSegmentEnd
    simp only [Bool.or_eq_true, List.isEmpty_iff]
    split
    case isTrue  h => simp only [Option.map_none, head, h, if_true]
    case isFalse h =>
      simp only [Option.map_some, head, h, if_false, Option.some.injEq]
      exact (List.prefix_iff_eq_take.mp (List.takeWhile_prefix _)).symm
  rw [h]
  constructor
  case mp =>
    intro h
    split at h
    case isTrue => cases h
    case isFalse hn =>
      cases h
      simpa using hn
  case mpr =>
    rintro ⟨hs, hn, hg⟩
    simp [hs, hn, hg]

theorem hasGlobMeta_head (h : hasGlobMeta s = false) : hasGlobMeta (head s) = false := by
  have ⟨_, hr⟩ := splitOn_eq_head_cons s
  exact hasGlobMeta_of_mem (hr ▸ List.mem_cons_self) h

theorem firstLiteralSegment_literal {raw : Str} (h : (new gs ci raw).isGlob = false)
    (hn : (new gs ci raw).norm ≠ []) :
    (new gs ci raw).firstLiteralSegment = some (head (new gs ci raw).norm) :=
  firstLiteralSegment_iff.mpr ⟨rfl, (new_normalized raw).head_ne_nil hn, hasGlobMeta_head h⟩

-- Literals and invalid globs match nothing.
theorem of_globMatches {raw : Str} (h : (new gs ci raw).globMatches t) :
    (new gs ci raw).isGlob ∧ ∃ m, gs.build ci (new gs ci raw).norm = some m ∧ m t := by
  have ⟨m, hm, ht⟩ := (Option.any_eq_true _ _).mp h
  simp only [new] at hm
  split at hm
  case isTrue hg => exact ⟨hg, m, hm, ht⟩
  case isFalse   => cases hm

theorem globMatches_literal {raw : Str} (h : (new gs ci raw).isGlob = false) :
    (new gs ci raw).globMatches t = false := by
  cases hm : (new gs ci raw).globMatches t
  case false => rfl
  case true  => exact absurd (of_globMatches hm).left (by simp [h])

theorem isMatchable_literal {raw : Str} (h : (new gs ci raw).isGlob = false) :
    (new gs ci raw).isMatchable := by
  simp [isMatchable, h]

theorem item_compileSegment_recursive :
    (compileSegment gs ci ['*', '*']).item = .many := by
  simp [compileSegment, PatternSegment.item]

theorem item_compileSegment (h : s ≠ ['*', '*']) :
    (compileSegment gs ci s).item = .one (compileSegment gs ci s) := by
  unfold compileSegment
  rw [if_neg h]
  split
  case isTrue  => cases gs.build ci s <;> rfl
  case isFalse => rfl

theorem segments_items (raw : Str) : (new gs ci raw).segments.map PatternSegment.item =
    ((new gs ci raw).norm.splitOn '/').map fun s => (compileSegment gs ci s).item := by
  simp [new]

-- From the segments of a glob to their compilation.
theorem spells_compileSegment {segments components : List Str} {accepts : Str → Str → Prop}
    {accepts' : PatternSegment → Str → Prop}
    (h : Spells accepts (segments.map segmentItem) components)
    (ha : ∀ s ∈ segments, s ≠ ['*', '*'] → ∀ t ∈ components, accepts s t →
      accepts' (compileSegment gs ci s) t) :
    Spells accepts' (segments.map fun s => (compileSegment gs ci s).item) components := by
  refine h.relabel ?_ ?_
  · intro s _ hs
    by_cases hn : s = ['*', '*']
    case pos => exact hn ▸ item_compileSegment_recursive
    case neg => simp [segmentItem, hn] at hs
  · intro s hm seg hs
    have hn : s ≠ ['*', '*'] := by rintro rfl; simp [segmentItem] at hs
    cases (if_neg hn).symm.trans hs
    exact ⟨_, item_compileSegment hn, ha s hm hn⟩

theorem compileSegment_literal (h : hasGlobMeta s = false) :
    compileSegment gs ci s = .literal s := by
  have hs : s ≠ ['*', '*'] := by rintro rfl; cases h
  simp [compileSegment, h, hs]

theorem segments_literal {raw : Str} (h : (new gs ci raw).isGlob = false) :
    (new gs ci raw).segments = ((new gs ci raw).norm.splitOn '/').map .literal :=
  List.map_congr_left fun _ hs => compileSegment_literal (hasGlobMeta_of_mem hs h)

-- The components match the segments of the glob one by one, where `**` takes any number of them.
def Reaches (gs : Globset) (ci : Bool) (glob path : Str) : Prop :=
  Spells (gs.accepts ci) ((glob.splitOn '/').map segmentItem) (path.splitOn '/')

-- A segment that is no valid glob on its own contains metacharacters, so that no component of a
-- literal pattern equals it.
theorem overlaps_compileSegment (hs : s ≠ ['*', '*']) (ht : hasGlobMeta t = false) :
    (compileSegment gs ci s).overlaps ci (.literal t) ↔ gs.accepts ci s t := by
  unfold compileSegment Globset.accepts
  rw [if_neg hs]
  split
  case isFalse => simp [PatternSegment.overlaps, textEq_iff]
  case isTrue hg =>
    cases gs.build ci s
    case some m => simp [PatternSegment.overlaps]
    case none =>
      simp only [PatternSegment.overlaps, textEq_iff, reduceCtorEq, false_and,
        exists_false, iff_false]
      intro hf
      have := congrArg hasGlobMeta hf
      simp [hasGlobMeta_fold, hg, ht] at this

theorem segmentsOverlap_literal (h : (new gs ci r).isGlob = false) :
    segmentsOverlap ci (new gs ci l).segments (new gs ci r).segments ↔
      Reaches gs ci (new gs ci l).norm (new gs ci r).norm := by
  have hr : (new gs ci r).segments.map PatternSegment.item =
      (((new gs ci r).norm.splitOn '/').map .literal).map .one := by
    rw [segments_literal h, List.map_map, List.map_map]
    rfl
  have hc : ∀ t ∈ (new gs ci r).norm.splitOn '/', hasGlobMeta t = false :=
    fun t ht => hasGlobMeta_of_mem ht h
  rw [segmentsOverlap, segments_items, hr, meets_ones_iff, Spells.map_iff]
  constructor
  case mp =>
    intro h
    refine h.relabel ?_ ?_
    · intro s _ hs
      by_cases hn : s = ['*', '*']
      case pos => simp [segmentItem, hn]
      case neg => simp [item_compileSegment hn] at hs
    · intro s _ seg hs
      have hn : s ≠ ['*', '*'] := by rintro rfl; simp [item_compileSegment_recursive] at hs
      rw [item_compileSegment hn] at hs
      cases hs
      exact ⟨s, if_neg hn, fun t ht => (overlaps_compileSegment hn (hc t ht)).mp⟩
  case mpr =>
    intro h
    exact spells_compileSegment h fun s _ hn t ht => (overlaps_compileSegment hn (hc t ht)).mpr

-- Without metacharacters, reaching a path is the same as being it.
theorem reaches_literal (h : hasGlobMeta l = false) : Reaches gs ci l r ↔
    fold ci l = fold ci r := by
  have hs : (l.splitOn '/').map segmentItem = (l.splitOn '/').map .one := by
    refine List.map_congr_left fun s hs => if_neg ?_
    rintro rfl
    cases hasGlobMeta_of_mem hs h
  rw [Reaches, hs, Spells.ones_iff, fold_eq_iff_splitOn]
  refine forall₂_congr_mem fun s hs t => ?_
  simp [Globset.accepts, hasGlobMeta_of_mem hs h]

-- Literal patterns conflict if they are the same, or if one of them is a directory of the other.
theorem conflict_literal (hl : (new gs ci l).isGlob = false) (hr : (new gs ci r).isGlob = false) :
    Conflict ci (new gs ci l) (new gs ci r) ↔
      fold ci (new gs ci l).norm = fold ci (new gs ci r).norm ∨
        IsDirectory ci (new gs ci l) (new gs ci r) ∨
        IsDirectory ci (new gs ci r) (new gs ci l) := by
  have ht : touches ci (new gs ci l) (new gs ci r) →
      fold ci (new gs ci l).norm = fold ci (new gs ci r).norm := by
    intro h
    simp only [touches, globMatches_literal hl, globMatches_literal hr, Bool.and_false,
      Bool.false_or, Bool.and_eq_true] at h
    exact (reaches_literal hl).mp ((segmentsOverlap_literal hr).mp h.right)
  simp only [Conflict]
  constructor
  case mp =>
    rintro (h | h | h | h)
    · exact .inl h
    · exact .inr (.inl h)
    · exact .inr (.inr h)
    · exact .inl (ht h)
  case mpr =>
    rintro (h | h | h)
    · exact .inl h
    · exact .inr (.inl h)
    · exact .inr (.inr (.inl h))

-- A glob with a leading literal segment only matches texts that start with this segment.
theorem head_of_globMatches (hg : gs.Lawful) (h : (new gs ci l).globMatches t)
    (hl : (new gs ci l).firstLiteralSegment = some s) : fold ci (head t) = fold ci s := by
  have ⟨hglob, m, hm, ht⟩ := of_globMatches h
  have ⟨hs, _, hmeta⟩ := firstLiteralSegment_iff.mp hl
  have ⟨rest, hr⟩ : ∃ rest, (new gs ci l).norm = s ++ '/' :: rest := by
    cases eq_head_append (new gs ci l).norm
    case inr h => exact hs ▸ h
    case inl h =>
      rw [new_isGlob, h, hs, hmeta] at hglob
      cases hglob
  have hb : '\\' ∉ s := fun hb => (new_normalized l).no_backslash (hr ▸ List.mem_append_left _ hb)
  have hn : '/' ∉ s := hs ▸ not_mem_head _
  have hd : head s = s := by
    cases eq_head_append s
    case inl h => exact h.symm
    case inr h =>
      have ⟨t, h⟩ := h
      exact absurd (h ▸ List.mem_append_right _ List.mem_cons_self) hn
  rw [hr] at hm
  have hh := (hg.literalLead hm hb hn hmeta t ht).head_eq
  rwa [hd] at hh

-- Patterns with different leading literal segments do not conflict.
theorem head_of_conflict (hg : gs.Lawful) (h : Conflict ci (new gs ci l) (new gs ci r))
    (hl : (new gs ci l).firstLiteralSegment = some s)
    (hr : (new gs ci r).firstLiteralSegment = some t) : fold ci s = fold ci t := by
  have ⟨hs, hs', _⟩ := firstLiteralSegment_iff.mp hl
  have ⟨ht, ht', _⟩ := firstLiteralSegment_iff.mp hr
  have dir {a b : CompiledPattern} (ha : head a.norm ≠ []) (h : IsDirectory ci a b) :
      fold ci (head b.norm) = fold ci (head a.norm) := by
    cases h.right
    case inl h => simp [h, head] at ha
    case inr h => exact h.head_eq
  rcases h with h | h | h | h
  · exact hs ▸ ht ▸ head_eq_of_fold_eq h
  · exact hs ▸ ht ▸ (dir (hs ▸ hs') h).symm
  · exact hs ▸ ht ▸ dir (ht ▸ ht') h
  · simp only [touches, Bool.or_eq_true, Bool.and_eq_true] at h
    rcases h with (⟨_, h⟩ | ⟨_, h⟩) | ⟨⟨_, h⟩, _⟩
    · exact (ht ▸ head_of_globMatches hg h hl).symm
    · exact hs ▸ head_of_globMatches hg h hr
    · simpa [firstSegmentMismatch, hl, hr, textEq_iff] using h

end CompiledPattern
end Pattern
