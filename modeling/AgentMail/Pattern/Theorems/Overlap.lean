import AgentMail.Pattern.Theorems.Text

open Wildcard (Item meets meets_comm meets_ones_iff Spells)

namespace Pattern

variable {gs : Globset} {ci : Bool}

theorem simpleGlobTokensOverlap_comm (l r : List SimpleGlobToken) :
    simpleGlobTokensOverlap l r = simpleGlobTokensOverlap r l := by
  apply meets_comm
  intro s s'
  cases s <;> cases s' <;> simp [eq_comm]

theorem simpleGlobPatternsOverlap_comm (l r : Str) :
    simpleGlobPatternsOverlap ci l r = simpleGlobPatternsOverlap ci r l := by
  cases hl : parseSimpleGlobTokens ci l <;> cases hr : parseSimpleGlobTokens ci r <;>
    simp [simpleGlobPatternsOverlap, hl, hr, simpleGlobTokensOverlap_comm]

theorem textEq_comm (s t : Str) : textEq ci s t = textEq ci t s := by
  rw [Bool.eq_iff_iff, textEq_iff, textEq_iff, eq_comm]

theorem PatternSegment.overlaps_comm (s₁ s₂ : PatternSegment) :
    s₁.overlaps ci s₂ = s₂.overlaps ci s₁ := by
  cases s₁ <;> cases s₂ <;> simp [overlaps, textEq_comm, simpleGlobPatternsOverlap_comm]

theorem segmentsOverlap_comm (s₁ s₂ : List PatternSegment) :
    segmentsOverlap ci s₁ s₂ = segmentsOverlap ci s₂ s₁ :=
  meets_comm PatternSegment.overlaps_comm _ _

namespace CompiledPattern

variable {a b : CompiledPattern}

-- The tests of `overlaps` that do not slice texts.
def touches (ci : Bool) (a b : CompiledPattern) : Bool :=
  (b.isMatchable && a.globMatches b.norm) || (a.isMatchable && b.globMatches a.norm) ||
    (a.isMatchable && b.isMatchable && !a.firstSegmentMismatch ci b &&
      segmentsOverlap ci a.segments b.segments)

theorem overlaps_eq : a.overlaps ci b =
    if textEq ci a.norm b.norm then some true
    else (a.isDirectoryOf ci b).bind fun d =>
      if d then some true
      else (b.isDirectoryOf ci a).bind fun d => if d then some true else some (touches ci a b) := by
  unfold overlaps touches
  split
  case isTrue  => rfl
  case isFalse =>
    cases a.isDirectoryOf ci b
    case none => rfl
    case some d =>
    cases d
    case true => rfl
    case false =>
    cases b.isDirectoryOf ci a
    case none => rfl
    case some d =>
    cases d
    case true => rfl
    case false =>
    cases a.isMatchable <;> cases b.isMatchable <;> cases a.globMatches b.norm <;>
      cases b.globMatches a.norm <;> cases a.firstSegmentMismatch ci b <;> rfl

-- The directory test without its panics.
def IsDirectory (ci : Bool) (a b : CompiledPattern) : Prop :=
  a.isGlob = false ∧ (a.norm = [] ∨ Below ci a.norm b.norm)

-- What `overlaps` computes if it does not panic.
def Conflict (ci : Bool) (a b : CompiledPattern) : Prop :=
  fold ci a.norm = fold ci b.norm ∨ IsDirectory ci a b ∨ IsDirectory ci b a ∨ touches ci a b

theorem isDirectoryOf_iff : a.isDirectoryOf ci b = some true ↔ IsDirectory ci a b := by
  cases h : a.isGlob <;> simp [isDirectoryOf, IsDirectory, h, isDirectoryPrefix_iff]

theorem isTextPrefix_panic {pre full : Str} (h : isTextPrefix ci pre full = none) :
    ci = true ∧ byteLen pre < byteLen full := by
  unfold isTextPrefix at h
  split at h
  case isFalse => cases h
  case isTrue hc =>
    split at h
    case isFalse => cases h
    case isTrue hl =>
      refine ⟨hc, Nat.lt_of_le_of_ne hl fun he => ?_⟩
      have hs := sliceTo_append full []
      rw [List.append_nil] at hs
      simp [he, hs] at h

-- If a slice is off a character boundary then the sliced text is longer, so that the test the other
-- way around cannot panic as well.
theorem isDirectoryOf_of_panic (h : a.isDirectoryOf ci b = none) :
    b.isDirectoryOf ci a = some false := by
  have ⟨hc, hl⟩ : ci = true ∧ byteLen a.norm < byteLen b.norm := by
    unfold isDirectoryOf isDirectoryPrefix at h
    split at h
    case isTrue  => cases h
    case isFalse =>
      split at h
      case isTrue  => cases h
      case isFalse => exact isTextPrefix_panic (Option.map_eq_none_iff.mp h)
  have hn : b.norm ≠ [] := by
    intro hn
    simp [hn, byteLen] at hl
  simp [isDirectoryOf, isDirectoryPrefix, isTextPrefix, hn, hc, Nat.not_le_of_lt hl]

theorem overlaps_iff (h : a.overlaps ci b ≠ none) :
    a.overlaps ci b = some true ↔ Conflict ci a b := by
  rw [overlaps_eq] at h ⊢
  simp only [Conflict, ← textEq_iff, ← isDirectoryOf_iff]
  generalize a.isDirectoryOf ci b = d at h ⊢
  generalize b.isDirectoryOf ci a = d' at h ⊢
  generalize textEq ci a.norm b.norm = e at h ⊢
  cases e
  case true => simp
  case false =>
    match d, d' with
    | none, _                => simp at h
    | some true, _           => simp
    | some false, none       => simp at h
    | some false, some true  => simp
    | some false, some false => simp

theorem conflict_of_overlaps (h : a.overlaps ci b = some true) : Conflict ci a b :=
  (overlaps_iff (by simp [h])).mp h

theorem touches_comm : touches ci a b = touches ci b a := by
  have hm : a.firstSegmentMismatch ci b = b.firstSegmentMismatch ci a := by
    cases ha : a.firstLiteralSegment <;> cases hb : b.firstLiteralSegment <;>
      simp [firstSegmentMismatch, ha, hb, textEq_comm]
  unfold touches
  rw [hm, segmentsOverlap_comm, Bool.or_comm (b.isMatchable && _),
    Bool.and_comm a.isMatchable b.isMatchable]

theorem overlaps_comm : a.overlaps ci b = b.overlaps ci a := by
  rw [overlaps_eq, overlaps_eq, textEq_comm, touches_comm]
  have h  : a.isDirectoryOf ci b = none → b.isDirectoryOf ci a = some false :=
    isDirectoryOf_of_panic
  have h' : b.isDirectoryOf ci a = none → a.isDirectoryOf ci b = some false :=
    isDirectoryOf_of_panic
  generalize a.isDirectoryOf ci b = d at h h' ⊢
  generalize b.isDirectoryOf ci a = d' at h h' ⊢
  match d, d' with
  | none, d'           => simp [h rfl]
  | some d, none       => simp [Option.some_inj.mp (h' rfl)]
  | some true, some d' => cases d' <;> simp
  | some false, some d' => cases d' <;> simp

theorem overlaps_caseSensitive : a.overlaps false b ≠ none := by
  have h {a b : CompiledPattern} : a.isDirectoryOf false b ≠ none := by
    unfold isDirectoryOf
    split
    case isTrue  => nofun
    case isFalse => exact isDirectoryPrefix_caseSensitive
  rw [overlaps_eq]
  have h₁ := h (a := a) (b := b)
  have h₂ := h (a := b) (b := a)
  generalize a.isDirectoryOf false b = d at h₁ ⊢
  generalize b.isDirectoryOf false a = d' at h₂ ⊢
  match d, d' with
  | none, _         => exact absurd rfl h₁
  | _, none         => exact absurd rfl h₂
  | some d, some d' => cases textEq false a.norm b.norm <;> cases d <;> cases d' <;> simp

theorem overlaps_of_fold_eq (h : fold ci a.norm = fold ci b.norm) :
    a.overlaps ci b = some true := by
  rw [overlaps_eq, if_pos (textEq_iff.mpr h)]

theorem overlaps_of_isDirectory (h : IsDirectory ci a b) : a.overlaps ci b = some true := by
  rw [overlaps_eq, isDirectoryOf_iff.mpr h]
  simp

theorem overlaps_of_conflict (ha : a.isDirectoryOf ci b ≠ none) (hb : b.isDirectoryOf ci a ≠ none)
    (h : Conflict ci a b) : a.overlaps ci b = some true := by
  refine (overlaps_iff ?_).mpr h
  rw [overlaps_eq]
  have ⟨d, hd⟩ := Option.ne_none_iff_exists'.mp ha
  have ⟨d', hd'⟩ := Option.ne_none_iff_exists'.mp hb
  rw [hd, hd']
  cases textEq ci a.norm b.norm <;> cases d <;> cases d' <;> simp

theorem isDirectoryOf_glob (h : a.isGlob) :
    a.isDirectoryOf ci b = some false := by
  simp [isDirectoryOf, h]

end CompiledPattern
end Pattern
