import AgentMail.Pattern.Theorems.Compiled

namespace Pattern

variable {gs : Globset} {ci : Bool} {l r s t pre full : Str}

-- The position lies between the bytes of a character.
def InsideChar (n : Nat) (s : Str) : Prop :=
  ∃ before c after, s = before ++ c :: after ∧ byteLen before < n ∧ n < byteLen before + c.utf8Size

-- The text of the other pattern is sliced at the length of a literal.
def SlicesChar (literal other : Str) : Prop :=
  hasGlobMeta (normalizePattern literal) = false ∧
    InsideChar (byteLen (normalizePattern literal)) (normalizePattern other)

theorem insideChar_nil {n : Nat} : ¬InsideChar n [] := by
  intro ⟨before, c, after, hs, _⟩
  simp at hs

theorem insideChar_cons {c : Char} {n : Nat} :
    InsideChar n (c :: s) ↔ 0 < n ∧ n < c.utf8Size ∨ c.utf8Size ≤ n ∧
      InsideChar (n - c.utf8Size) s := by
  constructor
  case mp =>
    rintro ⟨before, d, after, hs, hn, hn'⟩
    cases before
    case nil =>
      cases hs
      exact .inl ⟨by simpa [byteLen] using hn, by simpa [byteLen] using hn'⟩
    case cons b before =>
      cases hs
      rw [byteLen_cons] at hn hn'
      exact .inr ⟨by omega, before, d, after, rfl, by omega, by omega⟩
  case mpr =>
    intro h
    cases h
    case inl h =>
      exact ⟨[], c, s, rfl, by simpa [byteLen] using h.left, by simpa [byteLen] using h.right⟩
    case inr h =>
      obtain ⟨hl, before, d, after, hs, hn, hn'⟩ := h
      refine ⟨c :: before, d, after, by simp [hs], ?_, ?_⟩ <;> rw [byteLen_cons] <;> omega

-- In range, a slice fails exactly if it ends inside of a character.
theorem sliceTo_eq_none {n : Nat} (h : n ≤ byteLen s) : sliceTo s n = none ↔ InsideChar n s := by
  induction s generalizing n
  case nil =>
    have hn : n = 0 := by simpa [byteLen] using h
    simp [hn, sliceTo, insideChar_nil]
  case cons c s hi =>
    rw [insideChar_cons]
    rw [byteLen_cons] at h
    cases n
    case zero =>
      have := c.utf8Size_pos
      simp [sliceTo]
      omega
    case succ n =>
      rw [sliceTo]
      split
      case isTrue hc =>
        rw [Option.map_eq_none_iff, hi (by omega)]
        simp [hc, Nat.not_lt_of_le hc]
      case isFalse hc =>
        simp [Nat.lt_of_not_le hc]

theorem InsideChar.lt_byteLen {n : Nat} (h : InsideChar n s) : n < byteLen s := by
  have ⟨before, c, after, hs, _, hn⟩ := h
  rw [hs, byteLen_append, byteLen_cons]
  omega

theorem isDirectoryPrefix_eq_none :
    isDirectoryPrefix ci pre full = none ↔ ci ∧ InsideChar (byteLen pre) full := by
  cases ci
  case false => simp [isDirectoryPrefix_caseSensitive]
  case true  =>
    unfold isDirectoryPrefix
    split
    case isTrue hp =>
      have hp : byteLen pre = 0 := by simp [List.isEmpty_iff.mp hp, byteLen]
      have : ¬InsideChar 0 full := by
        rintro ⟨_, _, _, _, h, _⟩
        omega
      simp [hp, this]
    case isFalse =>
      simp only [isTextPrefix, if_true, Option.map_eq_none_iff]
      split
      case isTrue hl => simp [sliceTo_eq_none hl]
      case isFalse hl =>
        have : ¬InsideChar (byteLen pre) full := fun h => hl (Nat.le_of_lt h.lt_byteLen)
        simp [this]

namespace CompiledPattern

theorem isDirectoryOf_eq_none :
    (new gs ci l).isDirectoryOf ci (new gs ci r) = none ↔ ci ∧ SlicesChar l r := by
  unfold isDirectoryOf SlicesChar
  rw [new_isGlob]
  show _ ↔ ci ∧ hasGlobMeta (new gs ci l).norm = false ∧
    InsideChar (byteLen (new gs ci l).norm) (new gs ci r).norm
  cases hasGlobMeta (new gs ci l).norm
  case false => simp [isDirectoryPrefix_eq_none]
  case true  => simp

-- Both directory tests are reached unless the patterns are equal, in which case none of them fails.
theorem overlaps_eq_none {a b : CompiledPattern} :
    a.overlaps ci b = none ↔ a.isDirectoryOf ci b = none ∨ b.isDirectoryOf ci a = none := by
  have hl {a b : CompiledPattern} (h : a.isDirectoryOf ci b = none) :
      textEq ci a.norm b.norm = false := by
    have hl : byteLen a.norm < byteLen b.norm := by
      unfold isDirectoryOf at h
      split at h
      case isTrue  => cases h
      case isFalse => exact (isDirectoryPrefix_eq_none.mp h).right.lt_byteLen
    refine Bool.eq_false_iff.mpr fun he => ?_
    rw [byteLen_eq_of_fold_eq (textEq_iff.mp he)] at hl
    exact Nat.lt_irrefl _ hl
  constructor
  case mp =>
    intro h
    by_contra hn
    have ⟨ha, hb⟩ := not_or.mp hn
    have ⟨d, hd⟩ := Option.ne_none_iff_exists'.mp ha
    have ⟨d', hd'⟩ := Option.ne_none_iff_exists'.mp hb
    rw [overlaps_eq, hd, hd'] at h
    generalize textEq ci a.norm b.norm = e at h
    cases e <;> cases d <;> cases d' <;> simp at h
  case mpr =>
    intro h
    cases h
    case inl h => simp [overlaps_eq, hl h, h]
    case inr h =>
      rw [overlaps_comm]
      simp [overlaps_eq, hl h, h]

end CompiledPattern

open CompiledPattern

-- No call panics on a target that distinguishes case. On others, a panic is exactly a literal whose
-- length ends inside of a character of the other pattern.
theorem patternsOverlap_returns_iff (cache : PatternCache gs ci) (left right : Str) :
    ((patternsOverlap cache left right).fst ≠ none ↔
      ci = false ∨ ¬SlicesChar left right ∧ ¬SlicesChar right left) ∧
    ((new gs ci left).overlaps ci (new gs ci right) ≠ none ↔
      ci = false ∨ ¬SlicesChar left right ∧ ¬SlicesChar right left) := by
  have h : (new gs ci left).overlaps ci (new gs ci right) ≠ none ↔
      ci = false ∨ ¬SlicesChar left right ∧ ¬SlicesChar right left := by
    rw [Ne, overlaps_eq_none, isDirectoryOf_eq_none, isDirectoryOf_eq_none, ← and_or_left]
    cases ci <;> simp
  exact ⟨by rw [patternsOverlap_fst]; exact h, h⟩

-- A byte of text is longer than the first one of `é`.
theorem patternsOverlap_panics_accent :
    (patternsOverlap (.new 4096 : PatternCache .wildcard true) "a".toList "é".toList).fst = none ∧
    (new .wildcard true "a".toList).overlaps true (new .wildcard true "é".toList) = none := by
  decide +kernel

-- Neither the order of the patterns nor the side that panics matters, and whether a pattern is
-- matchable does not matter for its overlap with itself.
theorem overlaps_symmetric_reflexive (gs : Globset) (ci : Bool) (x y : Str) :
    (new gs ci x).overlaps ci (new gs ci y) = (new gs ci y).overlaps ci (new gs ci x) ∧
    (new gs ci x).overlaps ci (new gs ci x) = some true :=
  ⟨overlaps_comm, overlaps_of_fold_eq rfl⟩

end Pattern
