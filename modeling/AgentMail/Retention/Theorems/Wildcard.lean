import AgentMail.Lib.Segments
import AgentMail.Pattern.Theorems.Text
import AgentMail.Retention.Basic

open Pattern (Str byteLen byteLen_append byteLen_cons trim)

namespace Retention

variable {pattern name segment s : Str} {segments : List Str} {last i n : Nat} {r : Option Bool}
  {P Q : Prop}

-- A result that is returned without a panic, and that answers the question.
def Answers (r : Option Bool) (P : Prop) : Prop :=
  ∃ matched, r = some matched ∧ (matched ↔ P)

theorem answers_some {b : Bool} (h : b ↔ P) : Answers (some b) P :=
  ⟨b, rfl, h⟩

theorem Answers.of_iff (h : Answers r P) (hpq : Q ↔ P) : Answers r Q := by
  have ⟨matched, hr, hm⟩ := h
  exact ⟨matched, hr, hm.trans hpq.symm⟩

theorem sliceFrom_append (s t : Str) : sliceFrom (s ++ t) (byteLen s) = some t := by
  induction s
  case nil => cases t <;> rfl
  case cons c s hi =>
    have ⟨m, hm⟩ := Nat.exists_eq_add_one.mpr c.utf8Size_pos
    have hn : c.utf8Size + byteLen s = (m + byteLen s) + 1 := by omega
    have hs : m + byteLen s + 1 - c.utf8Size = byteLen s := by omega
    rw [byteLen_cons, hn, List.cons_append, sliceFrom, if_pos (by omega), hs, hi]

-- What is left of the name after an occurrence.
theorem sliceFrom_find (h : Search.find segment s = some n) :
    sliceFrom s (byteLen (s.take n) + byteLen segment) = some (s.drop (n + segment.length)) := by
  have ⟨_, ⟨rest, hr⟩, _⟩ := Search.find_eq_some_iff.mp h
  have hs : s = s.take n ++ segment ++ rest := by rw [List.append_assoc, hr, List.take_append_drop]
  have hrest : s.drop (n + segment.length) = rest := by rw [← List.drop_drop, ← hr, List.drop_left]
  have happ := sliceFrom_append (s.take n ++ segment) rest
  rwa [← hs, ← hrest, byteLen_append] at happ

theorem answers_matchSegments (hi : 0 < i) (hs : segments ≠ [])
    (hl : last + 1 = i + segments.length) :
    Answers (matchSegments last i name segments) (Filled segments name) := by
  induction segments generalizing i name
  case nil => exact absurd rfl hs
  case cons segment segments hind =>
    rw [List.length_cons] at hl
    rw [matchSegments, if_neg hi.ne']
    by_cases hn : segments = []
    case pos =>
      subst hn
      rw [if_pos (by simpa using hl.symm), Filled.singleton_iff, ← List.isSuffixOf_iff_suffix]
      split
      case isTrue h  => exact answers_some (by simpa using h)
      case isFalse h => exact answers_some (by simpa using h)
    case neg =>
      have hlen := List.length_pos_iff.mpr hn
      rw [if_neg (by omega)]
      split
      case isTrue he =>
        subst he
        exact (hind (Nat.succ_pos i) hn (by omega)).of_iff (Filled.nil_cons_iff hn)
      case isFalse =>
        cases hf : Search.find segment name
        case none =>
          rw [find, hf]
          exact answers_some (by simpa using Filled.not_cons_of_find hf)
        case some n =>
          rw [find, hf, Option.map_some]
          dsimp only
          rw [sliceFrom_find hf, Option.bind_eq_bind, Option.bind_some]
          exact (hind (Nat.succ_pos i) hn (by omega)).of_iff (Filled.cons_iff_of_find hf hn)

-- A wildcard separates two segments.
theorem exists_segments_of_mem (h : '*' ∈ pattern) :
    ∃ segment segments, pattern.splitOn '*' = segment :: segments ∧ segments ≠ [] := by
  have ⟨segment, segments, hs⟩ := List.exists_cons_of_ne_nil (List.splitOn_ne_nil '*' pattern)
  refine ⟨segment, segments, hs, ?_⟩
  rintro rfl
  obtain ⟨l, l', rfl⟩ := List.append_of_mem h
  have hl := List.length_pos_iff.mpr (List.splitOn_ne_nil '*' l)
  have hl' := List.length_pos_iff.mpr (List.splitOn_ne_nil '*' l')
  have hlen := congrArg List.length hs
  rw [List.splitOn_append_cons_self, List.length_append, List.length_singleton] at hlen
  omega

theorem answers_of_mem (h : '*' ∈ pattern) :
    Answers (wildcardMatch pattern name) (Expands '*' pattern name) := by
  have ⟨segment, segments, hs, hne⟩ := exists_segments_of_mem h
  have hiff := Expands.iff_of_splitOn (w := name) hs
  rw [wildcardMatch, if_neg (not_not.mpr h)]
  dsimp only
  rw [hs]
  split
  case isTrue hall =>
    obtain ⟨last, rfl⟩ := List.length_eq_one_iff.mp (Nat.succ.inj hall.left)
    obtain rfl : segment = [] := by simpa using hall.right.left
    obtain rfl : last = [] := by simpa using hall.right.right
    exact answers_some (by simp [hiff, Filled.singleton_iff])
  case isFalse =>
    rw [matchSegments, if_pos rfl]
    split
    case isTrue hp =>
      refine answers_some ?_
      rw [hiff]
      simp only [Bool.false_eq_true, false_iff]
      rintro ⟨rest, rfl, _⟩
      exact hp (by simp)
    case isFalse hp =>
      obtain ⟨rest, rfl⟩ := List.isPrefixOf_iff_prefix.mp (not_not.mp hp)
      rw [sliceFrom_append, Option.bind_eq_bind, Option.bind_some]
      refine (answers_matchSegments (Nat.succ_pos 0) hne (by rw [List.length_cons]; omega)).of_iff
        ?_
      simp [hiff]

theorem answers_of_notMem (h : '*' ∉ pattern) :
    Answers (wildcardMatch pattern name) (Expands '*' pattern name) := by
  rw [wildcardMatch, if_pos h]
  exact answers_some (by simp [Expands.eq_iff h, eq_comm])

theorem answers_wildcardMatch (pattern name : Str) :
    Answers (wildcardMatch pattern name) (Expands '*' pattern name) :=
  (em ('*' ∈ pattern)).elim answers_of_mem answers_of_notMem

-- Blank patterns ignore nothing.
theorem answers_shouldIgnore (name : Str) (patterns : List Str) :
    Answers (shouldIgnore name patterns)
      (∃ pattern ∈ patterns, trim pattern ≠ [] ∧ Expands '*' (trim pattern) name) := by
  induction patterns
  case nil => exact answers_some (by simp)
  case cons pattern patterns hi =>
    rw [shouldIgnore]
    split
    case isTrue ht => exact hi.of_iff (by simp [ht])
    case isFalse ht =>
      have ⟨matched, hw, hm⟩ :
          Answers (wildcardMatch (trim pattern) name) (Expands '*' (trim pattern) name) :=
        (em ('*' ∈ trim pattern)).elim answers_of_mem answers_of_notMem
      rw [hw, Option.bind_eq_bind, Option.bind_some]
      split
      case isTrue h  => exact answers_some (by simp [ht, hm.mp h])
      case isFalse h => exact hi.of_iff (by simp [ht, hm.not.mp h])

end Retention
