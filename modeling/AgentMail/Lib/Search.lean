import Mathlib.Data.List.Infix

-- The first place in a list at which a pattern occurs.

variable {α : Type*} [DecidableEq α] {p s l t : List α} {i j : Nat}

namespace Search

def find (p s : List α) : Option Nat :=
  s.tails.findIdx? fun t => p.isPrefixOf t

theorem find_eq_some_iff : find p s = some i ↔
    i ≤ s.length ∧ p <+: s.drop i ∧ ∀ j < i, ¬p <+: s.drop j := by
  simp only [find, List.findIdx?_eq_some_iff_getElem, List.getElem_tails, List.length_tails,
    List.isPrefixOf_iff_prefix, Nat.lt_add_one_iff, exists_and_left, exists_prop, and_left_comm]

theorem not_prefix_of_find_eq_none (h : find p s = none) (i : Nat) : ¬p <+: s.drop i := by
  have hn :=
    List.findIdx?_eq_none_iff.mp h (s.drop i) (List.mem_tails _ _ |>.mpr (List.drop_suffix i s))
  rwa [← Bool.not_eq_true, List.isPrefixOf_iff_prefix] at hn

-- An occurrence is not before the first one.
theorem exists_find_le (h : p <+: s.drop i) : ∃ j ≤ i, find p s = some j := by
  cases hf : find p s
  case none   => exact absurd h (not_prefix_of_find_eq_none hf i)
  case some j =>
    refine ⟨j, ?_, rfl⟩
    by_contra hlt
    exact (find_eq_some_iff.mp hf).right.right i (Nat.lt_of_not_le hlt) h

theorem find_append (h : ∀ j < l.length, ¬p <+: (l ++ p ++ t).drop j) :
    find p (l ++ p ++ t) = some l.length := by
  refine find_eq_some_iff.mpr ⟨by simp only [List.length_append]; omega, ?_, h⟩
  rw [List.append_assoc, List.drop_left]
  exact List.prefix_append ..

-- There is room for the pattern.
theorem length_le_of_find (h : find p s = some i) : i + p.length ≤ s.length := by
  have ⟨hi, hp, _⟩ := find_eq_some_iff.mp h
  have hl := hp.length_le
  rw [List.length_drop] at hl
  omega

end Search
