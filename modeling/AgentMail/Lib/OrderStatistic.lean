import Mathlib.Data.List.Sort
import Mathlib.Tactic.Common

-- The elements of a list by their place in ascending order.

variable {α : Type*} [LinearOrder α] {l l' : List α} {m n : Nat} {s t : α}

-- Counted from 1.
def nthSmallest (l : List α) (n : Nat) : Option α :=
  l.mergeSort[n - 1]?

-- Of a sorted list, at most `n` elements are below the one at `n`, and more than `n` are not above
-- it.
theorem List.Pairwise.countP_getElem? (hs : l.Pairwise (· ≤ ·)) (h : l[n]? = some t) :
    l.countP (· < t) ≤ n ∧ n < l.countP (· ≤ t) := by
  induction l generalizing n
  case nil => cases h
  case cons a l hi =>
    obtain ⟨ha, hs⟩ := List.pairwise_cons.mp hs
    cases n
    case zero =>
      obtain rfl : a = t := by simpa using h
      have hz : l.countP (· < a) = 0 := List.countP_eq_zero.mpr fun b hb => by simpa using ha b hb
      rw [List.countP_cons, List.countP_cons, hz]
      simp
    case succ n =>
      have ht : l[n]? = some t := by simpa using h
      have hat : a ≤ t := ha t (List.mem_of_getElem? ht)
      obtain ⟨hlt, hle⟩ := hi hs ht
      rw [List.countP_cons, List.countP_cons, if_pos (decide_eq_true hat)]
      refine ⟨?_, by omega⟩
      split <;> omega

theorem List.Pairwise.getElem?_le (hs : l.Pairwise (· ≤ ·)) (hmn : m ≤ n) (hm : l[m]? = some s)
    (hn : l[n]? = some t) : s ≤ t := by
  obtain ⟨hm', rfl⟩ := List.getElem?_eq_some_iff.mp hm
  obtain ⟨hn', rfl⟩ := List.getElem?_eq_some_iff.mp hn
  rcases Nat.eq_or_lt_of_le hmn with rfl | hlt
  · exact le_rfl
  · exact List.pairwise_iff_getElem.mp hs m n hm' hn' hlt

theorem nthSmallest_isSome (h : n ≤ l.length) (hn : 0 < n) : ∃ t, nthSmallest l n = some t :=
  ⟨_, List.getElem?_eq_getElem (by rw [List.length_mergeSort]; omega)⟩

theorem mem_of_nthSmallest (h : nthSmallest l n = some t) : t ∈ l :=
  (List.mergeSort_perm ..).mem_iff.mp (List.mem_of_getElem? h)

theorem countP_nthSmallest (h : nthSmallest l n = some t) (hn : 0 < n) : l.countP (· < t) < n ∧
    n ≤ l.countP (· ≤ t) := by
  have hp := l.mergeSort_perm (· ≤ ·)
  have ⟨hlt, hle⟩ := (l.pairwise_mergeSort' (· ≤ ·)).countP_getElem? h
  rw [hp.countP_eq] at hlt hle
  omega

theorem nthSmallest_mono (hmn : m ≤ n) (hm : nthSmallest l m = some s)
    (hn : nthSmallest l n = some t) : s ≤ t :=
  (l.pairwise_mergeSort' (· ≤ ·)).getElem?_le (Nat.sub_le_sub_right hmn 1) hm hn
