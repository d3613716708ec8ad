import Mathlib.Data.List.DropRight
import Mathlib.Order.Lattice

-- Lists in which a predicate holds of a first part only.

namespace List

variable {α : Type*} {p : α → Bool} {l : List α} {a : α} {n : Nat}

theorem takeWhile_eq_filter (h : l.Pairwise fun a b => p b → p a) : l.takeWhile p = l.filter p := by
  induction l
  case nil => rfl
  case cons a l hi =>
    have ⟨hl, hs⟩ := List.pairwise_cons.mp h
    cases ha : p a
    case true  => rw [List.takeWhile_cons_of_pos ha, List.filter_cons_of_pos ha, hi hs]
    case false =>
      have hn : l.filter p = [] := List.filter_eq_nil_iff.mpr fun b hb hp => by
        simp [hl b hb hp] at ha
      simp [ha, hn]

theorem rtake_cons (h : n ≤ l.length) : (a :: l).rtake n = l.rtake n := by
  rw [List.rtake, List.rtake, List.length_cons, Nat.succ_sub h, List.drop_succ_cons]

-- What is left behind the first part of an ascending list lies past its end.
theorem getLast_take_lt [Preorder α] (h : l.Pairwise (· < ·)) (ha : a ∈ l) (hn : a ∉ l.take n) :
    ∀ b ∈ l.take n, b < a := by
  rw [← List.take_append_drop n l] at h ha
  exact fun b hb =>
    (List.pairwise_append.mp h).right.right b hb a ((List.mem_append.mp ha).resolve_left hn)

theorem le_getLast [Preorder α] (h : l.Pairwise (· < ·)) (hn : l ≠ []) :
    ∀ a ∈ l, a ≤ l.getLast hn := by
  intro a ha
  rw [← List.dropLast_append_getLast hn] at h ha
  cases List.mem_append.mp ha
  case inl hd =>
    exact ((List.pairwise_append.mp h).right.right a hd _ (List.mem_singleton_self _)).le
  case inr hl => exact (List.mem_singleton.mp hl).le

end List
