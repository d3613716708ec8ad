import Mathlib.Algebra.BigOperators.Group.Finset.Basic
import Mathlib.Logic.Function.Basic
import Mathlib.Logic.Relation
import Mathlib.Order.Basic
import Mathlib.Tactic.Common

-- Threads, of which one takes a step at a time.

variable {ι κ : Type*} [DecidableEq ι] {f : ι → κ} {c : ι} {x : κ}

namespace Threads

-- Any two threads are related after a step if the one that has taken it is related to all others.
theorem pairwise_update {R : κ → κ → Prop} (hs : ∀ {a b}, R a b → R b a)
    (h : ∀ i j, i ≠ j → R (f i) (f j)) (hx : ∀ i, i ≠ c → R x (f i)) :
    ∀ i j, i ≠ j → R (Function.update f c x i) (Function.update f c x j) := by
  intro i j hij
  by_cases hi : i = c
  case pos =>
    subst hi
    rw [Function.update_self, Function.update_of_ne hij.symm]
    exact hx j hij.symm
  case neg =>
    rw [Function.update_of_ne hi]
    by_cases hj : j = c
    case pos =>
      subst hj
      rw [Function.update_self]
      exact hs (hx i hi)
    case neg =>
      rw [Function.update_of_ne hj]
      exact h i j hij

-- A step changes one summand of a sum over all threads.
theorem sum_update {t : Finset ι} (w : κ → ℕ) (h : c ∈ t) :
    ∑ i ∈ t, w (Function.update f c x i) + w (f c) = ∑ i ∈ t, w (f i) + w x := by
  have hne : ∑ i ∈ t.erase c, w (Function.update f c x i) = ∑ i ∈ t.erase c, w (f i) :=
    Finset.sum_congr rfl fun i hi => by rw [Function.update_of_ne (Finset.ne_of_mem_erase hi)]
  rw [← Finset.add_sum_erase t _ h, ← Finset.add_sum_erase t (fun i => w (f i)) h, hne,
    Function.update_self]
  omega

omit [DecidableEq ι] in
-- No threads wait for each other if all that wait do so in the order of some measure.
theorem not_transGen_self [Preorder κ] {R : ι → ι → Prop} {i : ι}
    (h : ∀ {i j k}, R i j → R j k → f i < f j) : ¬Relation.TransGen R i i := by
  have hlt {i j k : ι} (hi : Relation.TransGen R i j) (hj : R j k) : f i < f j := by
    induction hi generalizing k
    case single hi       => exact h hi hj
    case tail hi hlt     => exact (hlt hi).trans (h hi hj)
  intro hi
  have ⟨_, hj, _⟩ := Relation.TransGen.head'_iff.mp hi
  exact lt_irrefl _ (hlt hi hj)

end Threads
