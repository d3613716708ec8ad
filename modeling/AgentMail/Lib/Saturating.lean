import Mathlib.Algebra.Group.Int.Defs
import Mathlib.Algebra.Group.Nat.Defs
import Mathlib.Order.Lattice
import Mathlib.Tactic.Common

-- Arithmetic that stops at the bounds of its type.

namespace I64

def saturate (n : Int) : Int :=
  max (-2 ^ 63) (min (2 ^ 63 - 1) n)

theorem saturate_of_mem {n : Int} (hl : -2 ^ 63 ≤ n) (hu : n < 2 ^ 63) : saturate n = n := by
  rw [saturate]
  omega

def saturatingSub (a b : Int) : Int :=
  saturate (a - b)

def saturatingAdd (a b : Int) : Int :=
  saturate (a + b)

theorem saturate_mono {m n : Int} (h : m ≤ n) : saturate m ≤ saturate n := by
  rw [saturate, saturate]
  omega

theorem saturatingSub_mono {a a' : Int} (h : a ≤ a') (b : Int) :
    saturatingSub a b ≤ saturatingSub a' b :=
  saturate_mono (by omega)

-- Whether a value that the type has is reached does not depend on the bounds.
theorem le_saturate_iff {m n : Int} (hl : -2 ^ 63 < m) (hu : m < 2 ^ 63) : m ≤ saturate n ↔
    m ≤ n := by
  rw [saturate]
  omega

theorem saturatingSub_lt {a b c : Int} (h : a < b + c) (hc : 0 ≤ c) : saturatingSub a b < c := by
  rw [saturatingSub, saturate]
  omega

end I64

namespace I32

def saturate (n : Int) : Int :=
  max (-2 ^ 31) (min (2 ^ 31 - 1) n)

theorem saturate_mono {m n : Int} (h : m ≤ n) : saturate m ≤ saturate n := by
  rw [saturate, saturate]
  omega

end I32

namespace U64

def saturate (n : Nat) : Nat :=
  min n (2 ^ 64 - 1)

theorem saturate_le (n : Nat) : saturate n ≤ n :=
  Nat.min_le_left ..

theorem saturate_mono {m n : Nat} (h : m ≤ n) : saturate m ≤ saturate n := by
  rw [saturate, saturate]
  omega

theorem saturate_of_lt {n : Nat} (h : n < 2 ^ 64) : saturate n = n := by
  rw [saturate]
  omega

end U64
