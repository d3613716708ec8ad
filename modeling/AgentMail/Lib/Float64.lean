import Mathlib.Algebra.Group.Int.Defs
import Mathlib.Algebra.Group.Nat.Defs
import Mathlib.Tactic.Common

-- Binary floating-point numbers of 64 bits.

structure Float64 where
  bits : BitVec 64
  deriving DecidableEq

namespace Float64

def negative (x : Float64) : Bool :=
  2 ^ 63 ≤ x.bits.toNat

-- The bits without the sign.
def magnitude (x : Float64) : Nat :=
  x.bits.toNat % 2 ^ 63

def isFinite (x : Float64) : Bool :=
  x.magnitude / 2 ^ 52 ≠ 2047

def isNaN (x : Float64) : Bool :=
  2047 * 2 ^ 52 < x.magnitude

-- Finite numbers are ordered like these, and both zeros are equal.
def rank (x : Float64) : Int :=
  if x.negative then -x.magnitude else x.magnitude

def lt (x y : Float64) : Bool :=
  x.rank < y.rank

-- The total order of all bit patterns, where the negative zero is below the positive one.
def totalKey (x : Float64) : Int :=
  if x.negative then -x.magnitude - 1 else x.magnitude

def zero : Float64 :=
  ⟨0⟩

def neg (x : Float64) : Float64 :=
  ⟨x.bits ^^^ BitVec.twoPow 64 63⟩

-- The nearest number, and of two the one whose last bit is zero.
def ofNat (m : Nat) : Float64 :=
  if m = 0 then zero
  else
    let e := Nat.log2 m
    let significand :=
      if e ≤ 52 then m * 2 ^ (52 - e)
      else
        let q := m / 2 ^ (e - 52)
        let r := 2 * (m % 2 ^ (e - 52))
        if 2 ^ (e - 52) < r ∨ r = 2 ^ (e - 52) ∧ q % 2 = 1 then q + 1 else q
    ⟨BitVec.ofNat 64 ((e + 1022) * 2 ^ 52 + significand)⟩

def ofInt (n : Int) : Float64 :=
  if n < 0 then neg (ofNat n.natAbs) else ofNat n.natAbs

theorem ext {x y : Float64} (h : x.bits.toNat = y.bits.toNat) : x = y := by
  cases x
  cases y
  exact congrArg mk (BitVec.eq_of_toNat_eq h)

theorem negative_eq (x : Float64) : x.negative ↔ x.bits.toNat / 2 ^ 63 = 1 := by
  have := x.bits.isLt
  simp only [negative, decide_eq_true_eq]
  omega

theorem toNat_bits_neg (x : Float64) : (neg x).bits.toNat = x.bits.toNat ^^^ 2 ^ 63 := by
  rw [neg, BitVec.toNat_xor, BitVec.toNat_twoPow_of_lt (by omega)]

theorem magnitude_neg (x : Float64) : (neg x).magnitude = x.magnitude := by
  rw [magnitude, toNat_bits_neg, Nat.xor_mod_two_pow, Nat.mod_self, Nat.xor_zero, magnitude]

theorem negative_neg (x : Float64) : (neg x).negative = !x.negative := by
  have h : (neg x).bits.toNat / 2 ^ 63 = x.bits.toNat / 2 ^ 63 ^^^ 1 := by
    rw [toNat_bits_neg, Nat.xor_div_two_pow, Nat.div_self (by omega)]
  have hx := x.bits.isLt
  obtain h' | h' : x.bits.toNat / 2 ^ 63 = 0 ∨ x.bits.toNat / 2 ^ 63 = 1 := by omega
  all_goals
    rw [Bool.eq_iff_iff, negative_eq, h, Bool.not_eq_true', ← Bool.not_eq_true, negative_eq, h']
    decide

theorem isFinite_neg (x : Float64) : (neg x).isFinite = x.isFinite := by
  rw [isFinite, magnitude_neg, isFinite]

theorem totalKey_neg (x : Float64) : (neg x).totalKey = -x.totalKey - 1 := by
  rw [totalKey, negative_neg, magnitude_neg, totalKey]
  cases x.negative
  case false => simp only [Bool.not_false, Bool.false_eq_true, if_true, if_false]
  case true  => simp only [Bool.not_true, Bool.false_eq_true, if_true, if_false]; omega

section

variable {m n : Nat}

-- What `ofNat` has made of a number that is not zero.
structure Exact (m significand : Nat) : Prop where
  eq       : significand * 2 ^ Nat.log2 m = m * 2 ^ 52
  normal   : 2 ^ 52 ≤ significand
  lt       : significand < 2 ^ 53
  exponent : Nat.log2 m ≤ 53
  bits     : (ofNat m).bits.toNat = (Nat.log2 m + 1022) * 2 ^ 52 + significand

-- Up to `2 ^ 53`, the nearest number is the number itself.
theorem exists_exact (h : m ≠ 0) (hm : m ≤ 2 ^ 53) : ∃ significand, Exact m significand := by
  have hle := Nat.log2_self_le h
  have hlt : m < 2 ^ (Nat.log2 m + 1) := Nat.lt_log2_self
  rw [Nat.pow_succ] at hlt
  have he : Nat.log2 m ≤ 53 := by
    by_contra hc
    have : 2 ^ 54 ≤ 2 ^ Nat.log2 m := Nat.pow_le_pow_right (by omega) (by omega)
    omega
  have key {s : Nat} (hs : s * 2 ^ Nat.log2 m = m * 2 ^ 52)
      (hb : (ofNat m).bits = BitVec.ofNat 64 ((Nat.log2 m + 1022) * 2 ^ 52 + s)) : Exact m s := by
    have hn : 2 ^ 52 ≤ s := by
      by_contra hc
      have := Nat.mul_lt_mul_of_pos_right (Nat.lt_of_not_le hc) (Nat.two_pow_pos (Nat.log2 m))
      omega
    have hl : s < 2 ^ 53 := by
      by_contra hc
      have := Nat.mul_le_mul_right (2 ^ Nat.log2 m) (Nat.le_of_not_lt hc)
      omega
    refine { eq := hs, normal := hn, lt := hl, exponent := he, bits := ?_ }
    rw [hb, BitVec.toNat_ofNat]
    omega
  by_cases he' : Nat.log2 m ≤ 52
  case pos =>
    have hs : m * 2 ^ (52 - Nat.log2 m) * 2 ^ Nat.log2 m = m * 2 ^ 52 := by
      rw [Nat.mul_assoc, ← Nat.pow_add, Nat.sub_add_cancel he']
    exact ⟨_, key hs (by simp only [ofNat, if_neg h, if_pos he'])⟩
  case neg =>
    have he : Nat.log2 m = 53 := by omega
    rw [he] at hle
    obtain rfl : m = 2 ^ 53 := by omega
    have hs : 2 ^ 52 * 2 ^ Nat.log2 (2 ^ 53) = 2 ^ 53 * 2 ^ 52 := by
      rw [he, Nat.mul_comm]
    exact ⟨2 ^ 52, key hs (by rw [he]; rfl)⟩

theorem Exact.totalKey {significand : Nat} (h : Exact m significand) :
    (ofNat m).totalKey = (Nat.log2 m + 1022) * 2 ^ 52 + significand := by
  have ⟨_, _, _, _, _⟩ := h
  have hn : (ofNat m).negative = false := by simp only [negative, decide_eq_false_iff_not]; omega
  simp only [Float64.totalKey, hn, magnitude, Bool.false_eq_true, if_false]
  omega

theorem Exact.isFinite {significand : Nat} (h : Exact m significand) : (ofNat m).isFinite := by
  have ⟨_, _, _, _, _⟩ := h
  apply decide_eq_true
  unfold magnitude
  omega

theorem isFinite_ofNat (h : m ≤ 2 ^ 53) : (ofNat m).isFinite := by
  by_cases hm : m = 0
  case pos => cases hm; rfl
  case neg =>
    have ⟨_, he⟩ := exists_exact hm h
    exact he.isFinite

theorem totalKey_ofNat_nonneg (h : m ≤ 2 ^ 53) : 0 ≤ (ofNat m).totalKey := by
  by_cases hm : m = 0
  case pos => cases hm; decide
  case neg =>
    have ⟨_, he⟩ := exists_exact hm h
    rw [he.totalKey]
    omega

theorem totalKey_ofNat_lt (h : m < n) (hn : n ≤ 2 ^ 53) :
    (ofNat m).totalKey < (ofNat n).totalKey := by
  have ⟨t, ht⟩ := exists_exact (Nat.ne_zero_of_lt h) hn
  have ⟨_, _, _, _, _⟩ := ht
  rw [ht.totalKey]
  by_cases hm : m = 0
  case pos =>
    cases hm
    have : (ofNat 0).totalKey = 0 := rfl
    omega
  case neg =>
    have ⟨s, hs⟩ := exists_exact hm (by omega)
    have ⟨hse, _, _, _, _⟩ := hs
    rw [hs.totalKey]
    have hle : Nat.log2 m ≤ Nat.log2 n := by
      rw [Nat.le_log2 (by omega)]
      exact Nat.le_trans (Nat.log2_self_le hm) (Nat.le_of_lt h)
    by_cases he : Nat.log2 m = Nat.log2 n
    case neg => omega
    case pos =>
      have : s < t := by
        refine Nat.lt_of_mul_lt_mul_right (a := 2 ^ Nat.log2 n) ?_
        rw [he] at hse
        omega
      omega

end

section

variable {m n : Int}

theorem isFinite_ofInt (h : -2 ^ 53 ≤ n) (h' : n ≤ 2 ^ 53) : (ofInt n).isFinite := by
  have := isFinite_ofNat (m := n.natAbs) (by omega)
  unfold ofInt
  split
  case isTrue  => rwa [isFinite_neg]
  case isFalse => exact this

-- Whole numbers that are exact have the order of the numbers.
theorem totalKey_ofInt_lt (h : m < n) (hm : -2 ^ 53 ≤ m) (hn : n ≤ 2 ^ 53) :
    (ofInt m).totalKey < (ofInt n).totalKey := by
  unfold ofInt
  split <;> split
  case isTrue.isTrue =>
    have := totalKey_ofNat_lt (m := n.natAbs) (n := m.natAbs) (by omega) (by omega)
    simp only [totalKey_neg]
    omega
  case isTrue.isFalse =>
    have := totalKey_ofNat_nonneg (m := m.natAbs) (by omega)
    have := totalKey_ofNat_nonneg (m := n.natAbs) (by omega)
    rw [totalKey_neg]
    omega
  case isFalse.isTrue  => omega
  case isFalse.isFalse => exact totalKey_ofNat_lt (by omega) (by omega)

end

end Float64
