import AgentMail.Search.Basic
import Mathlib.Tactic.IntervalCases

open Pattern (Str)

namespace Search

section

variable {radix n d : Nat} {c : Char} {s t : Str}

theorem digits?_concat (hs : digits? radix s = some n) (hc : hexDigit? c = some d)
    (hd : d < radix) : digits? radix (s ++ [c]) = some (n * radix + d) := by
  have h : digits? radix (s ++ [c]) = (digits? radix s).bind fun n => (hexDigit? c).bind fun d =>
      if d < radix then some (n * radix + d) else none := by
    simp [digits?, List.foldlM_append]
  rw [h, hs, hc]
  exact if_pos hd

theorem hexDigit?_hexDigit (h : d < 16) : hexDigit? (hexDigit d) = some d := by
  interval_cases d <;> rfl

theorem hexDigit?_digitChar (h : d < 10) : hexDigit? d.digitChar = some d := by
  interval_cases d <;> rfl

theorem digits?_hexDigits (count n : Nat) :
    digits? 16 (hexDigits count n) = some (n % 16 ^ count) := by
  induction count generalizing n
  case zero          => simp [hexDigits, digits?, Nat.mod_one]
  case succ count hi =>
    have hd := Nat.mod_lt n (y := 16) (by omega)
    rw [hexDigits, digits?_concat (hi (n / 16)) (hexDigit?_hexDigit hd) hd,
      Nat.pow_succ', Nat.mod_mul]
    congr 1
    omega

theorem digits?_toDigits (n : Nat) : digits? 10 (Nat.toDigits 10 n) = some n := by
  induction n using Nat.strongRecOn
  case ind n hi =>
    by_cases h : n < 10
    case pos =>
      rw [Nat.toDigits_of_lt_base h]
      simpa using digits?_concat (s := []) rfl (hexDigit?_digitChar h) h
    case neg =>
      have hd := Nat.mod_lt n (y := 10) (by omega)
      rw [Nat.toDigits_of_base_le (by omega) (by omega),
        digits?_concat (hi (n / 10) (by omega)) (hexDigit?_digitChar hd) hd]
      congr 1
      omega

theorem splitOnce_append (h : ':' ∉ s) : splitOnce (s ++ ":i".toList ++ t) = some (s, t) := by
  induction s
  case nil         => rfl
  case cons c s hi =>
    have ⟨hc, hs⟩ : ':' ≠ c ∧ ':' ∉ s := by simpa using h
    rw [List.cons_append, List.cons_append, splitOnce, hi hs]
    · rfl
    · intro _ hc'
      exact absurd hc'.symm hc

theorem colon_notMem_hexDigits (count n : Nat) : ':' ∉ hexDigits count n := by
  induction count generalizing n
  case zero          => exact List.not_mem_nil
  case succ count hi =>
    have hd : ':' ≠ hexDigit (n % 16) := by
      have := Nat.mod_lt n (y := 16) (by omega)
      generalize n % 16 = d at this
      interval_cases d <;> decide
    simp [hexDigits, hi, hd]

-- A sign is not a digit.
theorem digits?_sign (h : hexDigit? c = none) : digits? radix (c :: s) = none := by
  simp [digits?, h]

theorem unsigned?_eq (h : digits? radix s = some n) (hs : s ≠ []) : unsigned? radix s = some n := by
  have hp : s.head? ≠ some '+' := by
    cases s
    case nil      => nofun
    case cons c s =>
      intro hc
      cases hc
      exact nomatch (digits?_sign rfl).symm.trans h
  simp only [unsigned?, if_neg hp, if_neg hs, h]

end

section

variable {bits : BitVec 64} {id : Int} {cursor : SearchCursor}

theorem u64?_hexDigits : u64? 16 (hexDigits 16 bits.toNat) = some bits := by
  have h : digits? 16 (hexDigits 16 bits.toNat) = some bits.toNat := by
    rw [digits?_hexDigits]
    exact congrArg some (Nat.mod_eq_of_lt bits.isLt)
  rw [u64?, unsigned?_eq h (by simp [hexDigits])]
  exact (if_pos bits.isLt).trans
    (congrArg some ((BitVec.ofNat_toNat 64 bits).trans (BitVec.setWidth_eq bits)))

theorem i64?_toString (h : -2 ^ 63 ≤ id) (h' : id < 2 ^ 63) :
    i64? (toString id).toList = some id := by
  have hid : Option.filter (fun n : Int => -2 ^ 63 ≤ n ∧ n < 2 ^ 63) (some id) = some id := by
    rw [Option.filter_some, if_pos (decide_eq_true ⟨h, h'⟩)]
  cases id
  case ofNat n =>
    have hd := digits?_toDigits n
    have hn := unsigned?_eq hd Nat.toDigits_ne_nil
    have hs : (toString (Int.ofNat n)).toList = Nat.toDigits 10 n := Nat.toList_repr
    have hm : (Nat.toDigits 10 n).head? ≠ some '-' := by
      intro hc
      have ⟨s, he⟩ := List.head?_eq_some_iff.mp hc
      rw [he] at hd
      exact nomatch (digits?_sign rfl).symm.trans hd
    simp only [i64?, hs, if_neg hm, hn]
    exact hid
  case negSucc n =>
    have hs : (toString (Int.negSucc n)).toList = '-' :: Nat.toDigits 10 (n + 1) := by
      simp [toString, Int.repr, Nat.toList_repr]
    simp only [i64?, hs, List.head?_cons, if_true, List.tail_cons, if_neg Nat.toDigits_ne_nil,
      digits?_toDigits]
    exact hid

-- A cursor is read back as it has been written.
theorem SearchCursor.decode_encode (hs : cursor.score.isFinite) (h : -2 ^ 63 ≤ cursor.id)
    (h' : cursor.id < 2 ^ 63) : decode cursor.encode = some cursor := by
  have hn : ':' ∉ 's' :: hexDigits 16 cursor.score.bits.toNat := by
    simp [colon_notMem_hexDigits]
  have he : splitOnce cursor.encode =
      some ('s' :: hexDigits 16 cursor.score.bits.toNat, (toString cursor.id).toList) :=
    splitOnce_append hn
  simp only [decode, he, Option.bind_eq_bind, Option.bind_some, List.head?_cons,
    if_true, List.tail_cons, u64?_hexDigits, i64?_toString h h']
  exact if_pos hs

end

end Search
