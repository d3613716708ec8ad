import AgentMail.Lib.Saturating

-- Functions of SQLite on texts, as documented.

namespace Sqlite

def isSpace (c : Char) : Bool :=
  c = ' ' || 9 ≤ c.toNat && c.toNat ≤ 13

-- The value of the longest prefix of digits.
def digits (s : List Char) : Nat :=
  Nat.ofDigitChars 10 (s.takeWhile Char.isDigit) 0

-- `CAST(s AS INTEGER)`
def castInteger (s : List Char) : Int :=
  match s.dropWhile isSpace with
  | '-' :: s => I64.saturate (-digits s)
  | '+' :: s => I64.saturate (digits s)
  | s        => I64.saturate (digits s)

def instr (s : List Char) (c : Char) : Nat :=
  match s.findIdx? (· = c) with
  | some i => i + 1
  | none   => 0

def substr (s : List Char) (start length : Nat) : List Char :=
  (s.drop (start - 1)).take length

variable {s t ds : List Char} {c : Char}

theorem digits_append (hd : ∀ c ∈ ds, c.isDigit) (ht : ∀ c ∈ t.head?, ¬c.isDigit) :
    digits (ds ++ t) = Nat.ofDigitChars 10 ds 0 := by
  rw [digits, List.takeWhile_append_of_pos hd]
  cases t
  case nil      => rw [List.takeWhile_nil, List.append_nil]
  case cons c t => rw [List.takeWhile_cons_of_neg (ht c rfl), List.append_nil]

theorem not_isSpace_of_isDigit (h : c.isDigit) : ¬isSpace c := by
  have hl : 48 ≤ c.toNat := (Char.isDigit_iff_toNat.mp h).left
  have hne : c ≠ ' ' := fun he => by simp [he] at hl
  simp only [isSpace, decide_eq_false hne, Bool.false_or, Bool.and_eq_true,
    decide_eq_true_eq, not_and]
  omega

theorem castInteger_of_isDigit (h : c.isDigit) :
    castInteger (c :: s) = I64.saturate (digits (c :: s)) := by
  rw [castInteger, List.dropWhile_cons_of_neg (not_isSpace_of_isDigit h)]
  split
  case h_1 he => cases he; cases h
  case h_2 he => cases he; cases h
  case h_3    => rfl

theorem ofDigitChars_lt (h : ∀ c ∈ ds, c.isDigit) : Nat.ofDigitChars 10 ds 0 < 10 ^ ds.length := by
  induction ds
  case nil => decide
  case cons c ds hi =>
    have ⟨hc, hds⟩ := List.forall_mem_cons.mp h
    have hu : c.toNat ≤ 57 := (Char.isDigit_iff_toNat.mp hc).right
    have hd : 10 * 0 + (c.toNat - '0'.toNat) ≤ 9 := by
      show 10 * 0 + (c.toNat - 48) ≤ 9
      omega
    rw [Nat.ofDigitChars_cons, Nat.ofDigitChars_eq_ofDigitChars_zero,
      List.length_cons, Nat.pow_succ]
    have := Nat.mul_le_mul_left (10 ^ ds.length) hd
    have := hi hds
    omega

-- A text that begins with a digit is read up to the first character that is none.
theorem castInteger_append (hne : ds ≠ []) (hd : ∀ c ∈ ds, c.isDigit)
    (ht : ∀ c ∈ t.head?, ¬c.isDigit) (hlen : ds.length ≤ 18) :
    castInteger (ds ++ t) = Nat.ofDigitChars 10 ds 0 := by
  have hlt := (ofDigitChars_lt hd).trans_le (Nat.pow_le_pow_right (by decide) hlen)
  have hi : castInteger (ds ++ t) = I64.saturate (digits (ds ++ t)) := by
    cases ds
    case nil       => exact absurd rfl hne
    case cons c ds => exact castInteger_of_isDigit (hd c (List.mem_cons_self ..))
  rw [hi, digits_append hd ht]
  exact I64.saturate_of_mem (by omega) (by omega)

theorem digits_toDigits {n : Nat} : digits (Nat.toDigits 10 n) = n := by
  rw [← List.append_nil (Nat.toDigits 10 n), digits_append, Nat.ofDigitChars_ten_toDigits]
  · exact fun c hc => Nat.isDigit_of_mem_toDigits (by decide) (by decide) hc
  · exact fun _ h => nomatch h

theorem castInteger_toString (n : Int) : castInteger (toString n).toList = I64.saturate n := by
  cases n
  case ofNat n =>
    have hs : (toString (Int.ofNat n)).toList = Nat.toDigits 10 n := Nat.toList_repr
    cases h : Nat.toDigits 10 n
    case nil => exact absurd h Nat.toDigits_ne_nil
    case cons c ds =>
      have hc : c.isDigit :=
        Nat.isDigit_of_mem_toDigits (by decide) (by decide) (h ▸ List.mem_cons_self ..)
      rw [hs, h, castInteger_of_isDigit hc, ← h, digits_toDigits]
      rfl
  case negSucc n =>
    have hs : (toString (Int.negSucc n)).toList = '-' :: Nat.toDigits 10 (n + 1) := by
      simp [toString, Int.repr, Nat.toList_repr]
    have hd : List.dropWhile isSpace ('-' :: Nat.toDigits 10 (n + 1)) =
        '-' :: Nat.toDigits 10 (n + 1) := rfl
    have hc : castInteger ('-' :: Nat.toDigits 10 (n + 1)) =
        I64.saturate (-digits (Nat.toDigits 10 (n + 1))) := by
      rw [castInteger, hd]
      rfl
    rw [hs, hc, digits_toDigits]
    rfl

theorem findIdx?_of_not_mem (hs : c ∉ s) : s.findIdx? (· = c) = none :=
  List.findIdx?_eq_none_iff.mpr fun _ hx => decide_eq_false fun h => hs (h ▸ hx)

theorem instr_append (hs : c ∉ s) : instr (s ++ c :: t) c = s.length + 1 := by
  have hf : (s ++ c :: t).findIdx? (· = c) = some s.length := by
    rw [List.findIdx?_append, findIdx?_of_not_mem hs]
    simp [List.findIdx?_cons]
  rw [instr, hf]

theorem substr_append {n : Nat} : substr (s ++ c :: t) (s.length + 1 + 1) n = t.take n := by
  rw [substr, Nat.add_sub_cancel, List.append_cons, List.drop_left' (by simp)]

theorem instr_of_not_mem (hs : c ∉ s) : instr s c = 0 := by
  rw [instr, findIdx?_of_not_mem hs]

end Sqlite
