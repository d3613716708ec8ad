import AgentMail.Migrate.Timestamp
import AgentMail.Pattern.Theorems.Normalize
import AgentMail.Schema.Basic

open Pattern
open Sqlite (castInteger castInteger_append castInteger_toString instr instr_append instr_of_not_mem
  substr substr_append)
open Schema (tsConversion)

namespace Migrate

variable {t : Timestamp} {strftime : Str → Str → Option Str} {chrono : Chrono} {c : Char} {ds : Str}
  {n : Nat} {suffix : Suffix}

section Digits

theorem isDigit_twoDigits (h : n < 100) : ∀ c ∈ twoDigits n, c.isDigit := by
  intro c hc
  simp only [twoDigits, List.mem_cons, List.not_mem_nil, or_false] at hc
  rcases hc with rfl | rfl
  · simp [Nat.isDigit_digitChar]
    omega
  · simp [Nat.isDigit_digitChar]
    omega

theorem not_isWhitespace_of_isDigit (h : c.isDigit) : ¬isWhitespace c := by
  have hl : 48 ≤ c.toNat := (Char.isDigit_iff_toNat.mp h).left
  have hu : c.toNat ≤ 57 := (Char.isDigit_iff_toNat.mp h).right
  simp [isWhitespace]
  omega

theorem daysInMonth_le {year month : Nat} : daysInMonth year month ≤ 31 := by
  unfold daysInMonth
  split_ifs <;> decide

end Digits

namespace Timestamp

section Text

theorem mem_whole (h : c ∈ t.whole) : c.isDigit ∨ c = '-' ∨ c = ':' ∨ c = t.separator := by
  have := t.year_mem
  have := t.month_mem
  have := t.day_mem.right.trans daysInMonth_le
  have := t.hour_lt
  have := t.minute_lt
  have := t.second_lt
  simp only [whole, List.mem_append, List.mem_cons, List.append_assoc, List.cons_append] at h
  rcases h with h | h | h | h | h | h | h | h | h | h | h | h
  all_goals first
    | exact .inl (isDigit_twoDigits (by omega) c h)
    | simp [h]

theorem dot_not_mem_whole : '.' ∉ t.whole := by
  intro h
  rcases mem_whole h with h | h | h | h
  · cases h
  · cases h
  · cases h
  · rcases t.separator_mem with hs | hs <;> rw [hs] at h <;> cases h

theorem isDigit_fractionDigits : ∀ c ∈ t.fractionDigits, c.isDigit := by
  intro c hc
  have ⟨d, _, hd⟩ := List.mem_map.mp hc
  rw [← hd, Nat.isDigit_digitChar]
  exact decide_eq_true d.isLt

theorem length_fractionDigits : t.fractionDigits.length = t.fraction.length :=
  List.length_map ..

theorem reverse_whole :
    ∃ l, t.whole.reverse = (t.second % 10).digitChar :: (t.second / 10).digitChar :: ':' ::
      (t.minute % 10).digitChar :: (t.minute / 10).digitChar :: ':' :: l := by
  rw [whole, List.append_assoc, List.reverse_append]
  exact ⟨_, rfl⟩

theorem naive_eq (h : t.fraction ≠ []) : t.naive = t.whole ++ '.' :: t.fractionDigits :=
  if_neg h

theorem naive_of_nil (h : t.fraction = []) : t.naive = t.whole :=
  if_pos h

theorem text_of_none (h : t.suffix = none) : t.text = t.naive := by
  rw [text, h, Option.elim_none, List.append_nil]

theorem text_of_some (h : t.suffix = some suffix) : t.text = t.naive ++ suffix.text := by
  rw [text, h, Option.elim_some]

theorem head?_text : ∃ c, t.text.head? = some c ∧ c.isDigit := by
  refine ⟨(t.year / 100 / 10).digitChar, ?_, ?_⟩
  · unfold text naive
    split <;> rfl
  · have := t.year_mem
    rw [Nat.isDigit_digitChar]
    exact decide_eq_true (by omega)

theorem getLast?_twoDigits {l : Str} : ∃ c, (l ++ twoDigits n).getLast? = some c ∧ c.isDigit := by
  refine ⟨(n % 10).digitChar, ?_, ?_⟩
  · simp [twoDigits]
  · rw [Nat.isDigit_digitChar]
    exact decide_eq_true (by omega)

theorem getLast?_naive : ∃ c, t.naive.getLast? = some c ∧ c.isDigit := by
  by_cases h : t.fraction = []
  case pos =>
    have ⟨l, hl⟩ := reverse_whole (t := t)
    refine ⟨(t.second % 10).digitChar, ?_, ?_⟩
    · rw [naive_of_nil h, ← List.head?_reverse, hl, List.head?_cons]
    · rw [Nat.isDigit_digitChar]
      exact decide_eq_true (by omega)
  case neg =>
    have hd : t.fractionDigits ≠ [] := by simpa [fractionDigits] using h
    refine ⟨t.fractionDigits.getLast hd, ?_, isDigit_fractionDigits _ (List.getLast_mem hd)⟩
    rw [naive_eq h, List.append_cons, List.getLast?_append_of_ne_nil _ hd,
      List.getLast?_eq_some_getLast hd]

theorem getLast?_text : ∃ c, t.text.getLast? = some c ∧ (c.isDigit ∨ c = 'Z') := by
  cases hs : t.suffix
  case none =>
    have ⟨c, hc, hd⟩ := getLast?_naive (t := t)
    exact ⟨c, text_of_none hs ▸ hc, .inl hd⟩
  case some suffix =>
    rw [text_of_some hs]
    cases suffix
    case z => exact ⟨'Z', by simp [Suffix.text], .inr rfl⟩
    case offset west hours minutes =>
      have ⟨c, hc, hd⟩ := getLast?_twoDigits (n := minutes)
        (l := t.naive ++ (if west then '-' else '+') :: twoDigits hours ++ [':'])
      exact ⟨c, by simpa [Suffix.text] using hc, .inl hd⟩

theorem trim_text : trim t.text = t.text := by
  have ⟨c, hc, hd⟩ := head?_text (t := t)
  have ⟨c', hc', hd'⟩ := getLast?_text (t := t)
  rw [trim_eq, trimStart_eq_self.mpr, trimEnd_eq_self.mpr]
  · intro d h
    obtain rfl := Option.some_inj.mp (hc'.symm.trans h)
    rcases hd' with hd' | rfl
    · exact not_isWhitespace_of_isDigit hd'
    · decide
  · intro d h
    obtain rfl := Option.some_inj.mp (hc.symm.trans h)
    exact not_isWhitespace_of_isDigit hd

omit t in
-- An offset has a colon in front of its last two characters, and a sign three characters before.
theorem stripTimezoneSuffix_eq_self {s : Str} (hz : s.getLast? ≠ some 'Z')
    (h : s.reverse[2]? = some ':' → s.reverse[5]? = some ':') : stripTimezoneSuffix s = s := by
  rw [stripTimezoneSuffix, if_neg hz]
  split
  case h_1 m₂ m₁ h₂ h₁ sign rest he =>
    obtain rfl : sign = ':' := by simpa [he] using h
    exact if_neg fun hc => by simp at hc
  case h_2 => rfl

theorem stripTimezoneSuffix_naive : stripTimezoneSuffix t.naive = t.naive := by
  have ⟨c, hc, hd⟩ := getLast?_naive (t := t)
  have ⟨l, hl⟩ := reverse_whole (t := t)
  refine stripTimezoneSuffix_eq_self ?_ ?_
  · rw [hc]
    rintro ⟨⟩
    cases hd
  · by_cases hf : t.fraction = []
    case pos =>
      rw [naive_of_nil hf, hl]
      exact fun _ => rfl
    case neg =>
      have hds : ∀ c ∈ t.fractionDigits.reverse, c.isDigit :=
        fun c hc => isDigit_fractionDigits c (List.mem_reverse.mp hc)
      have hne : t.fractionDigits.reverse ≠ [] := by simpa [fractionDigits] using hf
      rw [naive_eq hf, List.reverse_append, List.reverse_cons, hl, List.append_assoc,
        List.singleton_append]
      intro hcolon
      exfalso
      cases hr : t.fractionDigits.reverse
      case nil => exact hne hr
      case cons d ds =>
        rw [hr] at hcolon hds
        cases ds
        case nil => simp at hcolon
        case cons d' ds =>
          cases ds
          case nil => simp at hcolon
          case cons d'' ds =>
            obtain rfl : d'' = ':' := by simpa using hcolon
            cases hds ':' (by simp)

end Text

section Rust

theorem textToMicros_text (h : t.Documented strftime chrono) (table : TableName) (column : Column)
    (rowId : Int) : textToMicros chrono t.text table column rowId = .ok (some t.micros) := by
  have hne : t.text ≠ [] := by
    have ⟨c, hc, _⟩ := head?_text (t := t)
    rintro he
    simp [he] at hc
  rw [textToMicros, trim_text]
  dsimp only
  rw [if_neg hne, h.rfc3339]
  cases hs : t.suffix
  case some => rfl
  case none =>
    rw [Option.map_none]
    dsimp only
    rw [text_of_none hs, stripTimezoneSuffix_naive, ← text_of_none hs]
    have hp : (chrono.parseNaiveDateTime t.text "%Y-%m-%d %H:%M:%S%.f".toList) = _ :=
      h.naive hs ' ' (.inl rfl)
    have hp' : (chrono.parseNaiveDateTime t.text "%Y-%m-%dT%H:%M:%S%.f".toList) = _ :=
      h.naive hs 'T' (.inr rfl)
    rw [formats, List.findSome?_cons, List.findSome?_cons, hp, hp']
    rcases t.separator_mem with hsep | hsep
    · rw [if_pos hsep]
    · rw [if_pos hsep, if_neg (by rw [hsep]; decide)]

end Rust

section Sql

theorem days_lt : t.days < 3700000 := by
  have := t.year_mem
  have := t.month_mem
  have := t.day_mem.right.trans daysInMonth_le
  have hm (n : Nat) : ((List.range n).map fun m => daysInMonth t.year (m + 1)).sum ≤ 31 * n := by
    induction n
    case zero => exact le_rfl
    case succ n hi =>
      rw [List.range_succ, List.map_append, List.sum_append, List.map_singleton, List.sum_singleton]
      have : daysInMonth t.year (n + 1) ≤ 31 := daysInMonth_le
      omega
  have := hm (t.month - 1)
  rw [days]
  omega

theorem suffix_seconds_mem : -86400 < t.suffix.elim 0 Suffix.seconds ∧
    t.suffix.elim 0 Suffix.seconds < 86400 := by
  cases hs : t.suffix
  case none => simp
  case some suffix =>
    have hv := t.suffix_valid suffix hs
    cases suffix
    case z => simp [Suffix.seconds]
    case offset west hours minutes =>
      obtain ⟨hh, hm⟩ := hv
      rw [Option.elim_some, Suffix.seconds]
      split <;> omega

theorem castInteger_seconds : castInteger (toString t.seconds).toList = t.seconds := by
  have := days_lt (t := t)
  have := suffix_seconds_mem (t := t)
  have := t.hour_lt
  have := t.minute_lt
  have := t.second_lt
  rw [castInteger_toString]
  refine I64.saturate_of_mem ?_ ?_
  all_goals
    rw [seconds]
    omega

-- The digits of the fraction, which the migration reads as a whole number if an offset follows.
def convertedFraction (t : Timestamp) : Nat :=
  if t.suffix = none then t.fractionMicros else Nat.ofDigitChars 10 t.fractionDigits 0

theorem head?_suffix : ∀ c ∈ (suffix.text ++ ds).head?, ¬c.isDigit := by
  intro c hc
  cases suffix
  case z =>
    obtain rfl : 'Z' = c := by simpa [Suffix.text] using hc
    decide
  case offset west hours minutes =>
    obtain rfl : (if west then '-' else '+') = c := by simpa [Suffix.text] using hc
    split <;> decide

theorem castInteger_fraction (h : t.fraction ≠ []) :
    castInteger (substr (t.text ++ "000000".toList) (instr t.text '.' + 1) 6) =
      t.convertedFraction := by
  have htext : t.text = t.whole ++ '.' :: (t.fractionDigits ++ t.suffix.elim [] Suffix.text) := by
    rw [text, naive_eq h, List.append_assoc, List.cons_append]
  have hlen : t.fractionDigits.length ≤ 6 := length_fractionDigits.trans_le t.fraction_le
  have hne : t.fractionDigits ≠ [] := by simpa [fractionDigits] using h
  have hsub : substr (t.text ++ "000000".toList) (instr t.text '.' + 1) 6 =
      t.fractionDigits ++ (t.suffix.elim [] Suffix.text ++ "000000".toList).take
        (6 - t.fractionDigits.length) := by
    rw [htext, instr_append dot_not_mem_whole, List.append_assoc, List.cons_append, substr_append,
      List.append_assoc, List.take_append, List.take_of_length_le hlen]
  rw [hsub, convertedFraction]
  cases hs : t.suffix
  case none =>
    have hz : "000000".toList.take (6 - t.fractionDigits.length) =
        List.replicate (6 - t.fraction.length) '0' := by
      rw [length_fractionDigits, show "000000".toList = List.replicate 6 '0' from rfl,
        List.take_replicate]
      exact congrArg (List.replicate · '0') (by omega)
    have hds : ∀ c ∈ t.fractionDigits ++ List.replicate (6 - t.fraction.length) '0', c.isDigit := by
      intro c hc
      rcases List.mem_append.mp hc with hc | hc
      · exact isDigit_fractionDigits c hc
      · exact List.eq_of_mem_replicate hc ▸ rfl
    have hv : Nat.ofDigitChars 10 (t.fractionDigits ++ List.replicate (6 - t.fraction.length) '0')
        0 = t.fractionMicros := by
      rw [Nat.ofDigitChars_append, Nat.ofDigitChars_replicate_zero, fractionMicros, Nat.mul_comm]
    have hlen' : (t.fractionDigits ++ List.replicate (6 - t.fraction.length) '0').length ≤ 18 := by
      have := t.fraction_le
      rw [List.length_append, List.length_replicate, length_fractionDigits]
      omega
    rw [Option.elim_none, List.nil_append, hz, ← List.append_nil (_ ++ List.replicate _ _),
      castInteger_append (by simp [hne]) hds (fun _ h => by cases h) hlen', if_pos rfl, hv]
  case some suffix =>
    rw [if_neg (Option.some_ne_none _),
      castInteger_append hne isDigit_fractionDigits ?_ (hlen.trans (by decide))]
    intro c hc
    rw [List.head?_take] at hc
    split at hc
    case isTrue  => cases hc
    case isFalse => exact head?_suffix c hc

theorem dot_not_mem_text (h : t.fraction = []) : '.' ∉ t.text := by
  rw [text, naive_of_nil h, List.mem_append, not_or]
  refine ⟨dot_not_mem_whole, ?_⟩
  cases t.suffix
  case none => exact List.not_mem_nil
  case some suffix =>
    cases suffix
    case z      => decide
    case offset west hours minutes => cases west <;> simp [Suffix.text, twoDigits]

theorem tsConversion_text (h : t.Documented strftime chrono) :
    tsConversion strftime t.text = some (t.seconds * 1000000 + t.convertedFraction) := by
  rw [tsConversion, h.strftime, Option.map_some, castInteger_seconds]
  by_cases hf : t.fraction = []
  case pos =>
    have hz : t.convertedFraction = 0 := by
      simp [convertedFraction, fractionMicros, fractionDigits, hf]
    rw [instr_of_not_mem (dot_not_mem_text hf), hz]
    rfl
  case neg =>
    have hi : instr t.text '.' > 0 := by
      rw [text, naive_eq hf, List.append_assoc, List.cons_append, instr_append dot_not_mem_whole]
      exact Nat.succ_pos _
    rw [if_pos hi, castInteger_fraction hf]

theorem ofDigitChars_eq_zero_iff {ds : List (Fin 10)} :
    Nat.ofDigitChars 10 (ds.map (·.val.digitChar)) 0 = 0 ↔ ∀ d ∈ ds, d = 0 := by
  induction ds
  case nil => simp
  case cons d ds hi =>
    rw [List.map_cons, Nat.ofDigitChars_cons_digitChar_of_lt_ten d.isLt,
      Nat.ofDigitChars_eq_ofDigitChars_zero, Nat.add_eq_zero_iff, hi, List.forall_mem_cons,
      Nat.mul_eq_zero, Nat.mul_zero, Nat.zero_add, Fin.ext_iff]
    exact and_congr_left' (or_iff_right (Nat.pow_pos (by decide)).ne')

theorem convertedFraction_eq_iff : t.convertedFraction = t.fractionMicros ↔
    t.suffix = none ∨ t.fraction.length = 6 ∨ ∀ d ∈ t.fraction, d = 0 := by
  rw [convertedFraction]
  by_cases hs : t.suffix = none
  case pos => simp [hs]
  case neg =>
    rw [if_neg hs, or_iff_right hs, fractionMicros, eq_comm, ← ofDigitChars_eq_zero_iff]
    have hle := t.fraction_le
    by_cases hz : Nat.ofDigitChars 10 t.fractionDigits 0 = 0
    case pos => exact iff_of_true (by rw [hz, Nat.zero_mul]) (.inr hz)
    case neg =>
      rw [Nat.mul_eq_left hz,
        or_iff_left (show ¬Nat.ofDigitChars 10 (t.fraction.map _) 0 = 0 from hz), Nat.pow_eq_one]
      omega

end Sql

section Agree

variable (table : TableName) (column : Column) (rowId : Int)

theorem eq_tsConversion_iff_fraction (h : t.Documented strftime chrono) :
    textToMicros chrono t.text table column rowId = .ok (tsConversion strftime t.text) ↔
      t.convertedFraction = t.fractionMicros := by
  rw [textToMicros_text h, tsConversion_text h, micros]
  simp
  omega

-- The migration pads the fraction behind the offset.
theorem eq_tsConversion_iff (h : t.Documented strftime chrono) :
    textToMicros chrono t.text table column rowId = .ok (tsConversion strftime t.text) ↔
      t.suffix = none ∨ t.fraction.length = 6 ∨ ∀ d ∈ t.fraction, d = 0 :=
  (eq_tsConversion_iff_fraction table column rowId h).trans convertedFraction_eq_iff

end Agree

-- SQLite and `chrono`, as far as they read the text of `t`.

def strftimeOf (t : Timestamp) (format text : Str) : Option Str :=
  if format = "%s".toList ∧ text = t.text then some (toString t.seconds).toList else none

def chronoOf (t : Timestamp) : Chrono where
  parseFromRfc3339 text          := if text = t.text then t.suffix.map fun _ => t.micros else none
  parseNaiveDateTime text format :=
    if t.suffix = none ∧ text = t.text ∧
      format = "%Y-%m-%d".toList ++ t.separator :: "%H:%M:%S%.f".toList then
      some t.micros
    else
      none
  parseNaiveDate _ _             := none

theorem documented : t.Documented (strftimeOf t) (chronoOf t) where
  strftime := if_pos ⟨rfl, rfl⟩
  rfc3339  := if_pos rfl
  naive    := by
    intro hs separator _
    refine if_congr ⟨fun h => ?_, fun h => ⟨hs, rfl, h ▸ rfl⟩⟩ rfl rfl
    exact (List.cons.inj (List.append_cancel_left h.right.right)).left.symm

def atSecond (fraction : List (Fin 10)) (h : fraction.length ≤ 6) (suffix : Option Suffix)
    (hs : ∀ s ∈ suffix, s.Valid) : Timestamp where
  year          := 2026
  month         := 2
  day           := 4
  separator     := 'T'
  hour          := 22
  minute        := 13
  second        := 11
  fraction      := fraction
  suffix        := suffix
  year_mem      := by decide
  month_mem     := by decide
  day_mem       := by decide
  separator_mem := by decide
  hour_lt       := by decide
  minute_lt     := by decide
  second_lt     := by decide
  fraction_le   := h
  suffix_valid  := hs

example : (atSecond [5] (by decide) none (by simp)).seconds = 1770243191 := by
  decide

-- The text 2026-02-04T22:13:11.079199.
theorem eq_tsConversion_iff_python :
    let t := atSecond [0, 7, 9, 1, 9, 9] (by decide) none (by simp)
    textToMicros (chronoOf t) t.text .projects .createdAt 1 =
      .ok (tsConversion (strftimeOf t) t.text) :=
  (eq_tsConversion_iff .projects .createdAt 1 documented).mpr (by decide)

-- The text 2026-02-04T22:13:11.5Z.
theorem not_eq_tsConversion_halfSecond :
    ¬∀ (t : Timestamp) strftime chrono, t.Documented strftime chrono → ∀ table column rowId,
      textToMicros chrono t.text table column rowId = .ok (tsConversion strftime t.text) := by
  intro h
  let t := atSecond [5] (by decide) (some .z) (by simp [Suffix.Valid])
  have he := h t (strftimeOf t) (chronoOf t) documented .projects .createdAt 1
  exact absurd ((eq_tsConversion_iff_fraction .projects .createdAt 1 documented).mp he) (by decide)

end Timestamp

end Migrate
