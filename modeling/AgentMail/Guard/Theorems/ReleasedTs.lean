import AgentMail.Guard.ReleasedTs
import AgentMail.Pattern.Theorems.Normalize
import Mathlib.Algebra.Order.Ring.Cast

open Pattern
open Reservation (Platform SqlValue isUnreleased trimSpaces)

namespace Guard

variable {nearest : ℚ → ℚ} {pf : Platform} {s t w ws : Str} {c : Char} {value : SqlValue}

section Trim

theorem trim_whitespace (hs : ∀ c ∈ ws, isWhitespace c) (hw : ∀ c ∈ w, isWhitespace c) :
    trim (ws ++ s ++ w) = trim s := by
  rw [← trim_trimEnd, trimEnd_whitespace hw, trim_trimEnd, ← trim_trimStart,
    trimStart_whitespace hs, trim_trimStart]

theorem exists_trimSpaces_append (s : Str) :
    ∃ ws w, s = ws ++ trimSpaces s ++ w ∧ (∀ c ∈ ws, c = ' ') ∧ ∀ c ∈ w, c = ' ' := by
  have of_mem {l : Str} {c : Char} (h : c ∈ l.takeWhile (· = ' ')) : c = ' ' := by
    simpa using List.mem_takeWhile_imp h
  refine ⟨s.takeWhile (· = ' '), ((s.dropWhile (· = ' ')).reverse.takeWhile (· = ' ')).reverse, ?_,
    fun _ => of_mem, fun _ hc => of_mem (List.mem_reverse.mp hc)⟩
  rw [trimSpaces, List.append_assoc, ← List.reverse_append, List.takeWhile_append_dropWhile,
    List.reverse_reverse, List.takeWhile_append_dropWhile]

theorem trim_trimSpaces (s : Str) : trim (trimSpaces s) = trim s := by
  have ⟨ws, w, hs, hws, hw⟩ := exists_trimSpaces_append s
  conv_rhs => rw [hs]
  exact (trim_whitespace (fun c hc => hws c hc ▸ rfl) fun c hc => hw c hc ▸ rfl).symm

theorem trim_eq_trimSpaces (h : ∀ c ∈ trimSpaces s, ¬isWhitespace c) : trim s = trimSpaces s := by
  rw [← trim_trimSpaces, trim_eq_self h]

theorem isNumeralChar.not_whitespace (h : isNumeralChar c) : ¬isWhitespace c := by
  simp only [isNumeralChar, Bool.or_eq_true, decide_eq_true_eq] at h
  obtain ((h | rfl) | rfl) | rfl := h
  · have h : 48 ≤ c.toNat ∧ c.toNat ≤ 57 := Char.isDigit_iff_toNat.mp h
    simp only [isWhitespace, Bool.or_eq_true, Bool.and_eq_true, decide_eq_true_eq]
    omega
  all_goals decide

theorem toLower_whitespace (h : isWhitespace c) : c.toLower = c := by
  rw [← Char.toNat_inj, toNat_toLower]
  simp only [isWhitespace, Bool.or_eq_true, Bool.and_eq_true, decide_eq_true_eq] at h
  exact if_neg (by omega)

theorem not_whitespace_of_toLower (h : ∀ c ∈ t.map Char.toLower, ¬isWhitespace c) :
    ∀ c ∈ t, ¬isWhitespace c := by
  intro c hc hw
  have hl := h c.toLower (List.mem_map_of_mem hc)
  rw [toLower_whitespace hw] at hl
  exact hl hw

end Trim

section Text

-- The texts that mean that nothing has been released.
def IsSentinel (t : Str) : Prop :=
  t = [] ∨ t = ['0'] ∨ t.map Char.toLower = "null".toList ∨ t.map Char.toLower = "none".toList

theorem mem_sentinels :
    t.map Char.toLower ∈ ["".toList, "0".toList, "null".toList, "none".toList] ↔ IsSentinel t := by
  have hz : t.map Char.toLower = ['0'] ↔ t = ['0'] := by
    simp [List.map_eq_singleton_iff, toLower_eq_iff (d := '0') (by decide)]
  rw [IsSentinel, ← hz]
  simp

theorem IsSentinel.not_whitespace (h : IsSentinel t) : ∀ c ∈ t, ¬isWhitespace c := by
  apply not_whitespace_of_toLower
  obtain rfl | rfl | h | h := h
  · exact List.forall_mem_nil _
  · exact List.forall_mem_singleton.mpr (by decide)
  · exact h ▸ List.any_eq_false.mp rfl
  · exact h ▸ List.any_eq_false.mp rfl

theorem guardActive_text : guardActive nearest (.text s) ↔ IsSentinel (trim s) ∨
    (∀ c ∈ trim s, isNumeralChar c) ∧ ∀ v, parseF64 nearest (trim s) = some v → v ≤ 0 := by
  generalize ht : trim s = t
  have hs : (t = [] || fold true t = "null".toList || fold true t = "none".toList || t = ['0']) ↔
      IsSentinel t := by
    simp only [IsSentinel, Bool.or_eq_true, decide_eq_true_eq, fold]
    tauto
  simp only [guardActive, archived, releasedTsMarksRecordReleased, ht, Bool.not_eq_true']
  by_cases h : IsSentinel t
  case pos =>
    rw [if_pos (hs.mpr h)]
    exact iff_of_true rfl (.inl h)
  case neg =>
    rw [if_neg (mt hs.mp h), or_iff_right h]
    split
    case isTrue hn =>
      rw [and_iff_right (List.all_eq_true.mp hn)]
      cases parseF64 nearest t <;> simp
    case isFalse hn =>
      simp only [List.all_eq_true] at hn
      simp [hn]

theorem serverActive_text : serverActive nearest pf (.text s) ↔ IsSentinel (trimSpaces s) ∨
    (∃ c ∈ trimSpaces s, c.isDigit) ∧ (∀ c ∈ trimSpaces s, isNumeralChar c) ∧
      castReal nearest (trimSpaces s) ≤ 0 := by
  rw [serverActive, isUnreleased, Bool.or_eq_true, decide_eq_true_eq, mem_sentinels]
  simp only [Bool.and_eq_true, decide_eq_true_eq, List.any_eq_true, List.all_eq_true,
    isNumeralChar, and_assoc]
  refine or_congr_right ⟨And.right, fun h => ⟨?_, h⟩⟩
  obtain ⟨⟨c, hc, _⟩, _⟩ := h
  exact List.length_pos_of_mem hc

end Text

section Numeral

theorem splitSign_suffix : (splitSign s).snd <:+ s := by
  unfold splitSign
  split
  case h_1 s => exact List.suffix_cons ..
  case h_2 s => exact List.suffix_cons ..
  case h_3   => exact List.suffix_rfl

theorem whole_scanFraction {negative : Bool} : (scanFraction negative w s).whole = w := by
  unfold scanFraction
  split <;> rfl

theorem fraction_scanFraction {negative : Bool} : (scanFraction negative w s).fraction = [] ∨
    ∃ l, l <:+ s ∧ (scanFraction negative w s).fraction = l.takeWhile Char.isDigit := by
  unfold scanFraction
  split
  case h_1 l => exact .inr ⟨l, List.suffix_cons .., rfl⟩
  case h_2   => exact .inl rfl

theorem exists_digit (h : (scanNumeral s).hasDigits) : ∃ c ∈ s, c.isDigit := by
  have of_suffix {l : Str} (hl : l <:+ s) (hn : l.takeWhile Char.isDigit ≠ []) :
      ∃ c ∈ s, c.isDigit := by
    have ⟨c, hc⟩ := List.exists_mem_of_ne_nil _ hn
    exact ⟨c, hl.subset ((List.takeWhile_sublist _).subset hc), List.mem_takeWhile_imp hc⟩
  simp only [Numeral.hasDigits, Bool.or_eq_true, decide_eq_true_eq] at h
  obtain h | h := h
  · rw [scanNumeral, whole_scanFraction] at h
    exact of_suffix splitSign_suffix h
  · rw [scanNumeral] at h
    obtain he | ⟨l, hl, he⟩ :=
      @fraction_scanFraction ((splitSign s).snd.dropWhile Char.isDigit) _ (splitSign s).fst
    · exact absurd he h
    · exact of_suffix ((hl.trans (List.dropWhile_suffix _)).trans splitSign_suffix) (he ▸ h)

theorem parseF64_eq_some {v : ℚ} (h : parseF64 nearest s = some v) :
    castReal nearest s = v ∧ ∃ c ∈ s, c.isDigit := by
  have ⟨⟨hd, _⟩, hv⟩ := Option.ite_none_right_eq_some.mp h
  exact ⟨(if_pos hd).trans (Option.some.inj hv), exists_digit hd⟩

theorem parseF64_eq_none_iff : parseF64 nearest s = none ↔ parseF64 id s = none := by
  simp [parseF64]

end Numeral

-- Both sides take a number for a time if it is positive.
theorem serverActive_number (hn : (∃ n, value = .integer n) ∨ ∃ q, value = .real q) :
    serverActive nearest pf value ↔ guardActive nearest value := by
  obtain ⟨n, rfl⟩ | ⟨q, rfl⟩ := hn
  all_goals simp [serverActive, isUnreleased, guardActive, archived, releasedTsMarksRecordReleased]

theorem guardActive_of_serverActive (h : serverActive nearest pf value) :
    guardActive nearest value := by
  match value with
  | .null      => rfl
  | .integer n => exact (serverActive_number (.inl ⟨n, rfl⟩)).mp h
  | .real q    => exact (serverActive_number (.inr ⟨q, rfl⟩)).mp h
  | .blob      => rfl
  | .text s    =>
    rw [guardActive_text]
    obtain h | ⟨_, hn, hv⟩ := serverActive_text.mp h
    · exact .inl (trim_eq_trimSpaces h.not_whitespace ▸ h)
    · rw [trim_eq_trimSpaces fun c hc => isNumeralChar.not_whitespace (hn c hc)]
      exact .inr ⟨hn, fun v hp => (parseF64_eq_some hp).left ▸ hv⟩

theorem guardActive_of_malformed (h : Malformed (trim s)) : guardActive nearest (.text s) := by
  refine guardActive_text.mpr (.inr ⟨h.chars, fun v hv => ?_⟩)
  rw [parseF64_eq_none_iff.mpr h.parse] at hv
  cases hv

theorem guardActive_iff (hs : Spaced value) :
    guardActive nearest value ↔ serverActive nearest pf value ∨ ∃ s, value = .text s ∧
      Malformed (trim s) := by
  constructor
  case mpr =>
    intro h
    obtain h | ⟨s, rfl, h⟩ := h
    · exact guardActive_of_serverActive h
    · exact guardActive_of_malformed h
  case mp =>
    intro h
    match value with
    | .null      => exact .inl rfl
    | .integer n => exact .inl ((serverActive_number (.inl ⟨n, rfl⟩)).mpr h)
    | .real q    => exact .inl ((serverActive_number (.inr ⟨q, rfl⟩)).mpr h)
    | .blob      => exact hs.elim
    | .text s    =>
      have hs : trim s = trimSpaces s := hs
      obtain h | ⟨hn, hv⟩ := guardActive_text.mp h
      · exact .inl (serverActive_text.mpr (.inl (hs ▸ h)))
      · cases hp : parseF64 nearest (trim s)
        case some v =>
          have ⟨hc, hd⟩ := parseF64_eq_some hp
          have hv := hv v hp
          rw [← hc, hs] at hv
          rw [hs] at hd hn
          exact .inl (serverActive_text.mpr (.inr ⟨hd, hn, hv⟩))
        case none =>
          by_cases he : trim s = []
          case pos => exact .inl (serverActive_text.mpr (.inl (hs ▸ he ▸ .inl rfl)))
          case neg => exact .inr ⟨s, rfl, he, hn, parseF64_eq_none_iff.mp hp⟩

-- The guard never ignores what the server holds. The other way around, it keeps malformed numbers,
-- and no others.
theorem guard_keeps_active (nearest : ℚ → ℚ) (pf : Platform) (value : SqlValue) :
    (serverActive nearest pf value → guardActive nearest value) ∧
    (Spaced value →
      (guardActive nearest value ↔ serverActive nearest pf value ∨ ∃ s, value = .text s ∧
        Malformed (trim s))) :=
  ⟨guardActive_of_serverActive, guardActive_iff⟩

def noPlatform : Platform where
  globset         := ⟨fun _ _ => none⟩
  caseInsensitive := false
  castReal        := fun _ => 0

theorem guard_keeps_active_one_two : guardActive id (.text " 0".toList) ∧
    (guardActive id (.text "1-2".toList) ↔ serverActive id noPlatform (.text "1-2".toList) ∨
      ∃ s, SqlValue.text "1-2".toList = .text s ∧ Malformed (trim s)) :=
  ⟨(guard_keeps_active id noPlatform (.text " 0".toList)).left (by decide),
    (guard_keeps_active id noPlatform (.text "1-2".toList)).right (by rfl)⟩

-- The text is not a number, but it begins with one.
theorem not_guardActive_iff_one_two :
    ¬(guardActive id (.text "1-2".toList) ↔ serverActive id noPlatform (.text "1-2".toList)) := by
  have hg : guardActive id (.text "1-2".toList) := by decide +kernel
  have hs : ¬serverActive id noPlatform (.text "1-2".toList) := by decide +kernel
  exact fun h => hs (h.mp hg)

end Guard
