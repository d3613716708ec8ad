import AgentMail.Lib.Search
import Mathlib.Tactic.Common

-- Words in which given segments follow each other, with anything before each of them, up to the
-- end.

variable {α : Type*}

inductive Filled : List (List α) → List α → Prop
  | nil                                                                                        :
      Filled [] []
  | cons (filler segment : List α) {segments : List (List α)} {w : List α} (h : Filled segments w) :
    Filled (segment :: segments) (filler ++ segment ++ w)

-- The words that come of a pattern as something is written in place of each star.
inductive Expands (star : α) : List α → List α → Prop
  | nil                                                                            :
      Expands star [] []
  | char {c : α} {p w : List α} (hc : c ≠ star) (h : Expands star p w) :
      Expands star (c :: p) (c :: w)
  | star (s : List α) {p w : List α} (h : Expands star p w)            :
      Expands star (star :: p) (s ++ w)

variable {star c : α} {segment p w w' : List α} {segments : List (List α)} {i : Nat}

namespace Filled

theorem nil_iff : Filled [] w ↔ w = [] where
  mp h := by
    cases h
    rfl
  mpr h := h ▸ .nil

theorem cons_iff : Filled (segment :: segments) w ↔ ∃ filler w', w = filler ++ segment ++ w' ∧
    Filled segments w' where
  mp h := by
    cases h
    case cons filler w' h => exact ⟨filler, w', rfl, h⟩
  mpr h := by
    obtain ⟨filler, w', rfl, h⟩ := h
    exact .cons filler segment h

theorem singleton_iff : Filled [segment] w ↔ segment <:+ w := by
  simp only [cons_iff, nil_iff]
  constructor
  case mp =>
    rintro ⟨filler, _, rfl, rfl⟩
    exact ⟨filler, by rw [List.append_nil]⟩
  case mpr =>
    rintro ⟨filler, rfl⟩
    exact ⟨filler, [], by rw [List.append_nil], rfl⟩

-- What is put in front of a word belongs to what comes before the first segment.
theorem extend (extra : List α) (hs : segments ≠ []) (h : Filled segments w) :
    Filled segments (extra ++ w) := by
  cases h
  case nil => exact absurd rfl hs
  case cons filler segment segments w' h =>
    rw [← List.append_assoc, ← List.append_assoc]
    exact .cons (extra ++ filler) segment h

theorem nil_cons_iff (hs : segments ≠ []) : Filled ([] :: segments) w ↔ Filled segments w where
  mp h := by
    obtain ⟨filler, w', rfl, hw⟩ := cons_iff.mp h
    rw [List.append_nil]
    exact hw.extend filler hs
  mpr h := .cons [] [] h

variable [DecidableEq α]

-- No word is lost if the first occurrence is taken for the segment: what is skipped by another
-- choice goes to the segments after it.
theorem cons_iff_of_find (hf : Search.find segment w = some i) (hs : segments ≠ []) :
    Filled (segment :: segments) w ↔ Filled segments (w.drop (i + segment.length)) := by
  obtain ⟨hi, hp, hfirst⟩ := Search.find_eq_some_iff.mp hf
  constructor
  case mp =>
    intro h
    obtain ⟨filler, w', rfl, hw⟩ := cons_iff.mp h
    have hle : i ≤ filler.length := by
      by_contra hlt
      refine hfirst filler.length (Nat.lt_of_not_le hlt) ?_
      rw [List.append_assoc, List.drop_left]
      exact List.prefix_append ..
    rw [List.drop_append_of_le_length (by rw [List.length_append]; omega)]
    exact hw.extend _ hs
  case mpr =>
    intro h
    obtain ⟨rest, hr⟩ := hp
    have hrest : w.drop (i + segment.length) = rest := by
      rw [← List.drop_drop, ← hr, List.drop_left]
    rw [← List.take_append_drop i w, ← hr, ← List.append_assoc]
    exact .cons _ segment (hrest ▸ h)

theorem not_cons_of_find (hf : Search.find segment w = none) : ¬Filled (segment :: segments) w := by
  intro h
  obtain ⟨filler, w', rfl, _⟩ := cons_iff.mp h
  refine Search.not_prefix_of_find_eq_none hf filler.length ?_
  rw [List.append_assoc, List.drop_left]
  exact List.prefix_append ..

end Filled

namespace Expands

theorem nil_iff : Expands star [] w ↔ w = [] where
  mp h := by
    cases h
    rfl
  mpr h := by
    rw [h]
    exact .nil

theorem char_iff (hc : c ≠ star) : Expands star (c :: p) w ↔ ∃ w', w = c :: w' ∧
    Expands star p w' where
  mp h := by
    cases h
    case char w' _ h => exact ⟨w', rfl, h⟩
    case star        => exact absurd rfl hc
  mpr h := by
    obtain ⟨w', rfl, h⟩ := h
    exact .char hc h

theorem star_iff : Expands star (star :: p) w ↔ ∃ s w', w = s ++ w' ∧ Expands star p w' where
  mp h := by
    cases h
    case char hc _   => exact absurd rfl hc
    case star s w' h => exact ⟨s, w', rfl, h⟩
  mpr h := by
    obtain ⟨s, w', rfl, h⟩ := h
    exact .star s h

theorem eq_iff (h : star ∉ p) : Expands star p w ↔ w = p := by
  induction p generalizing w
  case nil => exact nil_iff
  case cons c p hi =>
    have ⟨hc, hp⟩ := not_or.mp (List.mem_cons.not.mp h)
    rw [char_iff (Ne.symm hc)]
    simp only [hi hp, exists_eq_right]

variable [DecidableEq α]

-- The first segment is at the beginning, the last one at the end.
theorem iff_of_splitOn (hs : p.splitOn star = segment :: segments) :
    Expands star p w ↔ ∃ w', w = segment ++ w' ∧ Filled segments w' := by
  induction p generalizing segment segments w
  case nil =>
    obtain ⟨rfl, rfl⟩ := List.cons.inj hs
    rw [nil_iff]
    simp [Filled.nil_iff]
  case cons c p hi =>
    have ⟨first, rest, hp⟩ := List.exists_cons_of_ne_nil (List.splitOn_ne_nil star p)
    rw [List.splitOn_cons_eq_if_modifyHead, hp] at hs
    by_cases hc : c = star
    case pos =>
      subst hc
      rw [if_pos (beq_self_eq_true c)] at hs
      obtain ⟨rfl, rfl⟩ := List.cons.inj hs
      simp only [star_iff, hi hp, List.nil_append, exists_eq_left', Filled.cons_iff]
      constructor
      case mp =>
        rintro ⟨filler, _, rfl, w', rfl, h⟩
        exact ⟨filler, w', by rw [List.append_assoc], h⟩
      case mpr =>
        rintro ⟨filler, w', rfl, h⟩
        exact ⟨filler, first ++ w', by rw [List.append_assoc], w', rfl, h⟩
    case neg =>
      rw [if_neg (by simpa using hc)] at hs
      obtain ⟨rfl, rfl⟩ := List.cons.inj hs
      simp only [char_iff hc, hi hp]
      constructor
      case mp =>
        rintro ⟨_, rfl, w', rfl, h⟩
        exact ⟨w', rfl, h⟩
      case mpr =>
        rintro ⟨w', rfl, h⟩
        exact ⟨first ++ w', rfl, w', rfl, h⟩

end Expands
