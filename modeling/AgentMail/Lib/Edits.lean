import Mathlib.Order.Bounds.Basic
import Mathlib.Order.MinMax
import Mathlib.Tactic.Common

-- Single edits of a list, and how few of them turn one list into another.

variable {α : Type*}

inductive Edit : List α → List α → Prop
  | insert (l r : List α) (x : α)       : Edit (l ++ r) (l ++ x :: r)
  | delete (l r : List α) (x : α)       : Edit (l ++ x :: r) (l ++ r)
  | substitute (l r : List α) (x y : α) : Edit (l ++ x :: r) (l ++ y :: r)

inductive Edits : Nat → List α → List α → Prop
  | nil (a : List α)                                                      : Edits 0 a a
  | cons {a b c : List α} {n : Nat} (he : Edit a b) (h : Edits n b c) : Edits (n + 1) a c

-- An alignment of two lists at a cost.
inductive Aligned : List α → List α → Nat → Prop
  | nil                                                                     : Aligned [] [] 0
  | insert {a b : List α} {n : Nat} (y : α) (h : Aligned a b n)       : Aligned a (y :: b) (n + 1)
  | delete {a b : List α} {n : Nat} (x : α) (h : Aligned a b n)       : Aligned (x :: a) b (n + 1)
  | keep {a b : List α} {n : Nat} (x : α) (h : Aligned a b n)         : Aligned (x :: a) (x :: b) n
  | substitute {a b : List α} {n : Nat} (x y : α) (h : Aligned a b n) :
      Aligned (x :: a) (y :: b) (n + 1)

-- The fewest edits that turn one list into another.
def EditDistance (a b : List α) (d : Nat) : Prop :=
  IsLeast {n | Edits n a b} d

variable {a b c : List α} {x y : α} {m n d : Nat}

namespace Edit

theorem symm (h : Edit a b) : Edit b a := by
  cases h
  case insert l r x       => exact .delete l r x
  case delete l r x       => exact .insert l r x
  case substitute l r x y => exact .substitute l r y x

theorem cons (x : α) (h : Edit a b) : Edit (x :: a) (x :: b) := by
  cases h
  case insert l r y       => exact .insert (x :: l) r y
  case delete l r y       => exact .delete (x :: l) r y
  case substitute l r y z => exact .substitute (x :: l) r y z

theorem reverse (h : Edit a b) : Edit a.reverse b.reverse := by
  cases h
  case insert l r x       => simpa using Edit.insert r.reverse l.reverse x
  case delete l r x       => simpa using Edit.delete r.reverse l.reverse x
  case substitute l r x y => simpa using Edit.substitute r.reverse l.reverse x y

-- The edit is made in front of the first element, at it, or after it.
theorem cons_right (h : Edit a (x :: b)) :
    a = b ∨ (∃ y, a = y :: x :: b) ∨ (∃ y, a = y :: b) ∨ ∃ a', a = x :: a' ∧ Edit a' b := by
  generalize hc : x :: b = c at h
  cases h
  case insert l r y =>
    cases l
    case nil =>
      obtain ⟨_, rfl⟩ := List.cons.inj hc
      exact .inl rfl
    case cons z l =>
      obtain ⟨rfl, rfl⟩ := List.cons.inj hc
      exact .inr (.inr (.inr ⟨_, rfl, .insert l r y⟩))
  case delete l r y =>
    cases l
    case nil =>
      obtain rfl : x :: b = r := hc
      exact .inr (.inl ⟨y, rfl⟩)
    case cons z l =>
      obtain ⟨rfl, rfl⟩ := List.cons.inj hc
      exact .inr (.inr (.inr ⟨_, rfl, .delete l r y⟩))
  case substitute l r y z =>
    cases l
    case nil =>
      obtain ⟨_, rfl⟩ := List.cons.inj hc
      exact .inr (.inr (.inl ⟨y, rfl⟩))
    case cons z l =>
      obtain ⟨rfl, rfl⟩ := List.cons.inj hc
      exact .inr (.inr (.inr ⟨_, rfl, .substitute l r ..⟩))

theorem nil_right (h : Edit a []) : ∃ x, a = [x] := by
  generalize hc : [] = c at h
  cases h
  case insert l r y       => simp at hc
  case substitute l r y z => simp at hc
  case delete l r y =>
    obtain ⟨rfl, rfl⟩ := List.append_eq_nil_iff.mp hc.symm
    exact ⟨y, rfl⟩

end Edit

namespace Edits

theorem trans (h : Edits m a b) (h' : Edits n b c) : Edits (m + n) a c := by
  induction h
  case nil           => exact (Nat.zero_add n).symm ▸ h'
  case cons he _ hi => exact Nat.succ_add .. ▸ .cons he (hi h')

theorem single (he : Edit a b) : Edits 1 a b :=
  .cons he (.nil b)

theorem symm (h : Edits n a b) : Edits n b a := by
  induction h
  case nil          => exact .nil _
  case cons he _ hi => exact hi.trans (single he.symm)

theorem map {f : List α → List α} (hf : ∀ {a b}, Edit a b → Edit (f a) (f b)) (h : Edits n a b) :
    Edits n (f a) (f b) := by
  induction h
  case nil          => exact .nil _
  case cons he _ hi => exact .cons (hf he) hi

theorem after (x : α) (h : Edits n a b) : Edits n (x :: a) (x :: b) :=
  h.map (.cons x)

theorem reverse_iff : Edits n a.reverse b.reverse ↔ Edits n a b where
  mp h  := by simpa using h.map Edit.reverse
  mpr h := h.map Edit.reverse

end Edits

namespace Aligned

theorem edits (h : Aligned a b n) : Edits n a b := by
  induction h
  case nil                  => exact .nil _
  case insert y h hi        => exact .cons (.insert [] _ y) (hi.after y)
  case delete x h hi        => exact .cons (.delete [] _ x) hi
  case keep x h hi          => exact hi.after x
  case substitute x y h hi  => exact .cons (.substitute [] _ x y) (hi.after y)

theorem refl (a : List α) : Aligned a a 0 := by
  induction a
  case nil         => exact .nil
  case cons x a hi => exact .keep x hi

-- One more edit costs at most one more.
theorem edit (h : Aligned b c n) (he : Edit a b) : ∃ k ≤ n + 1, Aligned a c k := by
  induction h generalizing a
  case nil =>
    obtain ⟨x, rfl⟩ := he.nil_right
    exact ⟨1, le_rfl, .delete x .nil⟩
  case insert y h hi =>
    have ⟨k, hk, hc⟩ := hi he
    exact ⟨k + 1, by omega, .insert y hc⟩
  case delete x h hi =>
    rcases he.cons_right with rfl | ⟨y, rfl⟩ | ⟨y, rfl⟩ | ⟨a', rfl, he'⟩
    · exact ⟨_, by omega, h⟩
    · exact ⟨_, by omega, .delete y (.delete x h)⟩
    · exact ⟨_, by omega, .delete y h⟩
    · have ⟨k, hk, hc⟩ := hi he'
      exact ⟨k + 1, by omega, .delete x hc⟩
  case keep x h hi =>
    rcases he.cons_right with rfl | ⟨y, rfl⟩ | ⟨y, rfl⟩ | ⟨a', rfl, he'⟩
    · exact ⟨_, by omega, .insert x h⟩
    · exact ⟨_, by omega, .delete y (.keep x h)⟩
    · exact ⟨_, by omega, .substitute y x h⟩
    · have ⟨k, hk, hc⟩ := hi he'
      exact ⟨k, hk, .keep x hc⟩
  case substitute x z h hi =>
    rcases he.cons_right with rfl | ⟨y, rfl⟩ | ⟨y, rfl⟩ | ⟨a', rfl, he'⟩
    · exact ⟨_, by omega, .insert z h⟩
    · exact ⟨_, by omega, .delete y (.substitute x z h)⟩
    · exact ⟨_, by omega, .substitute y z h⟩
    · have ⟨k, hk, hc⟩ := hi he'
      exact ⟨k + 1, by omega, .substitute x z hc⟩

end Aligned

theorem Edits.aligned (h : Edits n a b) : ∃ k ≤ n, Aligned a b k := by
  induction h
  case nil => exact ⟨0, le_rfl, .refl _⟩
  case cons he _ hi =>
    have ⟨k, hk, h⟩ := hi
    have ⟨k', hk', h'⟩ := h.edit he
    exact ⟨k', by omega, h'⟩

namespace EditDistance

theorem iff_aligned : EditDistance a b d ↔ Aligned a b d ∧ ∀ n, Aligned a b n → d ≤ n := by
  constructor
  case mp =>
    intro h
    have ⟨k, hk, ha⟩ := Edits.aligned h.left
    have hd : d ≤ k := h.right ha.edits
    obtain rfl := hk.antisymm hd
    exact ⟨ha, fun n hn => h.right hn.edits⟩
  case mpr =>
    rintro ⟨ha, hl⟩
    refine ⟨ha.edits, fun n hn => ?_⟩
    have ⟨k, hk, ha'⟩ := Edits.aligned hn
    exact (hl k ha').trans hk

theorem reverse_iff : EditDistance a.reverse b.reverse d ↔ EditDistance a b d := by
  simp only [EditDistance, Edits.reverse_iff]

theorem symm (h : EditDistance a b d) : EditDistance b a d :=
  ⟨h.left.symm, fun _ hn => h.right hn.symm⟩

theorem refl (a : List α) : EditDistance a a 0 :=
  ⟨.nil a, fun _ _ => Nat.zero_le _⟩

theorem unique (h : EditDistance a b m) (h' : EditDistance a b n) : m = n :=
  IsLeast.unique h h'

theorem triangle (hac : EditDistance a c d) (hab : EditDistance a b m) (hbc : EditDistance b c n) :
    d ≤ m + n :=
  hac.right (hab.left.trans hbc.left)

theorem nil_left (b : List α) : EditDistance [] b b.length := by
  rw [iff_aligned]
  induction b
  case nil => exact ⟨.nil, fun _ _ => Nat.zero_le _⟩
  case cons y b hi =>
    refine ⟨.insert y hi.left, fun n hn => ?_⟩
    cases hn
    case insert n h => exact Nat.succ_le_succ (hi.right n h)

theorem nil_right (a : List α) : EditDistance a [] a.length :=
  (nil_left a).symm

theorem cons_cons [DecidableEq α] {above left diagonal : Nat} (ha : EditDistance a (y :: b) above)
    (hl : EditDistance (x :: a) b left) (hd : EditDistance a b diagonal) :
    EditDistance (x :: a) (y :: b) (min (min (above + 1) (left + 1)) (diagonal + if x = y then
      0 else 1)) := by
  rw [iff_aligned] at *
  constructor
  case left =>
    rcases min_choice (min (above + 1) (left + 1)) (diagonal + if x = y then 0 else 1) with h | h
    · rw [h]
      rcases min_choice (above + 1) (left + 1) with h | h
      · rw [h]
        exact .delete x ha.left
      · rw [h]
        exact .insert y hl.left
    · rw [h]
      split
      case isTrue hxy  => exact hxy ▸ .keep x hd.left
      case isFalse hxy => exact .substitute x y hd.left
  case right =>
    intro n hn
    cases hn
    case insert n h     =>
      exact (min_le_left ..).trans ((min_le_right ..).trans (Nat.succ_le_succ (hl.right n h)))
    case delete n h     =>
      exact (min_le_left ..).trans ((min_le_left ..).trans (Nat.succ_le_succ (ha.right n h)))
    case keep h         => exact (min_le_right ..).trans (by simpa using hd.right n h)
    case substitute n h =>
      exact (min_le_right ..).trans (Nat.add_le_add (hd.right n h) (by split <;> decide))

end EditDistance
