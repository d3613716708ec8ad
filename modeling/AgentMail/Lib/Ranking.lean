import Mathlib.Data.List.Nodup
import Mathlib.Tactic.Common

-- Comparisons, of which some elements are near each other, and the lists that they sort.

open Std (OrientedCmp)

variable {α : Type*} {cmp cmp₁ cmp₂ : α → α → Ordering} {a b c x y z : α} {l l' : List α}

namespace Ranking

-- The comparison orders the elements of a list.
structure Orders (cmp : α → α → Ordering) (l : List α) : Prop where
  swap  : ∀ a ∈ l, ∀ b ∈ l, cmp a b = (cmp b a).swap
  trans : ∀ a ∈ l, ∀ b ∈ l, ∀ c ∈ l, cmp a b = .lt → cmp b c = .lt → cmp a c = .lt

def Separates (cmp : α → α → Ordering) (l : List α) : Prop :=
  ∀ a ∈ l, ∀ b ∈ l, cmp a b = .eq → a = b

def Transitive (cmp : α → α → Ordering) : Prop :=
  ∀ a b c, cmp a b = .lt → cmp b c = .lt → cmp a c = .lt

def Cycle (cmp : α → α → Ordering) (a b c : α) : Prop :=
  cmp a b = .lt ∧ cmp b c = .lt ∧ cmp c a = .lt

def AllNear (cmp : α → α → Ordering) (a b c : α) : Prop :=
  cmp a b = .eq ∧ cmp b c = .eq ∧ cmp c a = .eq

-- The first comparison puts the last element first, though the one between is near to both. The
-- second comparison, which is asked where the first has no answer, puts it last.
def Detour (cmp₁ cmp₂ : α → α → Ordering) (x y z : α) : Prop :=
  cmp₁ z x = .lt ∧ cmp₁ x y = .eq ∧ cmp₁ y z = .eq ∧ cmp₂ x y = .lt ∧ cmp₂ y z = .lt

theorem allNear_rotate (a : α) : AllNear cmp a b c ↔ AllNear cmp c a b :=
  ⟨fun ⟨hab, hbc, hca⟩ => ⟨hca, hab, hbc⟩, fun ⟨hca, hab, hbc⟩ => ⟨hab, hbc, hca⟩⟩

theorem compareLex_eq_lt_iff :
    compareLex cmp₁ cmp₂ a b = .lt ↔ cmp₁ a b = .lt ∨ cmp₁ a b = .eq ∧ cmp₂ a b = .lt :=
  Ordering.then_eq_lt

section Lex

variable [OrientedCmp cmp₁]

-- Two steps by the first comparison lead to a third one.
theorem cycle_compareLex_iff (ht : Transitive cmp₁) : Cycle (compareLex cmp₁ cmp₂) a b c ↔
    AllNear cmp₁ a b c ∧ Cycle cmp₂ a b c ∨
      Detour cmp₁ cmp₂ a b c ∨ Detour cmp₁ cmp₂ b c a ∨ Detour cmp₁ cmp₂ c a b := by
  have two {a b c : α} (hab : cmp₁ a b = .lt) (hbc : cmp₁ b c = .lt) : cmp₁ c a ≠ .lt ∧
      cmp₁ c a ≠ .eq := by
    rw [OrientedCmp.gt_of_lt (ht _ _ _ hab hbc)]
    exact ⟨nofun, nofun⟩
  simp only [Cycle, AllNear, Detour, compareLex_eq_lt_iff]
  constructor
  case mp =>
    intro ⟨hab, hbc, hca⟩
    obtain hab | ⟨hab, hab'⟩ := hab <;> obtain hbc | ⟨hbc, hbc'⟩ :=
      hbc <;> obtain hca | ⟨hca, hca'⟩ := hca
    · exact absurd hca (two hab hbc).left
    · exact absurd hca (two hab hbc).right
    · exact absurd hbc (two hca hab).right
    · exact .inr (.inr (.inl ⟨hab, hbc, hca, hbc', hca'⟩))
    · exact absurd hab (two hbc hca).right
    · exact .inr (.inr (.inr ⟨hbc, hca, hab, hca', hab'⟩))
    · exact .inr (.inl ⟨hca, hab, hbc, hab', hbc'⟩)
    · exact .inl ⟨⟨hab, hbc, hca⟩, hab', hbc', hca'⟩
  case mpr => tauto

end Lex

section Sorting

variable [OrientedCmp cmp]

theorem orders_iff_not_cycle (hs : Separates cmp l) :
    Orders cmp l ↔ ∀ a ∈ l, ∀ b ∈ l, ∀ c ∈ l, ¬Cycle cmp a b c := by
  constructor
  case mp =>
    intro h a ha b hb c hc ⟨hab, hbc, hca⟩
    exact OrientedCmp.not_lt_of_lt (h.trans a ha b hb c hc hab hbc) hca
  case mpr =>
    intro h
    refine ⟨fun _ _ _ _ => OrientedCmp.eq_swap, fun a ha b hb c hc hab hbc => ?_⟩
    cases hac : cmp a c
    case lt => rfl
    case eq => exact absurd hbc (OrientedCmp.not_lt_of_lt (hs a ha c hc hac ▸ hab))
    case gt => exact absurd ⟨hab, hbc, OrientedCmp.lt_of_gt hac⟩ (h a ha b hb c hc)

omit [OrientedCmp cmp] in
theorem Orders.isLE_trans (h : Orders cmp l) (hs : Separates cmp l) (ha : a ∈ l) (hb : b ∈ l)
    (hc : c ∈ l) (hab : (cmp a b).isLE) (hbc : (cmp b c).isLE) : (cmp a c).isLE := by
  rw [Ordering.isLE_iff_eq_lt_or_eq_eq] at hab hbc
  obtain hab | hab := hab
  · obtain hbc | hbc := hbc
    · rw [h.trans a ha b hb c hc hab hbc]
      rfl
    · rw [← hs b hb c hc hbc, hab]
      rfl
  · rw [hs a ha b hb hab, Ordering.isLE_iff_eq_lt_or_eq_eq]
    exact hbc

theorem Orders.pairwise_mergeSort (h : Orders cmp l) (hs : Separates cmp l) :
    (l.mergeSort fun a b => (cmp a b).isLE).Pairwise fun a b => (cmp a b).isLE := by
  let le : { a // a ∈ l } → { a // a ∈ l } → Bool := fun a b => (cmp a.val b.val).isLE
  have hm :=
    @List.map_mergeSort _ _ le (fun a b => (cmp a b).isLE) Subtype.val l.attach fun _ _ _ _ => rfl
  have hp := @List.pairwise_mergeSort _ le (fun a b c => h.isLE_trans hs a.prop b.prop c.prop)
    (fun a b => by
      simp only [le, @OrientedCmp.eq_swap _ cmp _ b.val a.val, Ordering.isLE_swap]
      cases cmp a.val b.val <;> rfl) l.attach
  rw [← List.attach_map_subtype_val l, ← hm, List.pairwise_map]
  exact hp

-- What the sorted list is depends only on its elements.
theorem Orders.mergeSort_eq_of_perm (h : Orders cmp l) (hs : Separates cmp l) (hp : l'.Perm l) :
    (l'.mergeSort fun a b => (cmp a b).isLE) = l.mergeSort fun a b => (cmp a b).isLE := by
  have h' : Orders cmp l' := by
    refine ⟨fun _ _ _ _ => OrientedCmp.eq_swap, fun a ha b hb c hc => ?_⟩
    exact h.trans a (hp.mem_iff.mp ha) b (hp.mem_iff.mp hb) c (hp.mem_iff.mp hc)
  have hs' : Separates cmp l' := fun a ha b hb => hs a (hp.mem_iff.mp ha) b (hp.mem_iff.mp hb)
  refine List.Perm.eq_of_pairwise (fun a b ha hb hab hba => ?_) (h'.pairwise_mergeSort hs')
    (h.pairwise_mergeSort hs)
    ((List.mergeSort_perm ..).trans (hp.trans (List.mergeSort_perm ..).symm))
  have ha := hp.mem_iff.mp (List.mem_mergeSort.mp ha)
  exact hs a ha b (List.mem_mergeSort.mp hb) (OrientedCmp.isLE_antisymm hab hba)

end Sorting

section Cut

variable [Std.TransCmp cmp] {p : α → Bool}

theorem pairwise_mergeSort_of_transCmp : (l.mergeSort fun a b => (cmp a b).isLE).Pairwise fun a b =>
    (cmp a b).isLE := by
  refine @List.pairwise_mergeSort _ (fun a b => (cmp a b).isLE)
    (fun _ _ _ => Std.TransCmp.isLE_trans) (fun a b => ?_) l
  simp only [@OrientedCmp.eq_swap _ cmp _ b a, Ordering.isLE_swap]
  cases cmp a b <;> rfl

-- The elements that come before all others are in front after sorting.
theorem mergeSort_eq_filter_append (hs : Separates cmp l)
    (h : ∀ x ∈ l, p x → ∀ y ∈ l, ¬p y → (cmp x y).isLE) :
    let sorted := l.mergeSort fun a b => (cmp a b).isLE
    sorted = sorted.filter p ++ sorted.filter (!p ·) := by
  intro sorted
  have hm {x : α} : x ∈ sorted ↔ x ∈ l := List.mem_mergeSort
  have hp : sorted.Pairwise fun a b => (cmp a b).isLE := pairwise_mergeSort_of_transCmp
  have hp' : (sorted.filter p ++ sorted.filter (!p ·)).Pairwise fun a b => (cmp a b).isLE := by
    refine List.pairwise_append.mpr ⟨hp.filter p, hp.filter _, fun x hx y hy => ?_⟩
    have ⟨hx, hpx⟩ := List.mem_filter.mp hx
    have ⟨hy, hpy⟩ := List.mem_filter.mp hy
    exact h x (hm.mp hx) hpx y (hm.mp hy) (by simpa using hpy)
  refine List.Perm.eq_of_pairwise (fun a b ha hb hab hba => ?_) hp hp'
    (List.filter_append_perm p sorted).symm
  have hb : b ∈ sorted := (List.filter_append_perm p sorted).mem_iff.mp hb
  exact hs a (hm.mp ha) b (hm.mp hb) (OrientedCmp.isLE_antisymm hab hba)

-- Cut to their number, a sorted list keeps all elements of a kind if and only if they come before
-- all others.
theorem filter_take_perm_iff (hs : Separates cmp l) :
    (((l.mergeSort fun a b => (cmp a b).isLE).take (l.filter p).length).filter p).Perm
      (l.filter p) ↔ ∀ x ∈ l, p x → ∀ y ∈ l, ¬p y → (cmp x y).isLE := by
  have hf := (List.mergeSort_perm l fun a b => (cmp a b).isLE).filter p
  constructor
  case mp =>
    intro h x hx hpx y hy hpy
    generalize hsorted : (l.mergeSort fun a b => (cmp a b).isLE) = sorted at h hf
    have hp : sorted.Pairwise fun a b => (cmp a b).isLE := hsorted ▸ pairwise_mergeSort_of_transCmp
    rw [← List.take_append_drop (l.filter p).length sorted] at hp
    have hall : ∀ z ∈ sorted.take (l.filter p).length, p z := by
      have hle : (sorted.take (l.filter p).length).length ≤ (l.filter p).length :=
        List.length_take_le ..
      exact List.filter_eq_self.mp
        (List.filter_sublist.eq_of_length_le (Nat.le_trans hle (Nat.le_of_eq h.length_eq.symm)))
    have hx : x ∈ sorted.take (l.filter p).length :=
      (List.mem_filter.mp (h.mem_iff.mpr (List.mem_filter.mpr ⟨hx, hpx⟩))).left
    have hy : y ∈ sorted.take (l.filter p).length ++ sorted.drop (l.filter p).length := by
      rw [List.take_append_drop, ← hsorted]
      exact List.mem_mergeSort.mpr hy
    obtain hy | hy := List.mem_append.mp hy
    · exact absurd (hall y hy) hpy
    · exact (List.pairwise_append.mp hp).right.right x hx y hy
  case mpr =>
    intro h
    rw [mergeSort_eq_filter_append hs h, ← hf.length_eq, List.take_left', List.filter_filter]
    · simpa using hf
    · rfl

end Cut

end Ranking
