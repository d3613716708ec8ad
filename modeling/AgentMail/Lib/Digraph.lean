import Mathlib.Data.List.Nodup
import Mathlib.Data.List.Perm.Basic
import Mathlib.Data.Set.Image
import Mathlib.Logic.Relation

open Relation (ReflTransGen)

-- The strongly connected components of a relation.

namespace Digraph

variable {α : Type*} {r : α → α → Prop} {a b c : α} {s d : Set α}

def Connected (r : α → α → Prop) (a b : α) : Prop :=
  ReflTransGen r a b ∧ ReflTransGen r b a

-- A set that no step leads out of.
def Closed (r : α → α → Prop) (s : Set α) : Prop :=
  ∀ ⦃a⦄, a ∈ s → ∀ b, r a b → b ∈ s

structure IsComponent (r : α → α → Prop) (s : Set α) : Prop where
  nonempty : s.Nonempty
  mem_iff  : ∀ a ∈ s, ∀ b, b ∈ s ↔ Connected r a b

namespace Connected

theorem refl (r : α → α → Prop) (a : α) : Connected r a a :=
  ⟨.refl, .refl⟩

theorem symm (h : Connected r a b) : Connected r b a :=
  ⟨h.right, h.left⟩

theorem trans (h₁ : Connected r a b) (h₂ : Connected r b c) : Connected r a c :=
  ⟨h₁.left.trans h₂.left, h₂.right.trans h₁.right⟩

-- Connected elements are joined by steps in both directions, unless they are the same.
theorem exists_step (h : Connected r a b) (hn : a ≠ b) : (∃ c, r a c) ∧ ∃ c, r c a := by
  constructor
  case left =>
    cases h.left.cases_head
    case inl he => exact absurd he hn
    case inr he => exact ⟨he.choose, he.choose_spec.left⟩
  case right =>
    cases h.right.cases_tail
    case inl he => exact absurd he hn
    case inr he => exact ⟨he.choose, he.choose_spec.right⟩

end Connected

theorem Closed.mem (h : Closed r s) (ha : a ∈ s) (hr : ReflTransGen r a b) : b ∈ s := by
  induction hr
  case refl          => exact ha
  case tail _ hs hi => exact h hi _ hs

namespace IsComponent

-- Two components that meet are the same.
theorem eq_of_mem {t : Set α} (hs : IsComponent r s) (ht : IsComponent r t) (ha : a ∈ s)
    (ha' : a ∈ t) : s = t := by
  ext b
  rw [hs.mem_iff a ha, ht.mem_iff a ha']

-- What the steps out of a connected set lead to is a closed set that leads nowhere else.
theorem of_closed (hc : ∀ a ∈ s, ∀ b ∈ s, ReflTransGen r a b) (hn : s.Nonempty)
    (hd : Closed r d) (hsd : Closed r (s ∪ d)) (hdis : ∀ a ∈ s, a ∉ d) : IsComponent r s where
  nonempty := hn
  mem_iff a ha b := by
    constructor
    case mp  => exact fun hb => ⟨hc a ha b hb, hc b hb a ha⟩
    case mpr =>
      intro ⟨hab, hba⟩
      cases hsd.mem (Set.mem_union_left d ha) hab
      case inl hb => exact hb
      case inr hb => exact absurd (hd.mem hb hba) (hdis a ha)

end IsComponent

section Map

variable {β : Type*} {q : β → β → Prop} {f : α → β}

-- Steps from the named elements lead to named elements, so paths do.
theorem exists_of_reflTransGen (hf : ∀ a y, q (f a) y → ∃ b, r a b ∧ f b = y) {y : β}
    (h : ReflTransGen q (f a) y) : ∃ b, ReflTransGen r a b ∧ f b = y := by
  induction h
  case refl => exact ⟨a, .refl, rfl⟩
  case tail _ hs hi =>
    have ⟨b, hb, he⟩ := hi
    have ⟨c, hc, he'⟩ := hf b _ (he ▸ hs)
    exact ⟨c, hb.tail hc, he'⟩

variable (hf : Function.Injective f) (hr : ∀ a b, r a b ↔ q (f a) (f b))
  (hq : ∀ a y, q (f a) y → ∃ b, f b = y)
include hf hr hq

theorem reflTransGen_iff : ReflTransGen q (f a) (f b) ↔ ReflTransGen r a b := by
  constructor
  case mpr => exact fun h => h.lift f fun a b => (hr a b).mp
  case mp =>
    intro h
    have hs (a y) (hy : q (f a) y) : ∃ b, r a b ∧ f b = y := by
      have ⟨b, hb⟩ := hq a y hy
      exact ⟨b, (hr a b).mpr (hb ▸ hy), hb⟩
    have ⟨b', hb', he⟩ := exists_of_reflTransGen hs h
    exact hf he ▸ hb'

theorem connected_iff : Connected q (f a) (f b) ↔ Connected r a b :=
  and_congr (reflTransGen_iff hf hr hq) (reflTransGen_iff hf hr hq)

theorem IsComponent.image (hs : IsComponent r s) : IsComponent q (f '' s) where
  nonempty := hs.nonempty.image f
  mem_iff := by
    rintro _ ⟨a, ha, rfl⟩ y
    constructor
    case mp =>
      rintro ⟨b, hb, rfl⟩
      exact (connected_iff hf hr hq).mpr ((hs.mem_iff a ha b).mp hb)
    case mpr =>
      intro h
      have hs' (a y) (hy : q (f a) y) : ∃ b, r a b ∧ f b = y := by
        have ⟨b, hb⟩ := hq a y hy
        exact ⟨b, (hr a b).mpr (hb ▸ hy), hb⟩
      have ⟨b, _, he⟩ := exists_of_reflTransGen hs' h.left
      exact ⟨b, (hs.mem_iff a ha b).mpr ((connected_iff hf hr hq).mp (he ▸ h)), he⟩

end Map

-- The components with at least two elements, each of them once.
structure ListsComponents (r : α → α → Prop) (cycles : List (List α)) : Prop where
  component : ∀ c ∈ cycles, 1 < c.length ∧ c.Nodup ∧ IsComponent r { a | a ∈ c }
  complete  : ∀ a b, a ≠ b → Connected r a b → ∃ c ∈ cycles, a ∈ c
  disjoint  : cycles.Pairwise List.Disjoint

namespace ListsComponents

variable {cycles cycles' : List (List α)}

theorem nodup (h : ListsComponents r cycles) : cycles.Nodup := by
  refine h.disjoint.imp_of_mem fun {c _} hc _ hd he => ?_
  have hpos : 0 < c.length := Nat.zero_lt_of_lt (h.component c hc).left
  have ⟨a, ha⟩ := List.exists_mem_of_length_pos hpos
  exact hd ha (he ▸ ha)

theorem exists_perm (h : ListsComponents r cycles) (h' : ListsComponents r cycles') {c : List α}
    (hc : c ∈ cycles) : ∃ c' ∈ cycles', c.Perm c' := by
  have ⟨hlen, hn, hcomp⟩ := h.component c hc
  have ⟨a, b, hl⟩ : ∃ a b, a ∈ c ∧ b ∈ c ∧ a ≠ b := by
    match c, hlen, hn with
    | a :: b :: _, _, hn => exact ⟨a, b, by simp, by simp, fun he => by simp [he] at hn⟩
  have ⟨ha, hb, hne⟩ := hl
  have ⟨c', hc', ha'⟩ := h'.complete a b hne ((hcomp.mem_iff a ha b).mp hb)
  have ⟨_, hn', hcomp'⟩ := h'.component c' hc'
  have he := hcomp.eq_of_mem hcomp' ha ha'
  refine ⟨c', hc', (List.perm_ext_iff_of_nodup hn hn').mpr fun x => ?_⟩
  exact Set.ext_iff.mp he x

end ListsComponents

end Digraph
