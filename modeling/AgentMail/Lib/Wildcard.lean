import Mathlib.Data.List.Forall2
import Mathlib.Tactic.Common

-- Patterns over words. An item of a pattern stands for exactly one letter, or for any number of
-- them. Words over characters with `*` and `?` are one instance of this, paths with `**` are
-- another.

namespace Wildcard

variable {σ α : Type*} {accepts : σ → α → Prop} {ov : σ → σ → Bool}

inductive Item (σ : Type*)
  | one (s : σ)
  | many
  deriving DecidableEq

open Item

-- The words of a pattern, where `accepts` gives the letters that an item can stand for.
inductive Spells (accepts : σ → α → Prop) : List (Item σ) → List α → Prop
  | nil : Spells accepts [] []
  | one {s a p w} (h : accepts s a) : Spells accepts p w → Spells accepts (one s :: p) (a :: w)
  | skip {p w} : Spells accepts p w → Spells accepts (many :: p) w
  | take {a p w} : Spells accepts (many :: p) w → Spells accepts (many :: p) (a :: w)

-- The search for a common word of two patterns. It looks at the items only, and relies on `ov` to
-- tell whether two of them can stand for the same letter.
def meets (ov : σ → σ → Bool) : List (Item σ) → List (Item σ) → Bool
  | [], []                   => true
  | many :: l, []            => meets ov l []
  | [], many :: r            => meets ov [] r
  | [], one _ :: _           => false
  | one _ :: _, []           => false
  | many :: l, y :: r        => meets ov l (y :: r) || meets ov (many :: l) r
  | one x :: l, many :: r    => meets ov (one x :: l) r || meets ov l (many :: r)
  | one x :: l, one y :: r   => ov x y && meets ov l r
termination_by l r => l.length + r.length

namespace Spells

-- The items of a pattern may be replaced by others that accept more.
theorem relabel {ι τ : Type*} {accepts' : τ → α → Prop} {f : ι → Item σ} {g : ι → Item τ}
    {l : List ι} {w : List α} (h : Spells accepts (l.map f) w)
    (hm : ∀ i ∈ l, f i = many → g i = many)
    (ho : ∀ i ∈ l, ∀ s, f i = Item.one s → ∃ t, g i = Item.one t ∧
      ∀ a ∈ w, accepts s a → accepts' t a) :
    Spells accepts' (l.map g) w := by
  generalize hp : l.map f = p at h
  induction h generalizing l
  case nil =>
    cases l <;> cases hp
    exact .nil
  case one h _ hi =>
    have ⟨i, l', hl, hs, hl'⟩ := List.map_eq_cons_iff.mp hp
    subst hl
    have ⟨t, ht, ha⟩ := ho i List.mem_cons_self _ hs
    simp only [List.map_cons, ht]
    refine .one (ha _ List.mem_cons_self h) (hi ?_ ?_ hl')
    · exact fun i hi => hm i (List.mem_cons_of_mem _ hi)
    · intro i hi s hs
      have ⟨t, ht, ha⟩ := ho i (List.mem_cons_of_mem _ hi) s hs
      exact ⟨t, ht, fun a hw => ha a (List.mem_cons_of_mem _ hw)⟩
  case skip hi =>
    have ⟨i, l', hl, hs, hl'⟩ := List.map_eq_cons_iff.mp hp
    subst hl
    simp only [List.map_cons, hm i List.mem_cons_self hs]
    refine .skip (hi ?_ ?_ hl')
    · exact fun i hi => hm i (List.mem_cons_of_mem _ hi)
    · exact fun i hi => ho i (List.mem_cons_of_mem _ hi)
  case take hi =>
    have ⟨i, l', hl, hs, _⟩ := List.map_eq_cons_iff.mp hp
    have hi := hi hm (fun i hi s hs => ?_) hp
    · subst hl
      simp only [List.map_cons, hm i List.mem_cons_self hs] at hi ⊢
      exact .take hi
    · have ⟨t, ht, ha⟩ := ho i hi s hs
      exact ⟨t, ht, fun a hw => ha a (List.mem_cons_of_mem _ hw)⟩

theorem mono {accepts' : σ → α → Prop} {p : List (Item σ)} {w : List α} (h : Spells accepts p w)
    (ha : ∀ s, Item.one s ∈ p → ∀ a ∈ w, accepts s a → accepts' s a) : Spells accepts' p w := by
  rw [← List.map_id p] at h ⊢
  refine h.relabel (fun _ _ => id) fun i hi s hs => ⟨s, hs, ha s (hs ▸ hi)⟩

theorem map_iff {β : Type*} {f : β → α} {p : List (Item σ)} {w : List β} :
    Spells accepts p (w.map f) ↔ Spells (fun s b => accepts s (f b)) p w := by
  constructor
  case mp =>
    intro h
    generalize hv : w.map f = v at h
    induction h generalizing w
    case nil =>
      cases w <;> cases hv
      exact .nil
    case one h _ hi =>
      have ⟨b, w', hw, hb, hw'⟩ := List.map_eq_cons_iff.mp hv
      subst hw hb
      exact .one h (hi hw')
    case skip hi => exact .skip (hi hv)
    case take hi =>
      have ⟨b, w', hw, _, hw'⟩ := List.map_eq_cons_iff.mp hv
      subst hw
      exact .take (hi hw')
  case mpr =>
    intro h
    induction h
    case nil        => exact .nil
    case one h _ hi => exact .one h hi
    case skip hi    => exact .skip hi
    case take hi    => exact .take hi

-- Only what the items accept matters about a letter.
theorem congr {p : List (Item σ)} {w w' : List α} (h : Spells accepts p w)
    (hw : List.Forall₂ (fun a b => ∀ s, accepts s a → accepts s b) w w') : Spells accepts p w' := by
  induction h generalizing w'
  case nil =>
    cases hw
    exact .nil
  case one h _ hi =>
    cases hw with | cons ha hw => exact .one (ha _ h) (hi hw)
  case skip hi => exact .skip (hi hw)
  case take hi =>
    cases hw with | cons _ hw => exact .take (hi hw)

theorem many_all (w : List α) : Spells accepts [many] w := by
  induction w
  case nil       => exact .skip .nil
  case cons _ hi => exact .take hi

theorem cons_mono {x : Item σ} {p p' : List (Item σ)} {w : List α} (h : Spells accepts (x :: p) w)
    (hp : ∀ w, Spells accepts p w → Spells accepts p' w) : Spells accepts (x :: p') w := by
  generalize hq : x :: p = q at h
  induction h <;> cases hq
  case one h h' _  => exact .one h (hp _ h')
  case skip h _    => exact .skip (hp _ h)
  case take _ hi   => exact .take (hi rfl)

-- Two `many`s in a row are one.
theorem collapse {p q : List (Item σ)} {w : List α}
    (h : Spells accepts (p ++ many :: many :: q) w) : Spells accepts (p ++ many :: q) w := by
  induction p generalizing w
  case cons x p hi => exact h.cons_mono fun _ => hi
  case nil =>
    generalize hr : [] ++ many :: many :: q = r at h
    induction h <;> cases hr
    case skip h _  => exact h
    case take _ hi => exact .take (hi rfl)

theorem expand {p q : List (Item σ)} {w : List α} (h : Spells accepts (p ++ many :: q) w) :
    Spells accepts (p ++ many :: many :: q) w := by
  induction p generalizing w
  case nil           => exact .skip h
  case cons x p hi => exact h.cons_mono fun _ => hi

-- A pattern that spells the empty word takes any letter.
theorem of_nil {p : List (Item σ)} (h : Spells accepts p ([] : List α)) (hp : p ≠ []) (a : α) :
    Spells accepts p [a] := by
  cases h
  case nil    => exact absurd rfl hp
  case skip h => exact .take (.skip h)

theorem nil_iff {w : List α} : Spells accepts [] w ↔ w = [] := by
  constructor
  case mp  => rintro ⟨⟩; rfl
  case mpr => rintro rfl; exact .nil

theorem many_iff {p : List (Item σ)} {a : α} {w : List α} :
    Spells accepts (many :: p) (a :: w) ↔
      Spells accepts p (a :: w) ∨ Spells accepts (many :: p) w := by
  constructor
  case mp =>
    intro h
    cases h
    case skip h => exact .inl h
    case take h => exact .inr h
  case mpr =>
    intro h
    cases h
    case inl h => exact .skip h
    case inr h => exact .take h

theorem many_nil_iff {p : List (Item σ)} :
    Spells accepts (many :: p) [] ↔ Spells accepts p [] := by
  constructor
  case mp  => rintro ⟨⟩; assumption
  case mpr => exact .skip

theorem one_iff {s : σ} {p : List (Item σ)} {a : α} {w : List α} :
    Spells accepts (Item.one s :: p) (a :: w) ↔ accepts s a ∧ Spells accepts p w := by
  constructor
  case mp  => rintro (_ | ⟨h, h'⟩); exact ⟨h, h'⟩
  case mpr => exact fun ⟨h, h'⟩ => .one h h'

theorem ones_iff {p : List σ} {w : List α} :
    Spells accepts (p.map Item.one) w ↔ List.Forall₂ accepts p w := by
  induction p generalizing w
  case nil => simp [nil_iff, List.forall₂_nil_left_iff]
  case cons s p hi =>
    cases w
    case nil  =>
      simp only [List.map_cons, List.forall₂_nil_right_iff, reduceCtorEq, iff_false]; nofun
    case cons => simp [one_iff, hi]

-- A word in two parts is spelled by a pattern in two parts, where an item of the second one has its
-- letter in the second part of the word.
theorem split {p : List (Item σ)} {u v : List α} (h : Spells accepts p (u ++ v)) :
    ∃ front rest, p = front ++ rest ∧ Spells accepts front u ∧ ∀ s, Item.one s ∈ rest →
      ∃ a ∈ v, accepts s a := by
  have item {p : List (Item σ)} {w : List α} (h : Spells accepts p w) (s : σ)
      (hs : Item.one s ∈ p) : ∃ a ∈ w, accepts s a := by
    induction h
    case nil => cases hs
    case one s' a p w ha _ hi =>
      cases List.mem_cons.mp hs
      case inl he =>
        cases he
        exact ⟨a, List.mem_cons_self, ha⟩
      case inr hs =>
        have ⟨b, hb, ha⟩ := hi hs
        exact ⟨b, List.mem_cons_of_mem _ hb, ha⟩
    case skip hi => exact hi ((List.mem_cons.mp hs).resolve_left nofun)
    case take hi =>
      have ⟨b, hb, ha⟩ := hi hs
      exact ⟨b, List.mem_cons_of_mem _ hb, ha⟩
  generalize hw : u ++ v = w at h
  induction h generalizing u
  case nil =>
    obtain ⟨rfl, rfl⟩ := List.append_eq_nil_iff.mp hw
    exact ⟨[], [], rfl, .nil, nofun⟩
  case one s a p w ha hp hi =>
    cases u
    case nil =>
      obtain rfl := hw
      exact ⟨[], _, rfl, .nil, item (.one ha hp)⟩
    case cons b u =>
      obtain ⟨rfl, rfl⟩ := List.cons.inj hw
      have ⟨front, rest, hf, hu, hr⟩ := hi (u := u) rfl
      exact ⟨.one s :: front, rest, congrArg _ hf, .one ha hu, hr⟩
  case skip p w hp hi =>
    have ⟨front, rest, hf, hu, hr⟩ := hi hw
    exact ⟨many :: front, rest, congrArg _ hf, .skip hu, hr⟩
  case take a p w hp hi =>
    cases u
    case nil =>
      obtain rfl := hw
      exact ⟨[], _, rfl, .nil, item (.take hp)⟩
    case cons b u =>
      obtain ⟨rfl, rfl⟩ := List.cons.inj hw
      have ⟨front, rest, hf, hu, hr⟩ := hi (u := u) rfl
      cases front
      case nil =>
        obtain rfl := nil_iff.mp hu
        have hrest : rest = many :: p := hf.symm
        exact ⟨[many], p, rfl, many_all _, fun s hs => hr s (hrest ▸ List.mem_cons_of_mem _ hs)⟩
      case cons x front =>
        obtain rfl := (List.cons.inj hf).left
        exact ⟨many :: front, rest, hf, .take hu, hr⟩

theorem append {p q : List (Item σ)} {u v : List α} (h : Spells accepts p u)
    (h' : Spells accepts q v) : Spells accepts (p ++ q) (u ++ v) := by
  induction h
  case nil        => exact h'
  case one ha _ hi => exact .one ha hi
  case skip hi    => exact .skip hi
  case take hi    => exact .take hi

-- A pattern whose items all accept a letter spells a word of such letters.
theorem exists_of_items {P : α → Prop} {p : List (Item σ)}
    (h : ∀ s, Item.one s ∈ p → ∃ a, P a ∧ accepts s a) :
    ∃ w, (∀ a ∈ w, P a) ∧ Spells accepts p w := by
  induction p
  case nil => exact ⟨[], nofun, .nil⟩
  case cons x p hi =>
    have ⟨w, hw, hs⟩ := hi fun s hs => h s (List.mem_cons_of_mem _ hs)
    cases x
    case many  => exact ⟨w, hw, .skip hs⟩
    case one s =>
      have ⟨a, hp, ha⟩ := h s List.mem_cons_self
      exact ⟨a :: w, List.forall_mem_cons.mpr ⟨hp, hw⟩, .one ha hs⟩

end Spells

-- No common word is missed. If two `many`s both take a letter then only the word gets shorter, so
-- the induction is over the lengths of all three.
theorem meets_of_common {l r : List (Item σ)} {w : List α}
    (ha : ∀ s s' a, accepts s a → accepts s' a → ov s s')
    (hl : Spells accepts l w) (hr : Spells accepts r w) : meets ov l r := by
  induction hn : l.length + r.length + w.length using Nat.strongRecOn generalizing l r w
  case ind n hi =>
  subst hn
  cases hl
  case nil =>
    cases hr
    case nil     => simp [meets]
    case skip hr => simpa [meets] using hi _ (by simp) .nil hr rfl
  case one s a l w hs hl =>
    cases hr
    case one s' r hs' hr =>
      have h := hi _ (by simp; omega) hl hr rfl
      simp [meets, h, ha s s' a hs hs']
    case skip r hr =>
      have h := hi _ (by simp) (.one hs hl) hr rfl
      simp [meets, h]
    case take r hr =>
      have h := hi _ (by simp; omega) hl hr rfl
      simp [meets, h]
  case skip l hl =>
    have h := hi _ (by simp) hl hr rfl
    cases r
    case nil  => simpa [meets] using h
    case cons => simp [meets, h]
  case take a l w hl =>
    cases hr
    case one s' r _ hr =>
      have h := hi _ (by simp; omega) hl hr rfl
      simp [meets, h]
    case skip r hr =>
      have h := hi _ (by simp) hl.take hr rfl
      simp [meets, h]
    case take r hr => exact hi _ (by simp) hl hr rfl

-- Against a word, the search decides whether the pattern spells it.
theorem meets_ones_iff {p : List (Item σ)} {w : List σ} :
    meets ov p (w.map one) ↔ Spells (fun s a => ov s a) p w := by
  induction p generalizing w
  case nil => cases w <;> simp [meets, Spells.nil_iff]
  case cons x p hi =>
    cases x
    case one s =>
      cases w
      case nil       => simp [meets]; nofun
      case cons a w  => simp [meets, Spells.one_iff, hi]
    case many =>
      induction w
      case nil         => simpa [meets, Spells.many_nil_iff] using hi (w := [])
      case cons a w hw =>
        have h := hi (w := a :: w)
        simp only [List.map_cons] at h
        simp only [meets, List.map_cons, Bool.or_eq_true, h, hw, Spells.many_iff]

-- Two patterns line up if their items can be paired, where a `many` is paired with any number of
-- items.
inductive LineUp (R : σ → σ → Prop) : List (Item σ) → List (Item σ) → Prop
  | nil : LineUp R [] []
  | one {s s' l r} (h : R s s') : LineUp R l r → LineUp R (one s :: l) (one s' :: r)
  | skipLeft {l r} : LineUp R l r → LineUp R (many :: l) r
  | skipRight {l r} : LineUp R l r → LineUp R l (many :: r)
  | takeLeft {y l r} : LineUp R (many :: l) r → LineUp R (many :: l) (y :: r)
  | takeRight {x l r} : LineUp R l (many :: r) → LineUp R (x :: l) (many :: r)

theorem meets_iff_lineUp {l r : List (Item σ)} :
    meets ov l r ↔ LineUp (fun s s' => ov s s') l r := by
  constructor
  case mp =>
    intro h
    fun_induction meets ov l r
    case case1            => exact .nil
    case case2 hi         => exact .skipLeft (hi h)
    case case3 hi         => exact .skipRight (hi h)
    case case4            => cases h
    case case5            => cases h
    case case6 hi₁ hi₂    =>
      cases Bool.or_eq_true_iff.mp h
      case inl h => exact .skipLeft (hi₁ h)
      case inr h => exact .takeLeft (hi₂ h)
    case case7 hi₁ hi₂    =>
      cases Bool.or_eq_true_iff.mp h
      case inl h => exact .skipRight (hi₁ h)
      case inr h => exact .takeRight (hi₂ h)
    case case8 hi         =>
      have ⟨ho, h⟩ := Bool.and_eq_true_iff.mp h
      exact .one ho (hi h)
  case mpr =>
    intro h
    induction h
    case nil        => simp [meets]
    case one h _ hi => simp [meets, h, hi]
    case skipLeft l r _ hi => cases r <;> simp [meets, hi]
    case skipRight l r _ hi =>
      match l with
      | []          => simpa [meets] using hi
      | one _ :: _  => simp [meets, hi]
      | many :: _   => simp [meets, hi]
    case takeLeft hi => simp [meets, hi]
    case takeRight x l r _ hi => cases x <;> simp [meets, hi]

-- A search that succeeds has found a word, if letters are known for the items. Every letter of the
-- word can be one of those.
theorem common_of_meets {P : α → Prop} {l r : List (Item σ)}
    (ho : ∀ s s', one s ∈ l → one s' ∈ r → ov s s' → ∃ a, P a ∧ accepts s a ∧ accepts s' a)
    (hl : ∀ s, one s ∈ l → ∃ a, P a ∧ accepts s a) (hr : ∀ s, one s ∈ r → ∃ a, P a ∧ accepts s a)
    (h : meets ov l r) : ∃ w, (∀ a ∈ w, P a) ∧ Spells accepts l w ∧ Spells accepts r w := by
  replace h := meets_iff_lineUp.mp h
  induction h
  case nil => exact ⟨[], by simp, .nil, .nil⟩
  case one s s' l r h _ hi =>
    have ⟨a, hp, ha, ha'⟩ := ho s s' List.mem_cons_self List.mem_cons_self h
    have ⟨w, hw, h₁, h₂⟩ := hi
      (fun s s' hs hs' => ho s s' (List.mem_cons_of_mem _ hs) (List.mem_cons_of_mem _ hs'))
      (fun s hs => hl s (List.mem_cons_of_mem _ hs)) (fun s hs => hr s (List.mem_cons_of_mem _ hs))
    exact ⟨a :: w, List.forall_mem_cons.mpr ⟨hp, hw⟩, .one ha h₁, .one ha' h₂⟩
  case skipLeft hi =>
    have ⟨w, hw, h₁, h₂⟩ := hi (fun s s' hs => ho s s' (List.mem_cons_of_mem _ hs))
      (fun s hs => hl s (List.mem_cons_of_mem _ hs)) hr
    exact ⟨w, hw, .skip h₁, h₂⟩
  case skipRight hi =>
    have ⟨w, hw, h₁, h₂⟩ := hi (fun s s' hs hs' => ho s s' hs (List.mem_cons_of_mem _ hs')) hl
      (fun s hs => hr s (List.mem_cons_of_mem _ hs))
    exact ⟨w, hw, h₁, .skip h₂⟩
  case takeLeft y l r _ hi =>
    have ⟨w, hw, h₁, h₂⟩ := hi (fun s s' hs hs' => ho s s' hs (List.mem_cons_of_mem _ hs')) hl
      (fun s hs => hr s (List.mem_cons_of_mem _ hs))
    cases y
    case many => exact ⟨w, hw, h₁, .skip h₂⟩
    case one s =>
      have ⟨a, hp, ha⟩ := hr s List.mem_cons_self
      exact ⟨a :: w, List.forall_mem_cons.mpr ⟨hp, hw⟩, .take h₁, .one ha h₂⟩
  case takeRight x l r _ hi =>
    have ⟨w, hw, h₁, h₂⟩ := hi (fun s s' hs => ho s s' (List.mem_cons_of_mem _ hs))
      (fun s hs => hl s (List.mem_cons_of_mem _ hs)) hr
    cases x
    case many => exact ⟨w, hw, .skip h₁, h₂⟩
    case one s =>
      have ⟨a, hp, ha⟩ := hl s List.mem_cons_self
      exact ⟨a :: w, List.forall_mem_cons.mpr ⟨hp, hw⟩, .one ha h₁, .take h₂⟩

theorem meets_comm (hs : ∀ s s', ov s s' = ov s' s) (l r : List (Item σ)) :
    meets ov l r = meets ov r l := by
  fun_induction meets ov l r
  case case6 l y r hi₁ hi₂ =>
    cases y <;> simp [meets, hi₁, hi₂, Bool.or_comm]
  all_goals simp_all [meets, Bool.or_comm]

end Wildcard
