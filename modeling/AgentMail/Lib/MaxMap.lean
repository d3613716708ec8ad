import Mathlib.Order.Lattice
import AgentMail.Lib.Table

-- Maps that keep the largest value for every key.

abbrev MaxMap (κ : Type) : Type :=
  Table (Prod.fst : κ × Int → κ)

namespace MaxMap

variable {κ : Type} [DecidableEq κ] {m : MaxMap κ} {k k' : κ} {v w : Int}

-- `entry(k).and_modify(..).or_insert(v)`
def keep (m : MaxMap κ) (k : κ) (v : Int) : MaxMap κ :=
  (m.insertOrIgnore (k, v)).update (·.1 = k) (fun e => (e.1, max e.2 v)) fun _ => rfl

-- There is a value for the key that is at least the given one.
def AtLeast (m : MaxMap κ) (k : κ) (v : Int) : Prop :=
  ∃ e ∈ m.rows, e.1 = k ∧ v ≤ e.2

theorem atLeast_iff : m.AtLeast k v ↔ ∃ e, m.get? k = some e ∧ v ≤ e.2 := by
  constructor
  case mp =>
    intro ⟨e, he, hk, hv⟩
    exact ⟨e, Table.get?_eq_some_iff.mpr ⟨he, hk⟩, hv⟩
  case mpr =>
    intro ⟨e, he, hv⟩
    have ⟨hm, hk⟩ := Table.get?_eq_some_iff.mp he
    exact ⟨e, hm, hk, hv⟩

theorem get?_keep : (m.keep k v).get? k' =
    if k = k' then some (k', max (((m.get? k').map Prod.snd).getD v) v) else m.get? k' := by
  rw [keep, Table.get?_update, Table.get?_insertOrIgnore]
  split
  case isTrue hk =>
    subst hk
    cases hm : m.get? k
    case none   => simp
    case some e => simp [(Table.get?_eq_some_iff.mp hm).right]
  case isFalse hk =>
    cases hm : m.get? k'
    case none   => rfl
    case some e =>
      have hne : e.1 ≠ k := fun he => hk (he.symm.trans (Table.get?_eq_some_iff.mp hm).right)
      simp [hne]

theorem AtLeast.keep (h : m.AtLeast k v) (k' : κ) (w : Int) : (m.keep k' w).AtLeast k v := by
  have ⟨e, he, hv⟩ := atLeast_iff.mp h
  rw [atLeast_iff, get?_keep]
  split
  case isFalse => exact ⟨e, he, hv⟩
  case isTrue  =>
    refine ⟨_, rfl, ?_⟩
    simp only [he, Option.map_some, Option.getD_some]
    exact Int.le_trans hv (Int.le_max_left ..)

theorem atLeast_keep (m : MaxMap κ) (k : κ) (v : Int) : (m.keep k v).AtLeast k v := by
  rw [atLeast_iff, get?_keep, if_pos rfl]
  exact ⟨_, rfl, Int.le_max_right ..⟩

end MaxMap
