import Mathlib.Data.List.Nodup
import Mathlib.Tactic.Common

-- Tables with a primary key.

structure Table {α κ : Type} (key : α → κ) where
  rows  : List α
  nodup : (rows.map key).Nodup

namespace Table

variable {α κ : Type} {key : α → κ}

def empty : Table key where
  rows  := []
  nodup := .nil

-- `UPDATE .. SET .. WHERE ..`, which does not change the key.
def update (t : Table key) (p : α → Bool) (f : α → α) (hf : ∀ a, key (f a) = key a) :
    Table key where
  rows  := t.rows.map fun a => if p a then f a else a
  nodup := by
    have h : ∀ a ∈ t.rows, key (if p a then f a else a) = key a := by
      intro a _
      split
      case isTrue  => exact hf a
      case isFalse => rfl
    rw [List.map_map]
    exact List.map_congr_left h ▸ t.nodup

-- `DELETE FROM .. WHERE ..`
def delete (t : Table key) (p : α → Bool) : Table key where
  rows  := t.rows.filter (!p ·)
  nodup := (List.filter_sublist.map key).nodup t.nodup

theorem ext {t t' : Table key} (h : t.rows = t'.rows) : t = t' := by
  cases t
  cases h
  rfl

theorem update_eq_self {t : Table key} {p : α → Bool} {f : α → α} {hf : ∀ a, key (f a) = key a}
    (h : ∀ a ∈ t.rows, ¬p a) : t.update p f hf = t := by
  apply ext
  refine (List.map_congr_left fun a ha => ?_).trans t.rows.map_id
  exact if_neg (h a ha)

theorem update_congr {t : Table key} {p q : α → Bool} {f : α → α} {hf : ∀ a, key (f a) = key a}
    (h : ∀ a, p a = q a) : t.update p f hf = t.update q f hf := by
  rw [funext h]

-- An idempotent update does the same in two parts.
theorem update_update {t : Table key} {p q : α → Bool} {f : α → α} {hf : ∀ a, key (f a) = key a}
    (h : ∀ a, f (f a) = f a) :
    (t.update p f hf).update q f hf = t.update (fun a => p a || q a) f hf := by
  apply ext
  simp only [update, List.map_map]
  refine List.map_congr_left fun a _ => ?_
  by_cases hp : p a <;> simp [hp, h]

variable [DecidableEq κ] {t : Table key} {a b : α} {k : κ}

def get? (t : Table key) (k : κ) : Option α :=
  t.rows.find? (key · = k)

theorem get?_eq_none_iff : t.get? k = none ↔ ∀ a ∈ t.rows, key a ≠ k := by
  simp [get?]

theorem get?_eq_some_iff : t.get? k = some a ↔ a ∈ t.rows ∧ key a = k := by
  have of_some {b : α} (h : t.get? k = some b) : b ∈ t.rows ∧ key b = k :=
    ⟨List.mem_of_find?_eq_some h, by simpa using List.find?_some h⟩
  constructor
  case mp => exact of_some
  case mpr =>
    intro ⟨ha, hk⟩
    cases hf : t.get? k
    case none   => exact absurd hk (get?_eq_none_iff.mp hf a ha)
    case some b =>
      have ⟨hb, hk'⟩ := of_some hf
      rw [List.inj_on_of_nodup_map t.nodup hb ha (hk'.trans hk.symm)]

theorem get?_key (h : a ∈ t.rows) : t.get? (key a) = some a :=
  get?_eq_some_iff.mpr ⟨h, rfl⟩

theorem length_filter_le_one (t : Table key) (k : κ) : (t.rows.filter (key · = k)).length ≤ 1 := by
  have h := List.nodup_iff_count_le_one.mp t.nodup k
  rw [List.count, List.countP_map, List.countP_eq_length_filter] at h
  exact h

theorem length_delete (h : t.get? k = some a) :
    (t.delete (key · = k)).rows.length + 1 = t.rows.length := by
  have ⟨ha, hk⟩ := get?_eq_some_iff.mp h
  have hone := t.length_filter_le_one k
  have hmem : a ∈ t.rows.filter (key · = k) := List.mem_filter.mpr ⟨ha, decide_eq_true hk⟩
  have hpos := List.length_pos_of_mem hmem
  have hsum := (List.filter_append_perm (key · = k) t.rows).length_eq
  rw [List.length_append] at hsum
  simp only [delete]
  omega

theorem get?_delete_self : (t.delete (key · = k)).get? k = none := by
  refine get?_eq_none_iff.mpr fun a ha hk => ?_
  simp [delete, hk] at ha

theorem get?_delete_key {q : κ → Bool} : (t.delete (q <| key ·)).get? k = if q k then none
    else t.get? k := by
  have h (a : α) : (!q (key a) && decide (key a = k)) = (!q k && decide (key a = k)) := by
    by_cases hk : key a = k <;> simp [hk]
  rw [get?, get?, delete, List.find?_filter]
  simp only [Bool.decide_and, Bool.decide_eq_true, h]
  split
  case isTrue hq  => simp [hq]
  case isFalse hq => simp [hq]

theorem get?_delete_of_ne {k' : κ} (h : k' ≠ k) : (t.delete (key · = k)).get? k' = t.get? k' := by
  rw [get?, get?, delete, List.find?_filter]
  refine congrArg (t.rows.find? ·) (funext fun a => ?_)
  by_cases hk : key a = k'
  case pos => simp [hk, h]
  case neg => simp [hk]

-- The row of a key and the other rows.
theorem perm_of_get? (h : t.get? k = some a) : t.rows.Perm (a :: (t.delete (key · = k)).rows) := by
  have hone := t.length_filter_le_one k
  have ⟨ha, hk⟩ := get?_eq_some_iff.mp h
  have hmem : a ∈ t.rows.filter (key · = k) := List.mem_filter.mpr ⟨ha, decide_eq_true hk⟩
  have hf : t.rows.filter (key · = k) = [a] := by
    match hf : t.rows.filter (key · = k) with
    | []          => simp [hf] at hmem
    | [b]         => simp_all
    | b :: c :: l => simp [hf] at hone
  have hp := List.filter_append_perm (key · = k) t.rows
  rw [hf] at hp
  exact hp.symm

theorem perm_update {f : α → α} {hf : ∀ a, key (f a) = key a} (h : t.get? k = some a) :
    (t.update (key · = k) f hf).rows.Perm (f a :: (t.delete (key · = k)).rows) := by
  have hk := (get?_eq_some_iff.mp h).right
  have hp := (t.perm_of_get? h).map fun a => if key a = k then f a else a
  have hd : ((t.delete (key · = k)).rows.map fun a => if key a = k then f a
      else a) = (t.delete (key · = k)).rows := by
    refine (List.map_congr_left fun b hb => ?_).trans (List.map_id _)
    exact if_neg (by simpa [delete] using (List.mem_filter.mp hb).right)
  rw [List.map_cons, if_pos hk, hd] at hp
  simpa only [update, decide_eq_true_eq] using hp

def insert (t : Table key) (a : α) (h : t.get? (key a) = none) : Table key where
  rows  := t.rows ++ [a]
  nodup := by
    rw [List.map_append, List.nodup_append]
    refine ⟨t.nodup, List.nodup_singleton _, fun k hk k' hk' he => ?_⟩
    have ⟨b, hb, hkb⟩ := List.mem_map.mp hk
    exact get?_eq_none_iff.mp h b hb (hkb.trans (he.trans (List.mem_singleton.mp hk')))

theorem get?_insert (h : t.get? (key a) = none) :
    (t.insert a h).get? k = if key a = k then some a else t.get? k := by
  have ha : (t.insert a h).get? k = (t.get? k).or (if key a = k then some a else none) := by
    simp [get?, insert, List.find?_append, List.find?_singleton]
  rw [ha]
  split
  case isTrue hk => rw [← hk, h, Option.none_or]
  case isFalse   => exact Option.or_none

-- `INSERT OR IGNORE INTO ..`
def insertOrIgnore (t : Table key) (a : α) : Table key :=
  if h : t.get? (key a) = none then t.insert a h else t

theorem rows_insertOrIgnore (h : t.get? (key a) = none) :
    (t.insertOrIgnore a).rows = t.rows ++ [a] := by
  rw [insertOrIgnore, dif_pos h]
  rfl

theorem get?_insertOrIgnore :
    (t.insertOrIgnore a).get? k = if key a = k then some ((t.get? k).getD a) else t.get? k := by
  unfold insertOrIgnore
  split
  case isTrue h =>
    rw [get?_insert]
    split
    case isTrue hk => rw [← hk, h, Option.getD_none]
    case isFalse   => rfl
  case isFalse h =>
    split
    case isFalse   => rfl
    case isTrue hk =>
      have ⟨b, hb⟩ := Option.ne_none_iff_exists'.mp (hk ▸ h)
      rw [hb, Option.getD_some]

theorem get?_foldl_insertOrIgnore {l : List α} :
    (l.foldl insertOrIgnore t).get? k = (t.get? k).or (l.find? (key · = k)) := by
  induction l generalizing t
  case nil => simp
  case cons a l hi =>
    rw [List.foldl_cons, hi, get?_insertOrIgnore, List.find?_cons]
    by_cases hk : key a = k
    case pos => cases t.get? k <;> simp [hk]
    case neg => simp [hk]

-- `INSERT OR REPLACE INTO ..`
def put (t : Table key) (a : α) : Table key :=
  (t.delete (key · = key a)).insertOrIgnore a

theorem rows_put : (t.put a).rows = (t.delete (key · = key a)).rows ++ [a] :=
  rows_insertOrIgnore get?_delete_self

theorem get?_put : (t.put a).get? k = if key a = k then some a else t.get? k := by
  rw [put, get?_insertOrIgnore]
  split
  case isTrue hk  => rw [← hk, get?_delete_self, Option.getD_none]
  case isFalse hk => exact get?_delete_of_ne (Ne.symm hk)

theorem mem_put : b ∈ (t.put a).rows ↔ b = a ∨ b ∈ t.rows ∧ key b ≠ key a := by
  rw [rows_put, List.mem_append, List.mem_singleton, or_comm]
  simp [delete]

theorem get?_update {p : α → Bool} {f : α → α} (hf : ∀ a, key (f a) = key a) :
    (t.update p f hf).get? k = (t.get? k).map fun a => if p a then f a else a := by
  simp only [get?, update, List.find?_map]
  congr 2
  funext a
  simp only [Function.comp_apply]
  split <;> simp [hf]

-- `entry(key).and_modify(f).or_insert(a)`
def modifyOrInsert (t : Table key) (f : α → α) (hf : ∀ a, key (f a) = key a) (a : α) : Table key :=
  if h : t.get? (key a) = none then t.insert a h else t.update (key · = key a) f hf

theorem get?_modifyOrInsert {f : α → α} (hf : ∀ a, key (f a) = key a) :
    (t.modifyOrInsert f hf a).get? k = if key a = k then some ((t.get? k).elim a f)
      else t.get? k := by
  unfold modifyOrInsert
  split
  case isTrue h =>
    rw [get?_insert]
    split
    case isTrue hk => rw [← hk, h, Option.elim_none]
    case isFalse   => rfl
  case isFalse h =>
    rw [get?_update]
    split
    case isTrue hk =>
      have ⟨b, hb⟩ := Option.ne_none_iff_exists'.mp (hk ▸ h)
      rw [hb, Option.map_some, Option.elim_some,
        if_pos (decide_eq_true ((get?_eq_some_iff.mp hb).right.trans hk.symm))]
    case isFalse hk =>
      cases hb : t.get? k
      case none   => rfl
      case some b =>
        have hne : key b ≠ key a := fun he => hk (he.symm.trans (get?_eq_some_iff.mp hb).right)
        rw [Option.map_some, if_neg (by simpa using hne)]

end Table
