import AgentMail.Lib.Ascending
import Mathlib.Data.List.Flatten
import Mathlib.Data.List.Nodup
import Mathlib.Data.List.Perm.Basic
import Mathlib.Order.Basic
import Mathlib.Order.Lattice
import Mathlib.Tactic.Common

-- Ordered maps from keys to nonempty lists of values, with lookups and range scans. What is stored
-- in a map is described by the list of its items, that is of the pairs of a key and one of its
-- values.

open List (Perm)

structure MultiMap (κ α : Type*) [LinearOrder κ] where
  entries : List (κ × List α)
  sorted  : entries.Pairwise fun e e' => e.1 < e'.1

namespace MultiMap

variable {κ α : Type*} [LinearOrder κ]

def empty : MultiMap κ α where
  entries := []
  sorted  := .nil

-- `entry(key).or_default().push(value)`
def pushEntry (key : κ) (value : α) : List (κ × List α) → List (κ × List α)
  | []                => [(key, [value])]
  | (k, values) :: es =>
    if key < k then
      (key, [value]) :: (k, values) :: es
    else if key = k then
      (k, values ++ [value]) :: es
    else
      (k, values) :: pushEntry key value es

theorem mem_pushEntry {key : κ} {value : α} {es : List (κ × List α)} {e : κ × List α}
    (h : e ∈ pushEntry key value es) : e.1 = key ∨ ∃ e' ∈ es, e'.1 = e.1 := by
  fun_induction pushEntry key value es
  case case1 => simp_all
  case case2 =>
    cases List.mem_cons.mp h
    case inl h => exact .inl (by rw [h])
    case inr h => exact .inr ⟨e, h, rfl⟩
  case case3 =>
    cases List.mem_cons.mp h
    case inl h => exact .inl (by rw [h])
    case inr h => exact .inr ⟨e, List.mem_cons_of_mem _ h, rfl⟩
  case case4 k values es _ _ hi =>
    cases List.mem_cons.mp h
    case inl h => exact .inr ⟨e, h ▸ List.mem_cons_self, rfl⟩
    case inr h =>
      cases hi h
      case inl h => exact .inl h
      case inr h =>
        have ⟨e', he', hk⟩ := h
        exact .inr ⟨e', List.mem_cons_of_mem _ he', hk⟩

theorem sorted_pushEntry {key : κ} {value : α} {es : List (κ × List α)}
    (h : es.Pairwise fun e e' => e.1 < e'.1) :
    (pushEntry key value es).Pairwise fun e e' => e.1 < e'.1 := by
  fun_induction pushEntry key value es
  case case1 => exact List.pairwise_singleton ..
  case case2 k values es hk =>
    refine List.pairwise_cons.mpr ⟨fun e he => ?_, h⟩
    cases List.mem_cons.mp he
    case inl he => exact he ▸ hk
    case inr he => exact hk.trans ((List.pairwise_cons.mp h).left e he)
  case case3 => exact List.pairwise_cons.mpr (List.pairwise_cons.mp h)
  case case4 k values es hk hk' hi =>
    have ⟨hl, ht⟩ := List.pairwise_cons.mp h
    refine List.pairwise_cons.mpr ⟨fun e he => ?_, hi ht⟩
    cases mem_pushEntry he
    case inl he => exact he ▸ lt_of_le_of_ne (le_of_not_gt hk) (Ne.symm hk')
    case inr he =>
      have ⟨e', he', hk⟩ := he
      exact hk ▸ hl e' he'

def push (m : MultiMap κ α) (key : κ) (value : α) : MultiMap κ α where
  entries := pushEntry key value m.entries
  sorted  := sorted_pushEntry m.sorted

-- A missing key has no values.
def get (m : MultiMap κ α) (key : κ) : List α :=
  (m.entries.lookup key).getD []

def values (m : MultiMap κ α) : List α :=
  m.entries.flatMap Prod.snd

-- The values of the keys from `start` on, up to the first key that is not in the range any more.
def scan (m : MultiMap κ α) (start : κ) (inRange : κ → Bool) : List α :=
  m.entries.dropWhile (·.1 < start) |>.takeWhile (inRange ·.1) |>.flatMap Prod.snd

def items (m : MultiMap κ α) : List (κ × α) :=
  m.entries.flatMap fun e => e.2.map (e.1, ·)

theorem items_push (m : MultiMap κ α) (key : κ) (value : α) :
    Perm (m.push key value).items ((key, value) :: m.items) := by
  have h (es : List (κ × List α)) :
      Perm ((pushEntry key value es).flatMap fun e => e.2.map (e.1, ·))
        ((key, value) :: es.flatMap fun e => e.2.map (e.1, ·)) := by
    fun_induction pushEntry key value es
    case case1 => simp
    case case2 => simp
    case case3 =>
      simp only [List.flatMap_cons, List.map_append, List.map_cons, List.map_nil,
        List.append_assoc, List.cons_append, List.nil_append]
      exact List.perm_middle
    case case4 k values es _ _ hi =>
      simp only [List.flatMap_cons]
      exact (hi.append_left _).trans List.perm_middle
  exact h m.entries

theorem values_eq (m : MultiMap κ α) : m.values = m.items.map Prod.snd := by
  simp [values, items, List.map_flatMap, Function.comp_def]

omit [LinearOrder κ] in
-- The key of an entry is the key of all of its items.
theorem filter_items {p : κ → Bool} (es : List (κ × List α)) :
    (es.flatMap fun e => e.2.map (e.1, ·)).filter (p ·.1) =
      (es.filter (p ·.1)).flatMap fun e => e.2.map (e.1, ·) := by
  induction es
  case nil => rfl
  case cons e es hi =>
    cases hp : p e.1
    case true  => simp [hp, hi, List.filter_map, Function.comp_def]
    case false => simp [hp, hi, List.filter_map, Function.comp_def]

theorem filter_items_map (m : MultiMap κ α) (p : κ → Bool) :
    (m.items.filter (p ·.1)).map Prod.snd = (m.entries.filter (p ·.1)).flatMap Prod.snd := by
  rw [items, filter_items]
  simp [List.map_flatMap, Function.comp_def]

theorem lookup_cons {β : Type*} {e : κ × β} {es : List (κ × β)} {key : κ} :
    (e :: es).lookup key = if key = e.1 then some e.2 else es.lookup key := by
  rw [← Prod.eta e, List.lookup_cons]
  cases hk : key == e.1
  case true  => rw [if_pos (eq_of_beq hk)]
  case false => rw [if_neg (ne_of_beq_false hk)]

theorem get_eq (m : MultiMap κ α) (key : κ) :
    m.get key = (m.items.filter (·.1 = key)).map Prod.snd := by
  have h {es : List (κ × List α)} (hs : es.Pairwise fun e e' => e.1 < e'.1) :
      (es.lookup key).getD [] = (es.filter (·.1 = key)).flatMap Prod.snd := by
    induction es
    case nil => rfl
    case cons e es hi =>
      have ⟨hl, hs⟩ := List.pairwise_cons.mp hs
      by_cases hk : key = e.1
      case neg =>
        simpa [lookup_cons, hk, Ne.symm hk] using hi hs
      case pos =>
        have hn : es.filter (·.1 = key) = [] := by
          refine List.filter_eq_nil_iff.mpr fun e' he' => ?_
          simpa [hk] using (hl e' he').ne'
        simp [lookup_cons, ← hk, hn]
  exact (h m.sorted).trans (m.filter_items_map (· = key)).symm

-- The range scan finds all keys in the range, if the range starts at `start` and has no gaps.
theorem scan_eq (m : MultiMap κ α) {start : κ} {inRange : κ → Bool}
    (hl : ∀ k, inRange k → start ≤ k)
    (hc : ∀ k k', start ≤ k → k ≤ k' → inRange k' → inRange k) :
    m.scan start inRange = (m.items.filter (inRange ·.1)).map Prod.snd := by
  have take {es : List (κ × List α)} (hs : es.Pairwise fun e e' => e.1 < e'.1)
      (hm : ∀ e ∈ es, start ≤ e.1) : es.takeWhile (inRange ·.1) = es.filter (inRange ·.1) := by
    induction es
    case nil => rfl
    case cons e es hi =>
      have ⟨hlt, hs⟩ := List.pairwise_cons.mp hs
      cases he : inRange e.1
      case true => simp [he, hi hs fun e' h' => hm e' (List.mem_cons_of_mem _ h')]
      case false =>
        have hn : es.filter (inRange ·.1) = [] := by
          refine List.filter_eq_nil_iff.mpr fun e' he' h => ?_
          have := hc _ _ (hm e List.mem_cons_self) (hlt e' he').le h
          simp [he] at this
        simp [he, hn]
  have drop {es : List (κ × List α)} (hs : es.Pairwise fun e e' => e.1 < e'.1) :
      (es.dropWhile (·.1 < start)).takeWhile (inRange ·.1) = es.filter (inRange ·.1) := by
    induction es
    case nil => rfl
    case cons e es hi =>
      have ⟨hlt, hs'⟩ := List.pairwise_cons.mp hs
      by_cases he : e.1 < start
      case pos =>
        have hn : inRange e.1 = false := by
          by_contra h
          exact absurd (hl e.1 (by simpa using h)) (not_le_of_gt he)
        simpa [he, hn] using hi hs'
      case neg =>
        have he : start ≤ e.1 := le_of_not_gt he
        rw [List.dropWhile_cons_of_neg (by simpa using he)]
        refine take hs fun e' h' => ?_
        cases List.mem_cons.mp h'
        case inl h' => exact h' ▸ he
        case inr h' => exact he.trans (hlt e' h').le
  rw [scan, drop m.sorted, filter_items_map]

-- The map stores the elements of `l` under the keys that `f` gives them.
def Indexes (m : MultiMap κ α) (f : α → κ) (l : List α) : Prop :=
  Perm m.items (l.map fun a => (f a, a))

namespace Indexes

variable {m : MultiMap κ α} {f : α → κ} {l : List α}

theorem empty : Indexes .empty f [] :=
  .refl _

theorem push (h : m.Indexes f l) (a : α) : (m.push (f a) a).Indexes f (l ++ [a]) := by
  refine (m.items_push _ _).trans ?_
  rw [List.map_append]
  exact (h.cons _).trans (List.perm_append_singleton ..).symm

theorem filter (h : m.Indexes f l) (p : κ → Bool) :
    Perm ((m.items.filter (p ·.1)).map Prod.snd) (l.filter (p <| f ·)) := by
  have h := (List.Perm.filter (p ·.1) h).map Prod.snd
  rwa [List.filter_map, List.map_map, show Prod.snd ∘ (fun a => (f a, a)) = id from rfl,
    List.map_id] at h

theorem get (h : m.Indexes f l) (k : κ) : Perm (m.get k) (l.filter (f · = k)) :=
  m.get_eq k ▸ h.filter (· = k)

theorem values (h : m.Indexes f l) : Perm m.values l := by
  have h := h.map Prod.snd
  rw [List.map_map, show Prod.snd ∘ (fun a => (f a, a)) = id from rfl, List.map_id] at h
  exact m.values_eq ▸ h

theorem scan (h : m.Indexes f l) {start : κ} {inRange : κ → Bool}
    (hl : ∀ k, inRange k → start ≤ k)
    (hc : ∀ k k', start ≤ k → k ≤ k' → inRange k' → inRange k) :
    Perm (m.scan start inRange) (l.filter (inRange <| f ·)) :=
  m.scan_eq hl hc ▸ h.filter inRange

end Indexes

-- Changes of the values of one key.

def get? (m : MultiMap κ α) (key : κ) : Option (List α) :=
  m.entries.lookup key

-- `get_mut(key)`, which does nothing if the key is missing
def modify (m : MultiMap κ α) (key : κ) (f : List α → List α) : MultiMap κ α where
  entries := m.entries.map fun e => if e.1 = key then (e.1, f e.2) else e
  sorted  := by
    refine List.pairwise_map.mpr (m.sorted.imp fun {e e'} h => ?_)
    split <;> split <;> exact h

-- `remove(key)`
def erase (m : MultiMap κ α) (key : κ) : MultiMap κ α where
  entries := m.entries.filter (·.1 ≠ key)
  sorted  := m.sorted.filter _

def dropIfEmpty (m : MultiMap κ α) (key : κ) : MultiMap κ α :=
  match m.get? key with
  | some [] => m.erase key
  | _       => m

-- No key without a value.
def NoEmpty (m : MultiMap κ α) : Prop :=
  ∀ e ∈ m.entries, e.2 ≠ []

section Keys

variable {m : MultiMap κ α} {key k : κ} {values : List α} {a : α}

theorem get?_eq_some_iff : m.get? key = some values ↔ (key, values) ∈ m.entries := by
  have h {es : List (κ × List α)} (hs : es.Pairwise fun e e' => e.1 < e'.1) :
      es.lookup key = some values ↔ (key, values) ∈ es := by
    induction es
    case nil => simp
    case cons e es hi =>
      have ⟨hl, hs⟩ := List.pairwise_cons.mp hs
      by_cases hk : key = e.1
      case pos =>
        have hn : (e.1, values) ∉ es := fun h => (hl _ h).ne rfl
        simp [lookup_cons, hk, hn, Prod.ext_iff, eq_comm]
      case neg =>
        simp [lookup_cons, hi hs, Prod.ext_iff, hk]
  exact h m.sorted

theorem mem_items_iff : (k, a) ∈ m.items ↔ ∃ values, m.get? k = some values ∧ a ∈ values := by
  simp only [items, List.mem_flatMap, List.mem_map, Prod.mk.injEq, get?_eq_some_iff]
  constructor
  case mp =>
    intro ⟨e, he, b, hb, hk, hba⟩
    exact ⟨e.2, hk ▸ he, hba ▸ hb⟩
  case mpr =>
    intro ⟨values, hv, ha⟩
    exact ⟨(k, values), hv, a, ha, rfl, rfl⟩

theorem modify_congr {f g : List α → List α}
    (h : ∀ values, m.get? key = some values → f values = g values) :
    m.modify key f = m.modify key g := by
  have he : (m.entries.map fun e => if e.1 = key then (e.1, f e.2) else e) =
      m.entries.map fun e => if e.1 = key then (e.1, g e.2) else e := by
    refine List.map_congr_left fun e he => ?_
    split
    case isFalse   => rfl
    case isTrue hk => rw [h e.2 (get?_eq_some_iff.mpr (hk ▸ he))]
  simp only [modify, he]

theorem items_modify_filter {p : α → Bool} :
    (m.modify key (·.filter p)).items = m.items.filter fun i => i.1 ≠ key || p i.2 := by
  have h (es : List (κ × List α)) :
      (es.map fun e => if e.1 = key then (e.1, e.2.filter p)
        else e).flatMap (fun e => e.2.map (e.1, ·)) =
        (es.flatMap fun e => e.2.map (e.1, ·)).filter fun i => i.1 ≠ key || p i.2 := by
    induction es
    case nil => rfl
    case cons e es hi =>
      rw [List.map_cons, List.flatMap_cons, List.flatMap_cons, List.filter_append, hi]
      congr 1
      by_cases hk : e.1 = key <;> simp [hk, List.filter_map, Function.comp_def]
  exact h m.entries

theorem items_erase (h : m.get? key = some []) : (m.erase key).items = m.items := by
  have hk : ∀ e ∈ m.entries, e.1 = key → e.2 = [] := by
    intro e he hk
    have he := get?_eq_some_iff.mpr (show (key, e.2) ∈ m.entries from hk ▸ he)
    exact Option.some.inj (he.symm.trans h)
  have h (es : List (κ × List α)) (hk : ∀ e ∈ es, e.1 = key → e.2 = []) :
      (es.filter (·.1 ≠ key)).flatMap (fun e => e.2.map (e.1, ·)) = es.flatMap fun e =>
        e.2.map (e.1, ·) := by
    induction es
    case nil => rfl
    case cons e es hi =>
      have ⟨he, hes⟩ := List.forall_mem_cons.mp hk
      by_cases hke : e.1 = key
      case pos => simpa [hke, he hke] using hi hes
      case neg => simpa [hke] using hi hes
  exact h m.entries hk

theorem nodup_of_get? (h : m.items.Nodup) (hk : m.get? key = some values) : values.Nodup := by
  have he := get?_eq_some_iff.mp hk
  have hs : (values.map (key, ·)).Sublist m.items := by
    rw [items, List.flatMap]
    exact List.sublist_flatten_of_mem (List.mem_map.mpr ⟨_, he, rfl⟩)
  exact List.Nodup.of_map _ (hs.nodup h)

-- The first keys of the map are those that are small enough.
theorem takeWhile_entries {p : κ → Bool} (hp : ∀ k k', k ≤ k' → p k' → p k) :
    m.entries.takeWhile (p ·.1) = m.entries.filter (p ·.1) :=
  List.takeWhile_eq_filter <| m.sorted.imp fun hlt h => hp _ _ hlt.le h

theorem items_dropIfEmpty : (m.dropIfEmpty key).items = m.items := by
  unfold dropIfEmpty
  split
  case h_1 h => exact items_erase h
  case h_2   => rfl

theorem NoEmpty.dropIfEmpty_modify (hm : m.NoEmpty) {f : List α → List α} :
    ((m.modify key f).dropIfEmpty key).NoEmpty := by
  have hne : ∀ e ∈ (m.modify key f).entries, e.1 ≠ key → e.2 ≠ [] := by
    intro e he hk
    have ⟨e', he', h⟩ := List.mem_map.mp he
    split at h
    case isTrue hk' => exact absurd (h ▸ hk') hk
    case isFalse    => exact h ▸ hm e' he'
  intro e he
  unfold dropIfEmpty at he
  split at he
  case h_1 =>
    have ⟨he, hk⟩ := List.mem_filter.mp he
    exact hne e he (of_decide_eq_true hk)
  case h_2 h =>
    by_cases hk : e.1 = key
    case neg => exact hne e he hk
    case pos =>
      intro hnil
      have hkv : e = (key, []) := Prod.ext hk hnil
      exact h (get?_eq_some_iff.mpr (hkv ▸ he))

theorem NoEmpty.push (hm : m.NoEmpty) (key : κ) (a : α) : (m.push key a).NoEmpty := by
  have h {es : List (κ × List α)} (h : ∀ e ∈ es, e.2 ≠ []) : ∀ e ∈ pushEntry key a es,
      e.2 ≠ [] := by
    fun_induction pushEntry key a es
    case case1 => simp
    case case2 => exact List.forall_mem_cons.mpr ⟨by simp, h⟩
    case case3 => exact List.forall_mem_cons.mpr ⟨by simp, (List.forall_mem_cons.mp h).right⟩
    case case4 hi =>
      have ⟨he, hes⟩ := List.forall_mem_cons.mp h
      exact List.forall_mem_cons.mpr ⟨he, hi hes⟩
  exact h hm

theorem get_push : (m.push key a).get k = m.get k ++ if k = key then [a] else [] := by
  have h {es : List (κ × List α)} (hs : es.Pairwise fun e e' => e.1 < e'.1) :
      ((pushEntry key a es).lookup k).getD [] = (es.lookup k).getD [] ++ if k = key then [a]
        else [] := by
    fun_induction pushEntry key a es
    case case1 =>
      cases hk : k == key
      case true  => simp [eq_of_beq hk]
      case false => simp [List.lookup_cons, hk, ne_of_beq_false hk]
    case case2 k' values es hlt =>
      by_cases hk : k = key
      case neg => simp [List.lookup_cons, hk, beq_eq_false_iff_ne.mpr hk]
      case pos =>
        have hn : ((k', values) :: es).lookup key = none := by
          refine List.lookup_eq_none_iff.mpr fun e he => ?_
          cases List.mem_cons.mp he
          case inl he => simpa [he] using hlt.ne
          case inr he => simpa using (hlt.trans ((List.pairwise_cons.mp hs).left e he)).ne
        simp [hk, hn]
    case case3 values es _ =>
      cases hk : k == key
      case true  => simp [eq_of_beq hk]
      case false => simp [List.lookup_cons, hk, ne_of_beq_false hk]
    case case4 k' values es _ hne hi =>
      by_cases hk : k = k'
      case pos => simp [hk, Ne.symm hne]
      case neg =>
        simpa [List.lookup_cons,
          beq_eq_false_iff_ne.mpr hk] using hi (List.pairwise_cons.mp hs).right
  exact h m.sorted

theorem NoEmpty.mem_entries_iff (hm : m.NoEmpty) : (key, values) ∈ m.entries ↔ values = m.get key ∧
    values ≠ [] := by
  rw [← get?_eq_some_iff, get, ← get?]
  constructor
  case mp =>
    intro h
    exact ⟨by simp [h], hm _ (get?_eq_some_iff.mp h)⟩
  case mpr =>
    intro ⟨h, hn⟩
    cases hk : m.get? key
    case none => exact absurd (by simpa [hk] using h) hn
    case some => simpa [hk, eq_comm] using h

end Keys

-- The map stores what `g` gives for the elements of `l` under the keys that `f` gives them.
def Lists {β : Type*} (m : MultiMap κ α) (f : β → κ) (g : β → α) (l : List β) : Prop :=
  Perm m.items (l.map fun b => (f b, g b))

section Lists

variable {β : Type*} {m : MultiMap κ α} {f : β → κ} {g : β → α} {l l' : List β} {key : κ}
  {values : List α} {a : α}

theorem Lists.mem_iff (h : m.Lists f g l) (hk : m.get? key = some values) :
    a ∈ values ↔ ∃ b ∈ l, g b = a ∧ f b = key := by
  have hm := @Perm.mem_iff _ (key, a) _ _ h
  rw [mem_items_iff, List.mem_map] at hm
  simp only [hk, Option.some.injEq, exists_eq_left', Prod.mk.injEq] at hm
  rw [hm]
  exact exists_congr fun b => and_congr_right fun _ => and_comm

theorem Lists.exists_get? {b : β} (h : m.Lists f g l) (hb : b ∈ l) :
    ∃ values, m.get? (f b) = some values ∧ g b ∈ values :=
  mem_items_iff.mp ((Perm.mem_iff h).mpr (List.mem_map_of_mem hb))

theorem Lists.nodup (h : m.Lists f g l) (hn : (l.map g).Nodup) : m.items.Nodup := by
  refine (Perm.nodup_iff h).mpr (List.Nodup.of_map Prod.snd ?_)
  rw [List.map_map]
  exact hn

theorem Lists.push (h : m.Lists f g l) (b : β) : (m.push (f b) (g b)).Lists f g (l ++ [b]) := by
  refine (m.items_push _ _).trans ?_
  rw [List.map_append]
  exact (h.cons _).trans (List.perm_append_singleton ..).symm

-- What is stored for one element is taken out from under its key.
theorem Lists.take [DecidableEq α] {b : β} (h : m.Lists f g l) (hn : (l.map g).Nodup) (hb : b ∈ l) :
    (m.modify (f b) (·.filter (· ≠ g b))).Lists f g (l.filter (g · ≠ g b)) := by
  rw [Lists, items_modify_filter]
  refine (List.Perm.filter _ h).trans ?_
  rw [List.filter_map]
  refine .of_eq (congrArg _ (List.filter_congr fun b' hb' => ?_))
  by_cases hg : g b' = g b
  case pos =>
    obtain rfl := List.inj_on_of_nodup_map hn hb' hb hg
    simp
  case neg => simp [hg]

theorem lists_dropIfEmpty_iff : (m.dropIfEmpty key).Lists f g l ↔ m.Lists f g l := by
  rw [Lists, items_dropIfEmpty, Lists]

end Lists

-- Lookups of different keys are lookups of all of them at once.

omit [LinearOrder κ] in
theorem perm_filter_or {l : List α} {p q : α → Bool} (h : ∀ a ∈ l, p a → q a → False) :
    Perm (l.filter p ++ l.filter q) (l.filter fun a => p a || q a) := by
  induction l
  case nil => exact .refl _
  case cons a l hi =>
    have hi := hi fun a ha => h a (List.mem_cons_of_mem _ ha)
    have ha := h a List.mem_cons_self
    cases hp : p a <;> cases hq : q a
    case false.false => simpa [hp, hq] using hi
    case true.false  => simpa [hp, hq] using hi.cons a
    case false.true  => simpa [hp, hq] using List.perm_middle.trans (hi.cons a)
    case true.true   => exact absurd (ha hp hq) id

theorem perm_flatMap_filter {l : List α} {f : α → κ} {ks : List κ} (h : ks.Nodup) :
    Perm (ks.flatMap fun k => l.filter (f · = k)) (l.filter (f · ∈ ks)) := by
  induction ks
  case nil => simp
  case cons k ks hi =>
    have ⟨hk, hn⟩ := List.nodup_cons.mp h
    rw [List.flatMap_cons]
    refine ((hi hn).append_left _).trans ((perm_filter_or ?_).trans ?_)
    · intro a _ h₁ h₂
      simp only [decide_eq_true_eq] at h₁ h₂
      exact hk (h₁ ▸ h₂)
    · simp

end MultiMap
