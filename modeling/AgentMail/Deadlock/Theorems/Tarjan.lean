import AgentMail.Deadlock.Basic
import Mathlib.Data.Fintype.Card

open Digraph
open Function (update)
open Relation (ReflTransGen)

namespace Deadlock.TarjanScc

variable {n : Nat} {adj : Fin n → List (Fin n)} {gray : List (Fin n)} {t u : TarjanScc n}
  {node : Fin n}

def index (t : TarjanScc n) (v : Fin n) : Nat :=
  (t.indices v).getD 0

-- The nodes that have left the stack.
def Done (t : TarjanScc n) : Set (Fin n) :=
  { v | t.indices v ≠ none ∧ v ∉ t.stack }

structure Reported (adj : Fin n → List (Fin n)) (t : TarjanScc n) : Prop where
  component : ∀ c ∈ t.sccs, 1 < c.length ∧ c.Nodup ∧ (∀ v ∈ c, v ∈ t.Done) ∧
    IsComponent (Edge adj) { v | v ∈ c }
  complete  : ∀ v ∈ t.Done, ∀ w, w ≠ v → Connected (Edge adj) v w → ∃ c ∈ t.sccs, v ∈ c
  disjoint  : t.sccs.Pairwise List.Disjoint

-- The gray nodes are the ones whose calls have not returned.
structure Inv (adj : Fin n → List (Fin n)) (gray : List (Fin n)) (t : TarjanScc n) : Prop where
  index_lt  : ∀ v i, t.indices v = some i → i < t.indexCounter
  onStack   : ∀ v, t.onStack v ↔ v ∈ t.stack
  visited   : ∀ v ∈ t.stack, t.indices v ≠ none
  sorted    : t.stack.Pairwise fun a b => t.index b < t.index a
  gray_mem  : ∀ g ∈ gray, g ∈ t.stack
  explored  : ∀ v, t.indices v ≠ none → v ∉ gray → ∀ w ∈ adj v, t.indices w ≠ none
  toGray    : ∀ y ∈ t.stack, ∃ g ∈ gray, t.index g ≤ t.index y ∧ ReflTransGen (Edge adj) y g
  ofGray    : ∀ g ∈ gray, ∀ y ∈ t.stack, t.index g ≤ t.index y → ReflTransGen (Edge adj) g y
  closed    : Closed (Edge adj) t.Done
  reported  : Reported adj t

-- What a call may be made with.
structure Pre (adj : Fin n → List (Fin n)) (gray : List (Fin n)) (node : Fin n) (t : TarjanScc n) :
    Prop where
  inv   : Inv adj gray t
  fresh : t.indices node = none
  reach : ∀ g ∈ gray, ReflTransGen (Edge adj) g node

-- What later states keep of an earlier one.
structure Extends (t u : TarjanScc n) : Prop where
  indices : ∀ v i, t.indices v = some i → u.indices v = some i
  counter : t.indexCounter ≤ u.indexCounter

structure Post (adj : Fin n → List (Fin n)) (gray : List (Fin n)) (node : Fin n)
    (t u : TarjanScc n) : Prop
    extends Extends t u where
  inv      : Inv adj gray u
  lowlinks : ∀ v, t.indices v ≠ none → u.lowlinks v = t.lowlinks v
  stack    : ∃ new, u.stack = new ++ t.stack
  entered  : u.indices node = some t.indexCounter
  low      : u.lowlinks node = t.indexCounter ∨
    ∃ y ∈ u.stack, u.index y = u.lowlinks node ∧ ReflTransGen (Edge adj) node y
  bound    : ∀ x ∈ u.stack, x ∉ t.stack → ∀ y ∈ t.stack, y ∈ adj x → u.lowlinks node ≤ t.index y

-- The loop over the neighbors after some of them.
structure Loop (adj : Fin n → List (Fin n)) (gray : List (Fin n)) (node : Fin n) (t u : TarjanScc n)
    (handled : List (Fin n)) : Prop extends Extends t u where
  inv       : Inv adj (node :: gray) u
  lowlinks  : ∀ v, t.indices v ≠ none → u.lowlinks v = t.lowlinks v
  stack     : ∃ new, u.stack = new ++ node :: t.stack
  entered   : u.indices node = some t.indexCounter
  low_le    : u.lowlinks node ≤ t.indexCounter
  low       : ∃ y ∈ u.stack, u.index y = u.lowlinks node ∧ ReflTransGen (Edge adj) node y
  bound     : ∀ x ∈ u.stack, x ∉ t.stack → x ≠ node → ∀ y ∈ t.stack, y ∈ adj x →
    u.lowlinks node ≤ t.index y
  boundSelf : ∀ y ∈ handled, y ∈ t.stack → u.lowlinks node ≤ t.index y
  visited   : ∀ y ∈ handled, u.indices y ≠ none

theorem index_of_indices {v : Fin n} {i : Nat} (h : t.indices v = some i) : t.index v = i := by
  simp [index, h]

theorem exists_indices {v : Fin n} (h : t.indices v ≠ none) : ∃ i, t.indices v = some i ∧
    t.index v = i := by
  have ⟨i, hi⟩ := Option.ne_none_iff_exists'.mp h
  exact ⟨i, hi, index_of_indices hi⟩

@[simp]
theorem stack_lower {v : Fin n} {b : Nat} : (t.lower v b).stack = t.stack :=
  rfl

@[simp]
theorem index_lower {v w : Fin n} {b : Nat} : (t.lower v b).index w = t.index w :=
  rfl

@[simp]
theorem lowlinks_lower_self {v : Fin n} {b : Nat} :
    (t.lower v b).lowlinks v = min (t.lowlinks v) b :=
  Function.update_self ..

namespace Extends

theorem refl (t : TarjanScc n) : Extends t t :=
  ⟨fun _ _ h => h, le_rfl⟩

theorem trans {w : TarjanScc n} (h₁ : Extends t u) (h₂ : Extends u w) : Extends t w :=
  ⟨fun v i h => h₂.indices v i (h₁.indices v i h), h₁.counter.trans h₂.counter⟩

theorem visited (h : Extends t u) {v : Fin n} (hv : t.indices v ≠ none) : u.indices v ≠ none := by
  have ⟨i, hi, _⟩ := exists_indices hv
  simp [h.indices v i hi]

theorem index (h : Extends t u) {v : Fin n} (hv : t.indices v ≠ none) : u.index v = t.index v := by
  have ⟨i, hi, he⟩ := exists_indices hv
  rw [he, index_of_indices (h.indices v i hi)]

end Extends

namespace Inv

theorem lt_counter (h : Inv adj gray t) {v : Fin n} (hv : t.indices v ≠ none) :
    t.index v < t.indexCounter := by
  have ⟨i, hi, he⟩ := exists_indices hv
  exact he ▸ h.index_lt v i hi

theorem nodup (h : Inv adj gray t) : t.stack.Nodup :=
  h.sorted.imp fun hlt he => absurd (he ▸ hlt) (lt_irrefl _)

-- A change of the lowlinks leaves everything else as it is.
theorem lower (h : Inv adj gray t) (v : Fin n) (bound : Nat) : Inv adj gray (t.lower v bound) :=
  ⟨h.index_lt, h.onStack, h.visited, h.sorted, h.gray_mem, h.explored, h.toGray, h.ofGray, h.closed,
    ⟨h.reported.component, h.reported.complete, h.reported.disjoint⟩⟩

theorem new : Inv adj [] (new : TarjanScc n) where
  index_lt v i h := by simp [TarjanScc.new] at h
  onStack v      := by simp [TarjanScc.new]
  visited v h    := by simp [TarjanScc.new] at h
  sorted         := .nil
  gray_mem       := by simp
  explored v h   := by simp [TarjanScc.new] at h
  toGray y h     := by simp [TarjanScc.new] at h
  ofGray         := by simp
  closed v h     := by simp [TarjanScc.new, Done] at h
  reported       := {
    component := by simp [TarjanScc.new]
    complete  := by simp [TarjanScc.new, Done]
    disjoint  := .nil
  }

end Inv

section Enter

theorem indices_enter_of_ne {v : Fin n} (h : v ≠ node) : (t.enter node).indices v = t.indices v :=
  Function.update_of_ne h ..

theorem indices_enter_self : (t.enter node).indices node = some t.indexCounter :=
  Function.update_self ..

theorem Pre.ne_node (h : Pre adj gray node t) {v : Fin n} (hv : t.indices v ≠ none) : v ≠ node :=
  fun he => hv (he ▸ h.fresh)

theorem Pre.enter_extends (h : Pre adj gray node t) : Extends t (t.enter node) where
  indices v i hi := (indices_enter_of_ne (h.ne_node (by simp [hi]))).trans hi
  counter        := Nat.le_succ _

theorem Pre.done_enter (h : Pre adj gray node t) : (t.enter node).Done = t.Done := by
  ext v
  by_cases hv : v = node
  case pos => simp [Done, hv, h.fresh, enter]
  case neg => simp [Done, enter, hv]

theorem Pre.inv_enter (h : Pre adj gray node t) : Inv adj (node :: gray) (t.enter node) := by
  have hx := h.enter_extends
  have hi {v} (hv : v ∈ t.stack) : (t.enter node).index v = t.index v :=
    hx.index (h.inv.visited v hv)
  have hn : (t.enter node).index node = t.indexCounter := index_of_indices indices_enter_self
  refine ⟨?_, ?_, ?_, ?_, ?_, ?_, ?_, ?_, ?_, ?_⟩
  case refine_1 =>
    intro v i hv
    by_cases he : v = node
    case pos =>
      rw [he, indices_enter_self, Option.some_inj] at hv
      exact hv ▸ Nat.lt_succ_self _
    case neg => exact Nat.lt_succ_of_lt (h.inv.index_lt v i (indices_enter_of_ne he ▸ hv))
  case refine_2 =>
    intro v
    by_cases he : v = node <;> simp [enter, he, h.inv.onStack]
  case refine_3 =>
    intro v hv
    obtain rfl | hv := List.mem_cons.mp hv
    · simp [indices_enter_self]
    · exact hx.visited (h.inv.visited v hv)
  case refine_4 =>
    refine List.pairwise_cons.mpr ⟨fun v hv => ?_, h.inv.sorted.imp_of_mem fun ha hb hlt => ?_⟩
    · rw [hn, hi hv]
      exact h.inv.lt_counter (h.inv.visited v hv)
    · rwa [hi ha, hi hb]
  case refine_5 =>
    intro g hg
    exact List.mem_cons.mpr ((List.mem_cons.mp hg).imp_right (h.inv.gray_mem g))
  case refine_6 =>
    intro v hv hg w hw
    have ⟨hne, hg⟩ : v ≠ node ∧ v ∉ gray := by simpa using hg
    exact hx.visited (h.inv.explored v (indices_enter_of_ne hne ▸ hv) hg w hw)
  case refine_7 =>
    intro y hy
    obtain rfl | hy := List.mem_cons.mp hy
    · exact ⟨_, List.mem_cons_self, le_rfl, .refl⟩
    · have ⟨g, hg, hle, hr⟩ := h.inv.toGray y hy
      exact ⟨g, List.mem_cons_of_mem _ hg, by rwa [hi (h.inv.gray_mem g hg), hi hy], hr⟩
  case refine_8 =>
    intro g hg y hy hle
    obtain hg | hg := List.mem_cons.mp hg <;> obtain hy | hy := List.mem_cons.mp hy
    · exact hg ▸ hy ▸ .refl
    · rw [hg, hn, hi hy] at hle
      exact absurd (h.inv.lt_counter (h.inv.visited y hy)) (Nat.not_lt.mpr hle)
    · exact hy ▸ h.reach g hg
    · exact h.inv.ofGray g hg y hy (by rwa [hi (h.inv.gray_mem g hg), hi hy] at hle)
  case refine_9 => exact h.done_enter ▸ h.inv.closed
  case refine_10 =>
    have hd := h.done_enter
    exact ⟨hd ▸ h.inv.reported.component, hd ▸ h.inv.reported.complete, h.inv.reported.disjoint⟩

theorem Pre.loop_enter (h : Pre adj gray node t) : Loop adj gray node t (t.enter node) [] where
  toExtends     := h.enter_extends
  inv           := h.inv_enter
  lowlinks v hv := Function.update_of_ne (h.ne_node hv) ..
  stack         := ⟨[], rfl⟩
  entered       := indices_enter_self
  low_le        := by simp [enter]
  low           := ⟨node, List.mem_cons_self, by simp [index, enter], .refl⟩
  bound x hx hn hne := by simp [enter, hne, hn] at hx
  boundSelf     := by simp
  visited       := by simp

end Enter

section Visit

theorem Loop.seen (h : Loop adj gray node t u hs) (ht : ∀ v ∈ t.stack, t.indices v ≠ none)
    {v : Fin n} (hv : v ∈ t.stack) : v ∈ u.stack ∧ u.index v = t.index v := by
  have ⟨new, he⟩ := h.stack
  exact ⟨he ▸ List.mem_append_right _ (List.mem_cons_of_mem _ hv), h.index (ht v hv)⟩

theorem Loop.visit_old (h : Loop adj gray node t u hs) (hp : Pre adj gray node t) {w : Fin n}
    {i : Nat} (hw : w ∈ adj node) (hi : u.indices w = some i) :
    Loop adj gray node t (if u.onStack w then u.lower node i else u) (hs ++ [w]) := by
  split
  case isTrue hon =>
    have hws := (h.inv.onStack w).mp hon
    have hne {v} (hv : t.indices v ≠ none) : v ≠ node := hp.ne_node hv
    refine { h with
      inv       := h.inv.lower ..
      lowlinks  := fun v hv => (Function.update_of_ne (hne hv) ..).trans (h.lowlinks v hv)
      low_le    := ?low_le
      low       := ?low
      bound     := ?bound
      boundSelf := ?boundSelf
      visited   := ?visited }
    case visited =>
      intro y hy
      obtain hy | hy := List.mem_append.mp hy
      · exact h.visited y hy
      · simp [List.mem_singleton.mp hy, hi, TarjanScc.lower]
    all_goals simp only [stack_lower, index_lower, lowlinks_lower_self]
    case low_le => exact (min_le_left ..).trans h.low_le
    case low =>
      obtain hm | hm := min_choice (u.lowlinks node) i
      · rw [hm]
        exact h.low
      · rw [hm]
        exact ⟨w, hws, index_of_indices hi, .single hw⟩
    case bound => exact fun x hx hn hne y hy he =>
      (min_le_left ..).trans (h.bound x hx hn hne y hy he)
    case boundSelf =>
      intro y hy hys
      obtain hy | hy := List.mem_append.mp hy
      · exact (min_le_left ..).trans (h.boundSelf y hy hys)
      · have hyw := List.mem_singleton.mp hy
        have ⟨_, hx⟩ := h.seen hp.inv.visited hys
        rw [← hx, hyw, index_of_indices hi]
        exact min_le_right ..
  case isFalse hon =>
    refine { h with boundSelf := fun y hy hys => ?_, visited := fun y hy => ?_ }
    · obtain hy | hy := List.mem_append.mp hy
      · exact h.boundSelf y hy hys
      · have hyu := (h.seen hp.inv.visited hys).left
        exact absurd ((h.inv.onStack w).mpr (List.mem_singleton.mp hy ▸ hyu)) hon
    · obtain hy | hy := List.mem_append.mp hy
      · exact h.visited y hy
      · simp [List.mem_singleton.mp hy, hi]

-- A neighbor may be visited from within the loop.
theorem Loop.pre (h : Loop adj gray node t u hs) (hp : Pre adj gray node t) {w : Fin n}
    (hw : w ∈ adj node) (hi : u.indices w = none) : Pre adj (node :: gray) w u where
  inv   := h.inv
  fresh := hi
  reach g hg := by
    obtain rfl | hg := List.mem_cons.mp hg
    · exact .single hw
    · exact (hp.reach g hg).tail hw

theorem Loop.visit_new {u' : TarjanScc n} (h : Loop adj gray node t u hs) (hp : Pre adj gray node t)
    {w : Fin n} (hw : w ∈ adj node) (hi : u.indices w = none)
    (hc : Post adj (node :: gray) w u u') :
    Loop adj gray node t (u'.lower node (u'.lowlinks w)) (hs ++ [w]) := by
  have hx : Extends t u' := h.toExtends.trans hc.toExtends
  have hne {v} (hv : t.indices v ≠ none) : v ≠ node := hp.ne_node hv
  have hnode : u.indices node ≠ none := by simp [h.entered]
  have hlow : u'.lowlinks node = u.lowlinks node := hc.lowlinks node hnode
  have ⟨new, he⟩ := h.stack
  have ⟨new', he'⟩ := hc.stack
  have hmem {v} (hv : v ∈ u.stack) : v ∈ u'.stack := he' ▸ List.mem_append_right _ hv
  refine {
    toExtends := ⟨hx.indices, hx.counter⟩
    inv       := hc.inv.lower ..
    lowlinks  := fun v hv => (Function.update_of_ne (hne hv) ..).trans
      ((hc.lowlinks v (h.toExtends.visited hv)).trans (h.lowlinks v hv))
    stack     := ⟨new' ++ new, by rw [List.append_assoc, ← he]; exact he'⟩
    entered   := hc.indices node _ h.entered
    low_le    := ?low_le
    low       := ?low
    bound     := ?bound
    boundSelf := ?boundSelf
    visited   := ?visited }
  case visited =>
    intro y hy
    obtain hy | hy := List.mem_append.mp hy
    · exact hc.toExtends.visited (h.visited y hy)
    · simp [List.mem_singleton.mp hy, hc.entered, TarjanScc.lower]
  all_goals simp only [stack_lower, index_lower, lowlinks_lower_self, hlow]
  case low_le => exact (min_le_left ..).trans h.low_le
  case low =>
    obtain hm | hm := Nat.le_total (u.lowlinks node) (u'.lowlinks w)
    case inl =>
      have ⟨y, hy, hi, hr⟩ := h.low
      rw [min_eq_left hm, ← hi, ← hc.index (h.inv.visited y hy)]
      exact ⟨y, hmem hy, rfl, hr⟩
    case inr =>
      obtain hl | ⟨y, hy, hi, hr⟩ := hc.low
      -- the neighbor has a greater index than the node, so its lowlink does not count
      · have hlt := h.inv.index_lt node _ h.entered
        have hle := h.low_le
        omega
      · rw [min_eq_right hm]
        exact ⟨y, hy, hi, .head hw hr⟩
  case bound =>
    intro x hx hn hxn y hy hxy
    by_cases hxu : x ∈ u.stack
    case pos => exact (min_le_left ..).trans (h.bound x hxu hn hxn y hy hxy)
    case neg =>
      have ⟨hyu, hiy⟩ := h.seen hp.inv.visited hy
      exact (min_le_right ..).trans (hiy ▸ hc.bound x hx hxu y hyu hxy)
  case boundSelf =>
    intro y hy hys
    obtain hy | hy := List.mem_append.mp hy
    · exact (min_le_left ..).trans (h.boundSelf y hy hys)
    -- what is on the stack has an index, and the neighbor had none
    · exact absurd (List.mem_singleton.mp hy ▸ hi)
        (h.inv.visited y (h.seen hp.inv.visited hys).left)

end Visit

section Leave

theorem popThrough_append {new s : List (Fin n)} (h : node ∉ new) :
    popThrough node (new ++ node :: s) = (new ++ [node], s) := by
  induction new
  case nil => simp [popThrough]
  case cons v new hi =>
    have ⟨hv, hn⟩ : node ≠ v ∧ node ∉ new := by simpa using h
    simp [popThrough, hi hn, Ne.symm hv]

-- The nodes on top of the stack, down to and including the node.
structure Top (node : Fin n) (t u : TarjanScc n) (new : List (Fin n)) : Prop where
  stack    : u.stack = new ++ node :: t.stack
  not_mem  : node ∉ new
  disjoint : ∀ v ∈ new ++ [node], v ∉ t.stack

theorem Loop.exists_top (h : Loop adj gray node t u hs) : ∃ new, Top node t u new := by
  have ⟨new, he⟩ := h.stack
  have hn := he ▸ h.inv.nodup
  have ⟨_, hn', hd⟩ := List.nodup_append.mp hn
  refine ⟨new, he, fun hm => hd _ hm _ List.mem_cons_self rfl, fun v hv hs => ?_⟩
  obtain hv | hv := List.mem_append.mp hv
  · exact hd v hv v (List.mem_cons_of_mem _ hs) rfl
  · exact (List.nodup_cons.mp hn').left (List.mem_singleton.mp hv ▸ hs)

namespace Top

variable {new : List (Fin n)}

theorem mem_stack_iff (h : Top node t u new) {v : Fin n} : v ∈ u.stack ↔ v ∈ new ++ [node] ∨
    v ∈ t.stack := by
  simp [h.stack, or_assoc]

-- What is on top has the greater indices.
theorem index_le (h : Top node t u new) (hi : Inv adj gray u) {v : Fin n} (hv : v ∈ new ++ [node]) :
    u.index node ≤ u.index v := by
  have hs := h.stack ▸ hi.sorted
  obtain hv | hv := List.mem_append.mp hv
  · exact ((List.pairwise_append.mp hs).right.right v hv node List.mem_cons_self).le
  · exact List.mem_singleton.mp hv ▸ le_rfl

theorem leave_stack (h : Top node t u new) (hl : u.indices node = some (u.lowlinks node)) :
    (u.leave node).stack = t.stack := by
  simp [leave, hl, h.stack, popThrough_append h.not_mem]

theorem leave_sccs (h : Top node t u new) (hl : u.indices node = some (u.lowlinks node)) :
    (u.leave node).sccs = if new = [] then u.sccs else u.sccs ++ [new ++ [node]] := by
  have hp := h.stack ▸ popThrough_append (s := t.stack) h.not_mem
  simp only [leave, if_pos hl, hp]
  cases new <;> simp

theorem leave_onStack (h : Top node t u new) (hl : u.indices node = some (u.lowlinks node))
    {v : Fin n} : (u.leave node).onStack v = (u.onStack v && v ∉ new ++ [node]) := by
  simp only [leave, if_pos hl, h.stack, popThrough_append h.not_mem]

end Top

@[simp]
theorem indices_leave : (u.leave node).indices = u.indices := by
  rw [leave]
  split <;> rfl

@[simp]
theorem lowlinks_leave : (u.leave node).lowlinks = u.lowlinks := by
  rw [leave]
  split <;> rfl

@[simp]
theorem indexCounter_leave : (u.leave node).indexCounter = u.indexCounter := by
  rw [leave]
  split <;> rfl

@[simp]
theorem index_leave {v : Fin n} : (u.leave node).index v = u.index v := by
  rw [index, indices_leave, index]

variable {new : List (Fin n)}

theorem Top.done_leave (h : Top node t u new) (hi : Inv adj gray u)
    (hl : u.indices node = some (u.lowlinks node)) :
    (u.leave node).Done = { v | v ∈ new ++ [node] } ∪ u.Done := by
  ext v
  have hv : v ∈ new ++ [node] → u.indices v ≠ none ∧ v ∉ t.stack := fun hm =>
    ⟨hi.visited v (h.mem_stack_iff.mpr (.inl hm)), h.disjoint v hm⟩
  simp only [Done, indices_leave, h.leave_stack hl, Set.mem_union, Set.mem_ofPred_eq,
    h.mem_stack_iff]
  tauto

-- All nodes on top of the stack reach each other.
theorem Loop.top_connected (h : Loop adj gray node t u hs) (hp : Pre adj gray node t)
    (ht : Top node t u new) {a b : Fin n} (ha : a ∈ new ++ [node]) (hb : b ∈ new ++ [node]) :
    ReflTransGen (Edge adj) a b := by
  have hau := ht.mem_stack_iff.mpr (.inl ha)
  have hbu := ht.mem_stack_iff.mpr (.inl hb)
  have ⟨g, hg, _, hr⟩ := h.inv.toGray a hau
  have hnode : ReflTransGen (Edge adj) a node := by
    obtain rfl | hg := List.mem_cons.mp hg
    · exact hr
    · exact hr.trans (hp.reach g hg)
  exact hnode.trans (h.inv.ofGray node List.mem_cons_self b hbu (ht.index_le h.inv hb))

-- A root has no lower node of the stack below it, so the edges out of the top of the stack lead to
-- what is done.
theorem Loop.top_closed (h : Loop adj gray node t u (adj node)) (hp : Pre adj gray node t)
    (ht : Top node t u new) (hl : u.indices node = some (u.lowlinks node)) :
    Closed (Edge adj) ({ v | v ∈ new ++ [node] } ∪ u.Done) := by
  intro a ha b hb
  obtain ha | ha := ha
  case inr => exact Set.mem_union_right _ (h.inv.closed ha b hb)
  have hau := ht.mem_stack_iff.mpr (.inl ha)
  have hbv : u.indices b ≠ none := by
    by_cases hn : a = node
    case pos => exact h.visited b (hn ▸ hb)
    case neg =>
      refine h.inv.explored a (h.inv.visited a hau) (fun hg => ?_) b hb
      exact ht.disjoint a ha (hp.inv.gray_mem a ((List.mem_cons.mp hg).resolve_left hn))
  by_cases hbs : b ∈ u.stack
  case neg => exact .inr ⟨hbv, hbs⟩
  obtain hbt | hbt := ht.mem_stack_iff.mp hbs
  case inl => exact .inl hbt
  have hlow : u.lowlinks node = t.indexCounter := Option.some_inj.mp (hl.symm.trans h.entered)
  have hlt := hp.inv.lt_counter (hp.inv.visited b hbt)
  have hle : u.lowlinks node ≤ t.index b := by
    by_cases hn : a = node
    case pos => exact h.boundSelf b (hn ▸ hb) hbt
    case neg => exact h.bound a hau (ht.disjoint a ha) hn b hbt hb
  omega

theorem Loop.component (h : Loop adj gray node t u (adj node)) (hp : Pre adj gray node t)
    (ht : Top node t u new) (hl : u.indices node = some (u.lowlinks node)) :
    IsComponent (Edge adj) { v | v ∈ new ++ [node] } := by
  refine .of_closed (fun a ha b hb => h.top_connected hp ht ha hb) ⟨node, by simp⟩ h.inv.closed
    (h.top_closed hp ht hl) ?_
  exact fun a ha hd => hd.right (ht.mem_stack_iff.mpr (.inl ha))

theorem Loop.reported_leave (h : Loop adj gray node t u (adj node)) (hp : Pre adj gray node t)
    (ht : Top node t u new) (hl : u.indices node = some (u.lowlinks node)) :
    Reported adj (u.leave node) := by
  have hr := h.inv.reported
  have hc := h.component hp ht hl
  have hd := ht.done_leave h.inv hl
  have hs := ht.leave_sccs hl
  have hnd : (new ++ [node]).Nodup := by
    have hn := ht.stack ▸ h.inv.nodup
    rw [List.append_cons] at hn
    exact hn.of_append_left
  refine ⟨?component, ?complete, ?disjoint⟩
  case component =>
    intro c hm
    have hold : c ∈ u.sccs → 1 < c.length ∧ c.Nodup ∧ (∀ v ∈ c, v ∈ (u.leave node).Done) ∧
        IsComponent (Edge adj) { v | v ∈ c } := by
      intro hm
      have ⟨h₁, h₂, h₃, h₄⟩ := hr.component c hm
      exact ⟨h₁, h₂, fun v hv => hd ▸ Set.mem_union_right _ (h₃ v hv), h₄⟩
    rw [hs] at hm
    split at hm
    case isTrue => exact hold hm
    case isFalse hne =>
      obtain hm | hm := List.mem_append.mp hm
      · exact hold hm
      · obtain rfl := List.mem_singleton.mp hm
        have hpos := List.length_pos_iff.mpr hne
        exact ⟨by simpa using hpos, hnd, fun v hv => hd ▸ Set.mem_union_left _ hv, hc⟩
  case complete =>
    intro v hv w hw hvw
    rw [hs]
    obtain hv | hv := hd ▸ hv
    · have hwm : w ∈ new ++ [node] := (hc.mem_iff v hv w).mpr hvw
      have hne : new ≠ [] := by
        rintro rfl
        simp at hv hwm
        exact hw (hwm.trans hv.symm)
      rw [if_neg hne]
      exact ⟨_, List.mem_append_right _ (List.mem_singleton_self _), hv⟩
    · have ⟨c, hm, hvc⟩ := hr.complete v hv w hw hvw
      refine ⟨c, ?_, hvc⟩
      split
      · exact hm
      · exact List.mem_append_left _ hm
  case disjoint =>
    rw [hs]
    split
    · exact hr.disjoint
    · refine List.pairwise_append.mpr ⟨hr.disjoint, List.pairwise_singleton ..,
        fun c hm c' hm' v hv hv' => ?_⟩
      have hvd := (hr.component c hm).right.right.left v hv
      exact hvd.right (ht.mem_stack_iff.mpr (.inl (List.mem_singleton.mp hm' ▸ hv')))

theorem Loop.explored_leave (h : Loop adj gray node t u (adj node)) {v : Fin n}
    (hv : u.indices v ≠ none) (hg : v ∉ gray) : ∀ w ∈ adj v, u.indices w ≠ none := by
  by_cases hn : v = node
  case pos => exact hn ▸ h.visited
  case neg => exact h.inv.explored v hv (by simp [hn, hg])

theorem Loop.post_root (h : Loop adj gray node t u (adj node)) (hp : Pre adj gray node t)
    (hl : u.indices node = some (u.lowlinks node)) : Post adj gray node t (u.leave node) := by
  have ⟨new, ht⟩ := h.exists_top
  have hs := ht.leave_stack hl
  have hi {v} (hv : v ∈ t.stack) : (u.leave node).index v = t.index v :=
    index_leave.trans (h.index (hp.inv.visited v hv))
  have hlow : u.lowlinks node = t.indexCounter := Option.some_inj.mp (hl.symm.trans h.entered)
  refine {
    indices  := fun v i hv => by simpa using h.indices v i hv
    counter  := by simpa using h.counter
    inv      := ?_
    lowlinks := fun v hv => by simpa using h.lowlinks v hv
    stack    := ⟨[], hs⟩
    entered  := by simpa using h.entered
    low      := .inl (by simpa using hlow)
    bound    := fun x hx hn => absurd (hs ▸ hx) hn }
  refine {
    index_lt := fun v i hv => by simpa using h.inv.index_lt v i (by simpa using hv)
    onStack  := fun v => ?onStack
    visited  := fun v hv => by simpa using h.toExtends.visited (hp.inv.visited v (hs ▸ hv))
    sorted   := ?sorted
    gray_mem := fun g hg => hs ▸ hp.inv.gray_mem g hg
    explored := fun v hv hg => by simpa using h.explored_leave (by simpa using hv) hg
    toGray   := fun y hy => ?toGray
    ofGray   := fun g hg y hy hle => ?ofGray
    closed   := ht.done_leave h.inv hl ▸ h.top_closed hp ht hl
    reported := h.reported_leave hp ht hl }
  case onStack =>
    have hd := ht.disjoint v
    rw [ht.leave_onStack hl, hs, Bool.and_eq_true, h.inv.onStack, ht.mem_stack_iff,
      decide_eq_true_eq]
    tauto
  case sorted =>
    rw [hs]
    refine hp.inv.sorted.imp_of_mem fun ha hb hlt => ?_
    rwa [hi ha, hi hb]
  case toGray =>
    rw [hs] at hy
    have ⟨g, hg, hle, hr⟩ := hp.inv.toGray y hy
    exact ⟨g, hg, by rwa [hi (hp.inv.gray_mem g hg), hi hy], hr⟩
  case ofGray =>
    rw [hs] at hy
    exact hp.inv.ofGray g hg y hy (by rwa [hi (hp.inv.gray_mem g hg), hi hy] at hle)

-- A node that is no root stays on the stack, where it reaches an older node and so an older call.
theorem Loop.post_inner (h : Loop adj gray node t u (adj node)) (hp : Pre adj gray node t)
    (hl : u.indices node ≠ some (u.lowlinks node)) : Post adj gray node t (u.leave node) := by
  have he : u.leave node = u := if_neg hl
  have ⟨new, ht⟩ := h.exists_top
  have hn : u.index node = t.indexCounter := index_of_indices h.entered
  have hlt : u.lowlinks node < t.indexCounter := by
    refine lt_of_le_of_ne h.low_le fun hc => hl ?_
    rw [h.entered, hc]
  have ⟨y, hy, hyi, hyr⟩ := h.low
  have hyt : y ∈ t.stack := by
    obtain hm | hm := ht.mem_stack_iff.mp hy
    · have hle := ht.index_le h.inv hm
      omega
    · exact hm
  have ⟨g, hg, hgi, hgr⟩ := hp.inv.toGray y hyt
  have hi {v} (hv : v ∈ t.stack) : u.index v = t.index v := h.index (hp.inv.visited v hv)
  rw [he]
  refine {
    toExtends := h.toExtends
    inv       := ?_
    lowlinks  := h.lowlinks
    stack     := ⟨new ++ [node], by simp [ht.stack]⟩
    entered   := h.entered
    low       := .inr h.low
    bound     := fun x hx hnx z hz hxz => ?bound }
  case bound =>
    by_cases hxn : x = node
    case pos => exact h.boundSelf z (hxn ▸ hxz) hz
    case neg => exact h.bound x hx hnx hxn z hz hxz
  refine { h.inv with
    gray_mem := fun g hg => h.inv.gray_mem g (List.mem_cons_of_mem _ hg)
    explored := fun v hv hg => h.explored_leave hv hg
    toGray   := fun z hz => ?_
    ofGray   := fun g hg => h.inv.ofGray g (List.mem_cons_of_mem _ hg) }
  have ⟨g', hg', hle, hr⟩ := h.inv.toGray z hz
  obtain rfl | hg' := List.mem_cons.mp hg'
  · refine ⟨g, hg, ?_, hr.trans (hyr.trans hgr)⟩
    rw [hi (hp.inv.gray_mem g hg)]
    have := hi hyt
    omega
  · exact ⟨g', hg', hle, hr⟩

end Leave

section Run

def unvisited (t : TarjanScc n) : Nat :=
  (Finset.univ.filter (t.indices · = none)).card

theorem Extends.unvisited_le (h : Extends t u) : u.unvisited ≤ t.unvisited := by
  refine Finset.card_le_card fun v hv => ?_
  simp only [Finset.mem_filter, Finset.mem_univ, true_and] at hv ⊢
  by_contra hn
  exact h.visited hn hv

theorem Pre.unvisited_enter (h : Pre adj gray node t) : (t.enter node).unvisited < t.unvisited := by
  refine Finset.card_lt_card (Finset.ssubset_iff_of_subset (fun v hv => ?_) |>.mpr ⟨node, ?_, ?_⟩)
  · simp only [Finset.mem_filter, Finset.mem_univ, true_and] at hv ⊢
    by_contra hn
    exact h.enter_extends.visited hn hv
  · simp [h.fresh]
  · simp [indices_enter_self]

-- What is unvisited bounds the depth of the recursion.
theorem strongconnect_spec {fuel : Nat} (hp : Pre adj gray node t) (hf : t.unvisited ≤ fuel) :
    ∃ u, strongconnect adj fuel node t = some u ∧ Post adj gray node t u := by
  induction fuel generalizing gray node t
  case zero =>
    have := hp.unvisited_enter
    omega
  case succ fuel hi =>
    have loop {l hs : List (Fin n)} {u : TarjanScc n} (hl : hs ++ l = adj node)
        (h : Loop adj gray node t u hs)
        (hf : u.unvisited ≤ fuel) :
        ∃ u', l.foldlM (visit (strongconnect adj fuel) node) u = some u' ∧
          Loop adj gray node t u' (adj node) := by
      induction l generalizing hs u
      case nil =>
        rw [List.append_nil] at hl
        exact ⟨u, rfl, hl ▸ h⟩
      case cons w l hi' =>
        have hw : w ∈ adj node := hl ▸ List.mem_append_right _ List.mem_cons_self
        have hl : (hs ++ [w]) ++ l = adj node := by simpa using hl
        rw [List.foldlM_cons]
        cases hn : u.indices w
        case none =>
          have ⟨u', he, hc⟩ := hi (h.pre hp hw hn) hf
          have ⟨v, hv, h'⟩ := hi' hl (h.visit_new hp hw hn hc) (hc.toExtends.unvisited_le.trans hf)
          exact ⟨v, by simpa [visit, hn, he] using hv, h'⟩
        case some i =>
          have ⟨v, hv, h'⟩ := hi' hl (h.visit_old hp hw hn) (by split <;> exact hf)
          exact ⟨v, by simpa [visit, hn] using hv, h'⟩
    have hlt := hp.unvisited_enter
    have ⟨u, he, h⟩ := loop (List.nil_append _) hp.loop_enter (by omega)
    refine ⟨u.leave node, by simp [strongconnect, he], ?_⟩
    by_cases hl : u.indices node = some (u.lowlinks node)
    case pos => exact h.post_root hp hl
    case neg => exact h.post_inner hp hl

-- Between the calls from outside nothing is left on the stack.
theorem Inv.stack_eq_nil (h : Inv adj [] t) : t.stack = [] := by
  refine List.eq_nil_iff_forall_not_mem.mpr fun y hy => ?_
  have ⟨_, hg, _⟩ := h.toGray y hy
  exact absurd hg List.not_mem_nil

theorem unvisited_le : t.unvisited ≤ n := by
  have h := Finset.card_filter_le Finset.univ (t.indices · = none)
  rwa [Finset.card_univ, Fintype.card_fin] at h

theorem connectIfNew_spec (h : Inv adj [] t) (node : Fin n) :
    ∃ u, connectIfNew adj n t node = some u ∧ Inv adj [] u ∧ Extends t u ∧
      u.indices node ≠ none := by
  rw [connectIfNew]
  split
  case isTrue hn =>
    have ⟨u, he, hu⟩ := strongconnect_spec ⟨h, hn, by simp⟩ unvisited_le
    exact ⟨u, he, hu.inv, hu.toExtends, by simp [hu.entered]⟩
  case isFalse hn => exact ⟨t, rfl, h, .refl t, hn⟩

theorem foldlM_connectIfNew_spec {nodes : List (Fin n)} (h : Inv adj [] t) :
    ∃ u, nodes.foldlM (connectIfNew adj n) t = some u ∧ Inv adj [] u ∧ Extends t u ∧
      ∀ v ∈ nodes, u.indices v ≠ none := by
  induction nodes generalizing t
  case nil => exact ⟨t, rfl, h, .refl t, by simp⟩
  case cons v nodes hi =>
    have ⟨u, he, hu, hx, hv⟩ := connectIfNew_spec h v
    have ⟨w, he', hw, hx', hvs⟩ := hi hu
    refine ⟨w, by simpa [he] using he', hw, hx.trans hx', fun a ha => ?_⟩
    obtain rfl | ha := List.mem_cons.mp ha
    · exact hx'.visited hv
    · exact hvs a ha

-- The components with at least two nodes are reported, each of them once.
theorem exists_reported (adj : Fin n → List (Fin n)) :
    ∃ t, (List.finRange n).foldlM (connectIfNew adj n) new = some t ∧ Reported adj t ∧
      t.Done = Set.univ := by
  have ⟨t, he, ht, _, hv⟩ := @foldlM_connectIfNew_spec _ adj _ (List.finRange n) Inv.new
  refine ⟨t, he, ht.reported, Set.eq_univ_of_forall fun v => ⟨hv v (List.mem_finRange v), ?_⟩⟩
  simp [ht.stack_eq_nil]

end Run

end Deadlock.TarjanScc
