import Mathlib.Data.List.Sort
import Mathlib.Data.List.TakeWhile
import Mathlib.Tactic.Common

-- Priority queues that have their least element in front.

structure Heap (α : Type*) [LinearOrder α] where
  items  : List α
  sorted : items.Pairwise (· ≤ ·)

namespace Heap

variable {α : Type*} [LinearOrder α] {heap : Heap α} {a b : α} {p : α → Bool} {l : List α}

instance : Membership α (Heap α) where
  mem heap a := a ∈ heap.items

def empty : Heap α where
  items  := []
  sorted := .nil

def length (heap : Heap α) : Nat :=
  heap.items.length

def ofList (l : List α) : Heap α where
  items  := l.insertionSort (· ≤ ·)
  sorted := List.pairwise_insertionSort _ _

def push (heap : Heap α) (a : α) : Heap α where
  items  := heap.items.orderedInsert (· ≤ ·) a
  sorted := heap.sorted.orderedInsert a _

def peek (heap : Heap α) : Option α :=
  heap.items.head?

def pop (heap : Heap α) : Heap α where
  items  := heap.items.tail
  sorted := heap.sorted.tail

-- What is popped as long as the least element is of a kind, and the rest.
def popWhile (p : α → Bool) (heap : Heap α) : List α × Heap α :=
  (heap.items.takeWhile p, ⟨heap.items.dropWhile p, heap.sorted.sublist (List.dropWhile_sublist p)⟩)

theorem not_mem_empty : a ∉ (empty : Heap α) :=
  List.not_mem_nil

theorem mem_ofList : a ∈ ofList l ↔ a ∈ l :=
  List.mem_insertionSort _

theorem length_ofList : (ofList l).length = l.length :=
  List.length_insertionSort _ l

theorem mem_push : b ∈ heap.push a ↔ b = a ∨ b ∈ heap :=
  List.mem_orderedInsert _

theorem le_of_peek (h : heap.peek = some a) (hb : b ∈ heap) : a ≤ b := by
  have hs := heap.sorted
  rw [show heap.items = a :: heap.pop.items from List.eq_cons_of_mem_head? h] at hs
  obtain rfl | hb := List.mem_cons.mp (List.eq_cons_of_mem_head? h ▸ hb : b ∈ a :: heap.pop.items)
  · exact le_rfl
  · exact List.rel_of_pairwise_cons hs hb

theorem mem_of_peek (h : heap.peek = some a) : a ∈ heap :=
  List.mem_of_mem_head? h

-- The loop that pops what is in front.
theorem popWhile_eq : heap.popWhile p = match heap.peek with
    | none   => ([], heap)
    | some a => if p a then (a :: (heap.pop.popWhile p).1, (heap.pop.popWhile p).2)
      else ([], heap) := by
  obtain ⟨items, sorted⟩ := heap
  cases items
  case nil       => rfl
  case cons a as =>
    by_cases hp : p a
    all_goals simp [popWhile, peek, pop, hp]

theorem mem_iff_popWhile : a ∈ heap ↔ a ∈ (heap.popWhile p).1 ∨ a ∈ (heap.popWhile p).2 := by
  have h : heap.items = (heap.popWhile p).1 ++ (heap.popWhile p).2.items :=
    List.takeWhile_append_dropWhile.symm
  exact (iff_of_eq (congrArg (a ∈ ·) h)).trans List.mem_append

theorem of_mem_popWhile (h : a ∈ (heap.popWhile p).1) : p a :=
  List.mem_takeWhile_imp h

theorem length_popWhile_le : (heap.popWhile p).2.length ≤ heap.length :=
  (List.dropWhile_sublist p).length_le

theorem not_of_peek_popWhile (h : (heap.popWhile p).2.peek = some a) : ¬p a := by
  have hn := List.head?_dropWhile_not p heap.items
  rw [show (heap.items.dropWhile p).head? = some a from h] at hn
  simpa using hn

-- What is popped is all of a kind that comes in front of the others.
theorem mem_popWhile_iff (hp : ∀ a b, a ≤ b → p b → p a) : a ∈ (heap.popWhile p).1 ↔ a ∈ heap ∧
    p a := by
  refine ⟨fun h => ⟨mem_iff_popWhile.mpr (.inl h), of_mem_popWhile h⟩, fun ⟨h, ha⟩ => ?_⟩
  refine (mem_iff_popWhile.mp h).resolve_right fun hr => ?_
  cases hl : (heap.popWhile p).2.peek
  case none   => exact List.ne_nil_of_mem hr (List.head?_eq_none_iff.mp hl)
  case some b => exact not_of_peek_popWhile hl (hp b a (le_of_peek hl hr) ha)

end Heap
