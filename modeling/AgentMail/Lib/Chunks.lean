import Mathlib.Data.List.Basic

-- The consecutive parts of a list, of the given size except for the last one.

variable {α : Type*}

def chunks (size : Nat) (l : List α) : List (List α) :=
  if l = [] ∨ size = 0 then [] else l.take size :: chunks size (l.drop size)
termination_by l.length
decreasing_by
  rename_i h
  have ⟨hl, hs⟩ := not_or.mp h
  have := List.length_pos_iff.mpr hl
  rw [List.length_drop]
  omega

theorem flatten_chunks {size : Nat} (h : 0 < size) (l : List α) : (chunks size l).flatten = l := by
  fun_induction chunks size l
  case case1 l hl =>
    cases hl
    case inl hl => rw [hl, List.flatten_nil]
    case inr hl => omega
  case case2 l hl hi => rw [List.flatten_cons, hi, List.take_append_drop]

theorem length_le_of_mem_chunks {size : Nat} {l chunk : List α} (h : chunk ∈ chunks size l) :
    chunk.length ≤ size := by
  fun_induction chunks size l
  case case1 => cases h
  case case2 l hl hi =>
    obtain rfl | h := List.mem_cons.mp h
    · exact List.length_take_le ..
    · exact hi h

theorem mem_iff_exists_chunk {size : Nat} (h : 0 < size) {l : List α} {a : α} :
    a ∈ l ↔ ∃ chunk ∈ chunks size l, a ∈ chunk := by
  rw [← List.mem_flatten, flatten_chunks h]

theorem getElem?_chunks_eq_some_iff {size i : Nat} (h : 0 < size) {l chunk : List α} :
    (chunks size l)[i]? = some chunk ↔ i * size < l.length ∧
      chunk = (l.drop (i * size)).take size := by
  fun_induction chunks size l generalizing i
  case case1 l hl =>
    cases hl
    case inl hl => simp [hl]
    case inr hl => omega
  case case2 l hl hi =>
    cases i
    case zero =>
      have := List.length_pos_iff.mpr (not_or.mp hl).left
      simp [this, eq_comm]
    case succ i =>
      rw [List.getElem?_cons_succ, hi, List.length_drop, List.drop_drop,
        Nat.add_comm size, ← Nat.succ_mul]
      refine and_congr_left' ?_
      rw [Nat.succ_mul]
      omega

-- In a list without repetitions, an element is in the one chunk that its place falls into.
theorem exists_chunk_iff [DecidableEq α] {size i : Nat} (h : 0 < size) {l : List α} (hn : l.Nodup)
    {a : α} :
    (∃ chunk, (chunks size l)[i]? = some chunk ∧ a ∈ chunk) ↔ a ∈ l ∧ l.idxOf a / size = i := by
  constructor
  case mp =>
    intro ⟨chunk, hc, ha⟩
    obtain ⟨_, rfl⟩ := (getElem?_chunks_eq_some_iff h).mp hc
    obtain ⟨k, hk, rfl⟩ := List.mem_take_iff_getElem.mp ha
    rw [List.getElem_drop]
    refine ⟨List.getElem_mem _, ?_⟩
    rw [hn.idxOf_getElem, Nat.div_eq_iff h]
    omega
  case mpr =>
    rintro ⟨ha, rfl⟩
    have hi := List.idxOf_lt_length_of_mem ha
    have hle := Nat.div_mul_le_self (l.idxOf a) size
    have hlt := Nat.lt_div_mul_add h (a := l.idxOf a)
    refine ⟨_, (getElem?_chunks_eq_some_iff h).mpr ⟨Nat.lt_of_le_of_lt hle hi, rfl⟩, ?_⟩
    refine List.mem_take_iff_getElem.mpr ⟨l.idxOf a - l.idxOf a / size * size, ?_, ?_⟩
    · rw [List.length_drop]
      omega
    · simp [Nat.add_sub_cancel' hle]
