import AgentMail.S3Fifo.Basic

open Function (update)
open Tombstone (Ok)

namespace S3Fifo

variable {κ υ : Type} [DecidableEq κ]

omit [DecidableEq κ] in
theorem stamp_eq_some_iff {index : κ → Option (Node υ)} {kind : Kind} {key : κ} {s : Nat} :
    stamp index kind key = some s ↔ ∃ n, index key = some n ∧ n.kind = kind ∧ n.seq = s := by
  cases h : index key <;> simp [stamp, h]

omit [DecidableEq κ] in
theorem stamp_eq_none_iff {index : κ → Option (Node υ)} {kind : Kind} {key : κ} :
    stamp index kind key = none ↔ ∀ n, index key = some n → n.kind ≠ kind := by
  cases h : index key <;> simp [stamp, h]

@[simp]
theorem stamp_update (index : κ → Option (Node υ)) (kind : Kind) (key : κ) (o : Option (Node υ)) :
    stamp (update index key o) kind =
      update (stamp index kind) key (o.bind fun n => if n.kind = kind then some n.seq
        else none) := by
  ext1 k
  by_cases h : k = key <;> simp [stamp, h]

-- A change to the index that replaces nodes by nodes of the same kind and sequence number is
-- invisible to the queues.
theorem stamp_update_same {index : κ → Option (Node υ)} {key : κ} {n n' : Node υ}
    (h : index key = some n) (hk : n'.kind = n.kind) (hs : n'.seq = n.seq) (kind : Kind) :
    stamp (update index key (some n')) kind = stamp index kind := by
  rw [stamp_update]
  ext1 k
  by_cases hk' : k = key <;> simp [hk', stamp, h, hk, hs]

theorem stamp_erase_of_ne {index : κ → Option (Node υ)} {key : κ} {n : Node υ}
    (h : index key = some n) (kind : Kind) (hk : n.kind ≠ kind) :
    stamp (update index key none) kind = stamp index kind := by
  rw [stamp_update]
  exact Function.update_eq_self_iff.mpr (by simp [stamp, h, hk])

namespace S3FifoCache

variable {c c' : S3FifoCache κ υ} {mask : Option κ} {reserved : Set Nat}

-- The number of entries at which a queue is compacted, at the latest.
def limit (capacity : Nat) : Nat :=
  max (4 * capacity) 4

-- The sequence numbers that have been handed out, except for the reserved ones. Those are held back
-- for an entry that is only queued after a pending eviction.
def used (seqGen : Nat) (reserved : Set Nat) : Set Nat :=
  { s | s ≤ seqGen ∧ s ∉ reserved }

-- While a ghost hit is processed, the node of the hit key is still a ghost, but not counted.
def ghosts (index : κ → Option (Node υ)) (mask : Option κ) (key : κ) : Option Nat :=
  if mask = some key then none else stamp index .ghost key

-- The representation invariant. It is relative to the key `mask` of a ghost hit and to the reserved
-- sequence numbers, so that it also holds in the middle of an `insert`.
structure Inv (c : S3FifoCache κ υ) (mask : Option κ) (reserved : Set Nat) : Prop where
  small       : Ok (stamp c.index .small) c.small (used c.seqGen reserved) c.smallLiveCount
  main        : Ok (stamp c.index .main) c.main (used c.seqGen reserved) c.mainLiveCount
  ghost       : Ok (ghosts c.index mask) c.ghost (used c.seqGen reserved) c.ghostLiveCount
  small_le    : c.smallLiveCount ≤ c.smallCapacity
  main_le     : c.mainLiveCount ≤ c.mainCapacity
  ghost_le    : c.ghostLiveCount ≤ c.ghostCapacity
  small_len   : c.small.length ≤ limit c.smallCapacity + 1
  main_len    : c.main.length ≤ limit c.mainCapacity + 1
  ghost_len   : c.ghost.length ≤ limit c.ghostCapacity + 1
  freq_le     : ∀ k n, c.index k = some n → n.freq ≤ 3
  small_pos   : 0 < c.smallCapacity
  ghost_pos   : 0 < c.ghostCapacity
  reserved_le : ∀ s ∈ reserved, s ≤ c.seqGen

@[simp]
theorem mem_used {seqGen s : Nat} : s ∈ used seqGen reserved ↔ s ≤ seqGen ∧ s ∉ reserved :=
  Iff.rfl

theorem used_mono {g g' : Nat} (h : g ≤ g') : used g reserved ⊆ used g' reserved :=
  fun _ hs => ⟨hs.left.trans h, hs.right⟩

theorem succ_not_mem_used {g : Nat} : g + 1 ∉ used g reserved :=
  fun h => absurd h.left (by omega)

theorem used_reserve {g : Nat} :
    used (g + 1) (Insert.insert (g + 1) reserved) = used g reserved := by
  ext s
  simp only [mem_used, Set.mem_insert_iff, not_or, ← and_assoc]
  exact and_congr_left' (by omega)

theorem insert_used {g s : Nat} (hg : s ≤ g) (hs : s ∉ reserved) :
    Insert.insert s (used g (Insert.insert s reserved)) = used g reserved := by
  ext s'
  by_cases h : s' = s <;> simp [h, hg, hs]

@[simp]
theorem ghosts_none {index : κ → Option (Node υ)} : ghosts index none = stamp index .ghost := by
  ext1; simp [ghosts]

-- A cache between two calls.
abbrev Quiescent (c : S3FifoCache κ υ) : Prop :=
  c.Inv none ∅

omit [DecidableEq κ] in
theorem compact_ok {cur : κ → Option Nat} {kind : Kind} {cap n : Nat} {q : List (κ × Nat)}
    {used : Set Nat} (h : Ok cur q used n)
    (hc : ∀ e ∈ q, cur e.1 = some e.2 → stamp c.index kind e.1 = some e.2) :
    Ok cur (c.compact kind cap q) used n := by
  unfold compact
  split
  · exact h.sweep fun e he hl => decide_eq_true (hc e he hl)
  · exact h

end S3FifoCache
end S3Fifo
