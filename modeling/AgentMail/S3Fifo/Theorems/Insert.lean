import AgentMail.S3Fifo.Theorems.Evict

open Function (update)
open Tombstone (Ok)

namespace S3Fifo.S3FifoCache

variable {κ υ : Type} [DecidableEq κ] {c c' : S3FifoCache κ υ} {mask : Option κ}
  {reserved : Set Nat}
variable {key : κ} {v : υ} {f s : Nat}

theorem update_stamp_of_ne {index : κ → Option (Node υ)} {kind : Kind} {n : Node υ}
    (h : stamp index kind key = none) (hk : n.kind ≠ kind) :
    stamp (update index key (some n)) kind = stamp index kind := by
  rw [stamp_update]
  exact Function.update_eq_self_iff.mpr (by simp [hk, h])

-- A key that is not a counted ghost takes a node of another kind.
theorem ghosts_update_live {index : κ → Option (Node υ)} {n : Node υ} (hn : n.kind ≠ .ghost)
    (hm : ∀ k ≠ key, mask ≠ some k) (hg : ghosts index mask key = none) :
    ghosts (update index key (some n)) none = ghosts index mask := by
  ext1 k
  by_cases hk : k = key
  case pos => simp [hk, hg, hn]
  case neg => simp [hk, ghosts, hm k hk]

theorem ghosts_update_ghost {index : κ → Option (Node υ)} (hm : mask ≠ some key) :
    ghosts (update index key (some <| .ghost s)) mask =
      update (ghosts index mask) key (some s) := by
  ext1 k
  by_cases hk : k = key
  case pos => simp [hk, ghosts, hm, Node.kind, Node.seq]
  case neg => simp [hk, ghosts]

omit [DecidableEq κ] in
theorem stamp_of_peek_none (h : c.peek key = none) {kind : Kind} (hk : kind ≠ .ghost) :
    stamp c.index kind key = none := by
  refine stamp_eq_none_iff.mpr fun n hn hn' => ?_
  cases n <;> simp_all [peek, Node.kind, Node.value?]

namespace Inv

theorem reserve (h : c.Inv mask reserved) :
    Inv { c with seqGen := c.seqGen + 1 } mask (Insert.insert (c.seqGen + 1) reserved) where
  small := h.small.mono used_reserve.symm.subset
  main  := h.main.mono used_reserve.symm.subset
  ghost := h.ghost.mono used_reserve.symm.subset
  reserved_le s hs := by
    cases hs
    case inl hs => exact hs.le
    case inr hs => exact Nat.le_succ_of_le (h.reserved_le s hs)
  __ := h

theorem freq_le_update (h : c.Inv mask reserved) {n : Node υ} (hn : n.freq ≤ 3) :
    ∀ k m, update c.index key (some n) k = some m → m.freq ≤ 3 := by
  intro k m hm
  by_cases hk : k = key
  case pos => simp_all
  case neg => exact h.freq_le k m (by simpa [hk] using hm)

theorem freq_le_erase {index : κ → Option (Node υ)} {b : Nat}
    (h : ∀ k n, index k = some n → n.freq ≤ b) :
    ∀ k n, update index key none k = some n → n.freq ≤ b := by
  intro k n hn
  by_cases hk : k = key
  case pos => simp [hk] at hn
  case neg => exact h k n (by simpa [hk] using hn)

section Push

-- The key enters a queue with a sequence number that was reserved for it.
variable (h : c.Inv mask (Insert.insert s reserved)) (hs : s ∉ reserved)

include h hs

theorem push_ok {cur : κ → Option Nat} {q : List (κ × Nat)} {n : Nat}
    (ho : Ok cur q (used c.seqGen (Insert.insert s reserved)) n) (hk : cur key = none) :
    Ok (update cur key (some s)) (q ++ [(key, s)]) (used c.seqGen reserved) (n + 1) := by
  have hp := ho.push hk fun hu => hu.right (Set.mem_insert ..)
  exact insert_used (h.reserved_le s (Set.mem_insert ..)) hs ▸ hp

theorem unreserve {cur : κ → Option Nat} {q : List (κ × Nat)} {n : Nat}
    (ho : Ok cur q (used c.seqGen (Insert.insert s reserved)) n) :
    Ok cur q (used c.seqGen reserved) n := by
  have hu := insert_used (h.reserved_le s (Set.mem_insert ..)) hs
  exact ho.mono (hu ▸ Set.subset_insert ..)

theorem pushSmall (hk : c.peek key = none) (hm : ∀ k ≠ key, mask ≠ some k)
    (hg : ghosts c.index mask key = none) (hc : c.smallLiveCount < c.smallCapacity)
    (hl : c.small.length ≤ limit c.smallCapacity) : (c.pushSmall key v s).Inv none reserved where
  small := by
    have ho := h.push_ok hs h.small (stamp_of_peek_none hk (by simp))
    simpa [S3FifoCache.pushSmall, Node.kind, Node.seq] using ho
  main := by
    have he : stamp (update c.index key (some <| .small v 0 s)) .main = stamp c.index .main :=
      update_stamp_of_ne (stamp_of_peek_none hk (by rintro ⟨⟩)) (by rintro ⟨⟩)
    exact he ▸ h.unreserve hs h.main
  ghost := by
    have he := ghosts_update_live (n := .small v 0 s) (by rintro ⟨⟩) hm hg
    exact he ▸ h.unreserve hs h.ghost
  small_le := hc
  small_len := by simpa [S3FifoCache.pushSmall] using hl
  freq_le := h.freq_le_update (Nat.zero_le _)
  reserved_le r hr := h.reserved_le r (Set.mem_insert_of_mem _ hr)
  __ := h

theorem pushMain (hk : c.peek key = none) (hm : ∀ k ≠ key, mask ≠ some k)
    (hg : ghosts c.index mask key = none) (hc : c.mainLiveCount < c.mainCapacity)
    (hl : c.main.length ≤ limit c.mainCapacity) : (c.pushMain key v s).Inv none reserved where
  small := by
    have he : stamp (update c.index key (some <| .main v 0 s)) .small = stamp c.index .small :=
      update_stamp_of_ne (stamp_of_peek_none hk (by rintro ⟨⟩)) (by rintro ⟨⟩)
    exact he ▸ h.unreserve hs h.small
  main := by
    have ho := h.push_ok hs h.main (stamp_of_peek_none hk (by simp))
    simpa [S3FifoCache.pushMain, Node.kind, Node.seq] using ho
  ghost := by
    have he := ghosts_update_live (n := .main v 0 s) (by rintro ⟨⟩) hm hg
    exact he ▸ h.unreserve hs h.ghost
  main_le := hc
  main_len := by simpa [S3FifoCache.pushMain] using hl
  freq_le := h.freq_le_update (Nat.zero_le _)
  reserved_le r hr := h.reserved_le r (Set.mem_insert_of_mem _ hr)
  __ := h

theorem pushGhost (hk : c.index key = none) (hm : mask ≠ some key)
    (hc : c.ghostLiveCount < c.ghostCapacity) (hl : c.ghost.length ≤ limit c.ghostCapacity) :
    (c.pushGhost key s).Inv mask reserved where
  small := by
    have he : stamp (update c.index key (some <| .ghost s)) .small = stamp c.index .small :=
      update_stamp_of_ne (by simp [stamp, hk]) (by rintro ⟨⟩)
    exact he ▸ h.unreserve hs h.small
  main := by
    have he : stamp (update c.index key (some <| .ghost s)) .main = stamp c.index .main :=
      update_stamp_of_ne (by simp [stamp, hk]) (by rintro ⟨⟩)
    exact he ▸ h.unreserve hs h.main
  ghost := by
    have hg : ghosts c.index mask key = none := by simp [ghosts, stamp, hk]
    exact ghosts_update_ghost hm ▸ h.push_ok hs h.ghost hg
  ghost_le := hc
  ghost_len := by simpa [S3FifoCache.pushGhost] using hl
  freq_le := h.freq_le_update (Nat.zero_le _)
  reserved_le r hr := h.reserved_le r (Set.mem_insert_of_mem _ hr)
  __ := h

end Push

-- The invariant across the two evictions that do not cascade.

theorem shrinkGhost (h : c.Inv mask reserved) {g : List (κ × Nat)} {index : κ → Option (Node υ)}
    {n : Nat} (ho : Ok (ghosts index mask) g (used c.seqGen reserved) n)
    (hn : n < c.ghostCapacity) (hl : g.length ≤ limit c.ghostCapacity)
    (hs : Shrinks .ghost c.index index) :
    Inv { c with ghost := g, index := index, ghostLiveCount := n } mask reserved where
  small := by
    have he : stamp index .small = stamp c.index .small := hs.stamp_eq nofun
    exact he ▸ h.small
  main := by
    have he : stamp index .main = stamp c.index .main := hs.stamp_eq nofun
    exact he ▸ h.main
  ghost := ho
  ghost_le := hn.le
  ghost_len := Nat.le_succ_of_le hl
  freq_le := hs.freq_le h.freq_le
  __ := h

theorem shrinkMain (h : c.Inv mask reserved) {q : List (κ × Nat)} {index : κ → Option (Node υ)}
    {g n : Nat} (ho : Ok (stamp index .main) q (used g reserved) n) (hn : n < c.mainCapacity)
    (hl : q.length ≤ limit c.mainCapacity) (hg : c.seqGen ≤ g) (hs : Shrinks .main c.index index) :
    Inv { c with main := q, index := index, seqGen := g, mainLiveCount := n } mask reserved where
  small := by
    have he : stamp index .small = stamp c.index .small := hs.stamp_eq nofun
    exact he ▸ h.small.mono (used_mono hg)
  main := ho
  ghost := by
    have he : stamp index .ghost = stamp c.index .ghost := hs.stamp_eq nofun
    have he : ghosts index mask = ghosts c.index mask := by
      ext1 k
      simp only [ghosts, he]
    exact he ▸ h.ghost.mono (used_mono hg)
  main_le := hn.le
  main_len := Nat.le_succ_of_le hl
  freq_le := hs.freq_le h.freq_le
  reserved_le r hr := (h.reserved_le r hr).trans hg
  __ := h

end Inv

-- What the evictions of an `insert` may do to the node of a key.
inductive Fate (mainCapacity : Nat) : Option (Node υ) → Option (Node υ) → Prop
  | keep o                        : Fate mainCapacity o o
  | requeue v f s f' s'           : Fate mainCapacity (some <| .main v f s) (some <| .main v f' s')
  | evictMain v f s               : Fate mainCapacity (some <| .main v f s) none
  | evictGhost s                  : Fate mainCapacity (some <| .ghost s) none
  | promote v f s s' (hf : f ≥ 1) : Fate mainCapacity (some <| .small v f s) (some <| .main v 0 s')
  | demote v f s s' (hf : f = 0 ∨ mainCapacity = 0) :
    Fate mainCapacity (some <| .small v f s) (some <| .ghost s')

omit [DecidableEq κ] in
theorem Shrinks.fate_ghost {index index' : κ → Option (Node υ)} (h : Shrinks .ghost index index')
    (mainCapacity : Nat) (k : κ) : Fate mainCapacity (index k) (index' k) := by
  cases h k
  case inl h => exact h ▸ .keep _
  case inr h =>
    have ⟨n, hn, hk, h⟩ := h
    cases hi : index' k
    case some n' => exact absurd (h n' hi).left nofun
    case none =>
      cases n <;> simp only [Node.kind, reduceCtorEq] at hk
      case ghost s => exact hn ▸ .evictGhost s

omit [DecidableEq κ] in
theorem Shrinks.fate_main {index index' : κ → Option (Node υ)} (h : Shrinks .main index index')
    (mainCapacity : Nat) (k : κ) : Fate mainCapacity (index k) (index' k) := by
  cases h k
  case inl h => exact h ▸ .keep _
  case inr h =>
    have ⟨n, hn, hk, h⟩ := h
    cases n <;> simp only [Node.kind, reduceCtorEq] at hk
    case main v f s =>
    cases hi : index' k
    case none => exact hn ▸ .evictMain v f s
    case some n' =>
      have hk' := (h n' hi).right.left
      have hv  := (h n' hi).right.right.left
      cases n' <;> simp only [Node.kind, reduceCtorEq] at hk'
      case main v' f' s' =>
        simp only [Node.value?, Option.some.injEq] at hv
        exact hn ▸ hv ▸ .requeue v' f s f' s'

omit [DecidableEq κ] in
theorem Shrinks.none {kind : Kind} {index index' : κ → Option (Node υ)}
    (h : Shrinks kind index index') (hk : index key = none) : index' key = none := by
  cases h key
  case inl h => exact h.trans hk
  case inr h =>
    have ⟨_, hn, _⟩ := h
    exact absurd (hk.symm.trans hn) nofun

structure SameCapacity (c c' : S3FifoCache κ υ) : Prop where
  smallCapacity : c'.smallCapacity = c.smallCapacity
  mainCapacity  : c'.mainCapacity = c.mainCapacity
  ghostCapacity : c'.ghostCapacity = c.ghostCapacity

namespace SameCapacity

omit [DecidableEq κ] in
theorem trans {c₁ c₂ c₃ : S3FifoCache κ υ} (h : SameCapacity c₁ c₂) (h' : SameCapacity c₂ c₃) :
    SameCapacity c₁ c₃ where
  smallCapacity := h'.smallCapacity.trans h.smallCapacity
  mainCapacity  := h'.mainCapacity.trans h.mainCapacity
  ghostCapacity := h'.ghostCapacity.trans h.ghostCapacity

omit [DecidableEq κ] in
theorem capacity_eq (h : SameCapacity c c') : c'.capacity = c.capacity := by
  simp [capacity, h.smallCapacity, h.mainCapacity]

end SameCapacity

-- All that the evictions of an `insert` do to a cache, from the outside.
structure Evicts (c c' : S3FifoCache κ υ) : Prop extends SameCapacity c c' where
  fate : ∀ k, Fate c.mainCapacity (c.index k) (c'.index k)

-- The entry of `key` has just been taken out of Small, and now finds its place elsewhere.
theorem leaveSmall_spec (h : c.Inv mask reserved) (hk : c.index key = none) (hm : mask ≠ some key)
    (hg : mask = none ∨ c.mainCapacity = 0 ∧ c.ghostLiveCount < c.ghostCapacity) :
    ∃ c', c.leaveSmall key v f = some c' ∧ c'.Inv mask reserved ∧ c'.small = c.small ∧
      c'.smallLiveCount = c.smallLiveCount ∧
      Evicts { c with index := update c.index key (some <| .small v f s) } c' := by
  have h₀ := h.reserve
  have hr : c.seqGen + 1 ∉ reserved := fun hs => absurd (h.reserved_le _ hs) (by omega)
  -- Into Ghost.
  have ghost (hf : f = 0 ∨ c.mainCapacity = 0) :
      ∃ c₁, evictGhostIfFull { c with seqGen := c.seqGen + 1 } = some c₁ ∧
        (c₁.pushGhost key (c.seqGen + 1)).Inv mask reserved ∧ c₁.small = c.small ∧
        c₁.smallLiveCount = c.smallLiveCount ∧
        Evicts { c with index := update c.index key (some <| .small v f s) }
          (c₁.pushGhost key (c.seqGen + 1)) := by
    obtain ⟨g, index, n, he, ho, hn, hl, hs⟩ := evictGhostIfFull_spec h₀ (hg.imp_right And.right)
    have h₁ := h₀.shrinkGhost ho hn hl hs
    refine ⟨_, he, h₁.pushGhost hr (hs.none hk) hm hn hl, rfl, rfl, ⟨rfl, rfl, rfl⟩, fun k => ?_⟩
    by_cases hk : k = key
    case pos => simpa [hk, S3FifoCache.pushGhost] using .demote v f s _ hf
    case neg => simpa [hk, S3FifoCache.pushGhost] using hs.fate_ghost c.mainCapacity k
  simp only [leaveSmall]
  by_cases hf : f ≥ 1
  case neg =>
    obtain ⟨c₁, he, hi, hs, hl, hev⟩ := ghost (.inl <| by omega)
    exact ⟨_, by rw [if_neg hf, he]; rfl, hi, hs, hl, hev⟩
  by_cases hc : c.mainCapacity = 0
  case pos =>
    obtain ⟨c₁, he, hi, hs, hl, hev⟩ := ghost (.inr hc)
    exact ⟨_, by rw [if_pos hf, if_pos hc, he]; rfl, hi, hs, hl, hev⟩
  case neg =>
    -- Into Main, which does not happen during a ghost hit.
    have hm : mask = none := hg.resolve_right (hc ·.left)
    subst hm
    obtain ⟨q, index, g, n, he, ho, hn, hl, hle, hs⟩ :=
      evictMainIfFull_spec h₀ (Nat.pos_of_ne_zero hc)
    have h₁ := h₀.shrinkMain ho hn hl hle hs
    have hi : index key = none := hs.none hk
    have hp := h₁.pushMain (v := v) hr (congrArg (·.bind Node.value?) hi) (by rintro _ _ ⟨⟩)
      (by simp [stamp, hi]) hn hl
    refine ⟨_, by rw [if_pos hf, if_neg hc, he]; rfl, hp, rfl, rfl, ⟨rfl, rfl, rfl⟩, fun k => ?_⟩
    by_cases hk : k = key
    case pos => simpa [hk, S3FifoCache.pushMain] using .promote v f s _ hf
    case neg => simpa [hk, S3FifoCache.pushMain] using hs.fate_main c.mainCapacity k

omit [DecidableEq κ] in
theorem Evicts.refl (c : S3FifoCache κ υ) (small : List (κ × Nat)) :
    Evicts c { c with small := small } where
  smallCapacity := rfl
  mainCapacity  := rfl
  ghostCapacity := rfl
  fate _        := .keep _

theorem evictSmallLoop_room {q : List (κ × Nat)} (h : c.smallLiveCount < c.smallCapacity) :
    evictSmallLoop q c = some { c with small := q } := by
  cases q
  case nil  => rfl
  case cons => exact if_neg (by omega)

theorem evictSmallLoop_dead {e : κ × Nat} {rest : List (κ × Nat)}
    (hf : c.smallLiveCount ≥ c.smallCapacity) (hl : stamp c.index .small e.1 ≠ some e.2) :
    evictSmallLoop (e :: rest) c = evictSmallLoop rest c := by
  simp only [evictSmallLoop, if_pos hf]
  split
  case h_1 v f s hv => exact if_neg fun hs => hl (by simp [stamp, hv, Node.kind, Node.seq, hs])
  case h_2 => rfl

theorem evictSmallLoop_live {e : κ × Nat} {rest : List (κ × Nat)} {m : Nat}
    (hf : c.smallLiveCount ≥ c.smallCapacity) (hv : c.index e.1 = some (.small v f e.2))
    (hm : c.smallLiveCount = m + 1)
    (hc : leaveSmall { c with small := rest, index := update c.index e.1 none, smallLiveCount := m }
      e.1 v f = some c') :
    evictSmallLoop (e :: rest) c = evictSmallLoop rest c' := by
  rw [evictSmallLoop, if_pos hf]
  simp only [hv, hm, decr, if_true]
  show (leaveSmall _ e.1 v f).bind _ = _
  rw [hc]
  rfl

-- The key of a live entry leaves the index.
theorem Inv.popSmall {e : κ × Nat} {rest : List (κ × Nat)}
    (h : Inv { c with small := e :: rest } mask reserved)
    (hv : c.index e.1 = some (.small v f e.2)) :
    ∃ m, c.smallLiveCount = m + 1 ∧
      Inv { c with small := rest, index := update c.index e.1 none, smallLiveCount := m }
        mask reserved := by
  have hl : stamp c.index .small e.1 = some e.2 := stamp_eq_some_iff.mpr ⟨_, hv, rfl, rfl⟩
  obtain ⟨m, hm, ho⟩ := h.small.pop_live hl
  refine ⟨m, hm, { h with
    small := ?_, main := ?_, ghost := ?_, small_le := ?_, small_len := ?_, freq_le := ?_ }⟩
  · simpa using ho
  · exact stamp_erase_of_ne hv .main (by rintro ⟨⟩) ▸ h.main
  · have he : ghosts (update c.index e.1 none) mask = ghosts c.index mask := by
      ext1 k
      rw [ghosts, ghosts, stamp_erase_of_ne hv .ghost (by rintro ⟨⟩)]
    exact he ▸ h.ghost
  · exact Nat.le_of_succ_le (hm ▸ h.small_le :)
  · exact Nat.le_of_succ_le h.small_len
  · exact freq_le_erase h.freq_le

-- There is at most one live entry to evict, after that the loop finds room.
theorem evictSmallLoop_spec {q : List (κ × Nat)} (h : Inv { c with small := q } mask reserved)
    (hm : ∀ k, mask = some k → c.peek k = none)
    (hg : mask = none ∨ c.mainCapacity = 0 ∧ c.ghostLiveCount < c.ghostCapacity) :
    ∃ c', evictSmallLoop q c = some c' ∧ c'.Inv mask reserved ∧
      c'.smallLiveCount < c'.smallCapacity ∧ c'.small.length ≤ q.length ∧ Evicts c c' := by
  by_cases hf : c.smallLiveCount < c.smallCapacity
  case pos => exact ⟨_, evictSmallLoop_room hf, h, hf, le_rfl, .refl c q⟩
  induction q
  case nil =>
    have hn : c.smallLiveCount = 0 := h.small.count.symm
    exact absurd (hn ▸ h.small_pos) hf
  case cons e rest hi =>
    by_cases hl : stamp c.index .small e.1 = some e.2
    case neg =>
      rw [evictSmallLoop_dead (Nat.le_of_not_lt hf) hl]
      have hr : Inv { c with small := rest } mask reserved :=
        { h with small := h.small.pop_dead hl, small_len := Nat.le_of_succ_le h.small_len }
      obtain ⟨c', he, hi, hc, hl, hev⟩ := hi hr
      exact ⟨c', he, hi, hc, hl.trans (Nat.le_succ _), hev⟩
    case pos =>
      obtain ⟨n, hv, hk, hs⟩ := stamp_eq_some_iff.mp hl
      cases n <;> simp only [Node.kind, reduceCtorEq] at hk
      case small v f s =>
      cases hs
      obtain ⟨m, hc, h₁⟩ := h.popSmall hv
      have hk : mask ≠ some e.1 := by
        intro he
        have hp := hm _ he
        simp [peek, hv, Node.value?] at hp
      obtain ⟨c', he, hi, hs, hl, hev⟩ :=
        leaveSmall_spec (v := v) (f := f) (s := e.2) h₁ (Function.update_self ..) hk hg
      have hlt : c'.smallLiveCount < c'.smallCapacity := by
        rw [hl, hev.smallCapacity]
        exact Nat.lt_of_succ_le (hc ▸ h.small_le :)
      refine ⟨c', ?_, hi, hlt, by simp [hs], ?_⟩
      · have hs : rest = c'.small := hs.symm
        rw [evictSmallLoop_live (Nat.le_of_not_lt hf) hv hc he, evictSmallLoop_room hlt, hs]
      · have hu : update (update c.index e.1 none) e.1 (some <| .small v f e.2) = c.index := by
          rw [Function.update_idem, ← hv, Function.update_eq_self]
        have hf := hev.fate
        simp only [hu] at hf
        exact ⟨⟨hev.smallCapacity, hev.mainCapacity, hev.ghostCapacity⟩, hf⟩

theorem evictSmallIfFull_spec (h : c.Inv mask reserved) (hm : ∀ k, mask = some k → c.peek k = none)
    (hg : mask = none ∨ c.mainCapacity = 0 ∧ c.ghostLiveCount < c.ghostCapacity) :
    ∃ c', c.evictSmallIfFull = some c' ∧ c'.Inv mask reserved ∧
      c'.smallLiveCount < c'.smallCapacity ∧ c'.small.length ≤ limit c'.smallCapacity ∧
      Evicts c c' := by
  have hl : (c.compact .small c.smallCapacity c.small).length ≤ limit c.smallCapacity :=
    length_compact_le <| h.small.count.trans_le h.small_le
  have h₁ : Inv { c with small := c.compact .small c.smallCapacity c.small } mask reserved :=
    { h with small := compact_ok h.small fun _ _ => id, small_len := Nat.le_succ_of_le hl }
  have ⟨c', he, hi, hc, hs, hev⟩ := evictSmallLoop_spec h₁ hm hg
  exact ⟨c', he, hi, hc, hev.smallCapacity ▸ hs.trans hl, hev⟩

omit [DecidableEq κ] in
theorem Fate.value_none {n : Nat} {o o' : Option (Node υ)} (h : Fate n o o')
    (ho : o.bind Node.value? = none) : o'.bind Node.value? = none := by
  cases h <;> simp_all [Node.value?]

omit [DecidableEq κ] in
theorem Fate.of_none {n : Nat} {o' : Option (Node υ)} (h : Fate n none o') : o' = none := by
  cases h
  case keep => rfl

-- What an `insert` does to a cache, from the outside.
inductive Inserts (key : κ) (v : υ) (c c' : S3FifoCache κ υ) : Prop
  | hit (n : Node υ) (hn : c.index key = some n) (hv : n.value?.isSome)
    (index : c'.index = update c.index key (some <| n.hit fun _ => v))
  | miss (n : Node υ) (hp : c.peek key = none) (hn : c'.index key = some n)
    (hv : n.value? = some v) (hf : n.freq = 0)
    (fate : ∀ k ≠ key, Fate c.mainCapacity (c.index k) (c'.index k))

theorem Inserts.of_same {c₀ : S3FifoCache κ υ} (h : Inserts key v c₀ c') (hi : c₀.index = c.index)
    (hm : c₀.mainCapacity = c.mainCapacity) : Inserts key v c c' := by
  cases h
  case hit n hn hv hc        => exact .hit n (hi ▸ hn) hv (hi ▸ hc)
  case miss n hp hn hv hf hc => exact .miss n (by rwa [peek, ← hi]) hn hv hf (hi ▸ hm ▸ hc)

section Miss

-- The two ways in which an `insert` of a key without a value ends. The key is either unknown, or it
-- is the ghost that was hit.
variable (h : c.Inv mask (Insert.insert s ∅)) (hk : c.peek key = none)
variable (hm : mask = none ∧ c.index key = none ∨ mask = some key)

omit [DecidableEq κ] in
include hm in
theorem mask_ne_some : ∀ k ≠ key, mask ≠ some k := by
  cases hm
  case inl hm => simp [hm.left]
  case inr hm => simp [hm, eq_comm]

include hm in
theorem Evicts.ghosts_eq_none (he : Evicts c c') : ghosts c'.index mask key = none := by
  cases hm
  case inr hm => simp [hm, ghosts]
  case inl hm =>
    have hn : c'.index key = none := (hm.right ▸ he.fate key).of_none
    simp [ghosts, stamp, hn]

include h hk hm

theorem insertSmall_spec
    (hg : mask = none ∨ c.mainCapacity = 0 ∧ c.ghostLiveCount < c.ghostCapacity) :
    ∃ c', c.evictSmallIfFull = some c' ∧ (c'.pushSmall key v s).Quiescent ∧
      SameCapacity c (c'.pushSmall key v s) ∧ Inserts key v c (c'.pushSmall key v s) := by
  have hp : ∀ k, mask = some k → c.peek k = none := by
    intro k hk'
    cases hm
    case inl hm => simp [hm.left] at hk'
    case inr hm => exact Option.some_inj.mp (hm ▸ hk') ▸ hk
  have ⟨c', he, h', hl, hlen, hev⟩ := evictSmallIfFull_spec h hp hg
  have hk' : c'.peek key = none := (hev.fate key).value_none hk
  have hq := h'.pushSmall (v := v) nofun hk' (mask_ne_some hm) (hev.ghosts_eq_none hm) hl hlen
  refine ⟨c', he, hq, { hev with }, .miss _ hk (Function.update_self ..) rfl rfl fun k hk => ?_⟩
  simpa [S3FifoCache.pushSmall, hk] using hev.fate k

theorem insertMain_spec (hc : 0 < c.mainCapacity) :
    ∃ c', c.evictMainIfFull = some c' ∧ (c'.pushMain key v s).Quiescent ∧
      SameCapacity c (c'.pushMain key v s) ∧ Inserts key v c (c'.pushMain key v s) := by
  have ⟨q, index, g, n, he, ho, hn, hl, hg, hs⟩ := evictMainIfFull_spec h hc
  have h' := h.shrinkMain ho hn hl hg hs
  have hev : Evicts c { c with main := q, index := index, seqGen := g, mainLiveCount := n } :=
    ⟨⟨rfl, rfl, rfl⟩, hs.fate_main _⟩
  have hk' : peek { c with main := q, index := index, seqGen := g, mainLiveCount := n } key =
      none :=
    (hev.fate key).value_none hk
  have hq := h'.pushMain (v := v) nofun hk' (mask_ne_some hm) (hev.ghosts_eq_none hm) hn hl
  refine ⟨_, he, hq, { hev with }, .miss _ hk (Function.update_self ..) rfl rfl fun k hk => ?_⟩
  simpa [S3FifoCache.pushMain, hk] using hev.fate k

end Miss

-- The ghost that was hit is no longer counted.
theorem Inv.hitGhost (h : c.Inv none reserved) (hk : c.index key = some (.ghost s)) :
    ∃ m, c.ghostLiveCount = m + 1 ∧ Inv { c with ghostLiveCount := m } (some key) reserved := by
  have hs : stamp c.index .ghost key = some s := stamp_eq_some_iff.mpr ⟨_, hk, rfl, rfl⟩
  have ⟨m, hm, ho⟩ := h.ghost.erase (k := key) (s := s) (by simpa using hs)
  have hg : update (ghosts c.index none) key none = ghosts c.index (some key) := by
    ext1 k
    by_cases hk : k = key
    case pos => simp [hk, ghosts]
    case neg => simp [hk, ghosts, Ne.symm hk]
  exact ⟨m, hm, { h with ghost := hg ▸ ho, ghost_le := Nat.le_of_succ_le (hm ▸ h.ghost_le :) }⟩

-- A hit changes neither the kind of a node nor its sequence number.
theorem Inv.hit (h : c.Inv mask reserved) {n : Node υ} (hk : c.index key = some n) (w : υ → υ) :
    Inv { c with index := update c.index key (some <| n.hit w) } mask reserved := by
  have hkind : (n.hit w).kind = n.kind := by cases n <;> rfl
  have hseq  : (n.hit w).seq = n.seq := by cases n <;> rfl
  have hs := stamp_update_same hk hkind hseq
  have hg : ghosts (update c.index key (some <| n.hit w)) mask = ghosts c.index mask := by
    ext1 k
    simp only [ghosts, hs]
  have hf : (n.hit w).freq ≤ 3 := by cases n <;> simp [Node.hit, Node.freq]
  exact { h with
    small   := hs .small ▸ h.small
    main    := hs .main ▸ h.main
    ghost   := hg ▸ h.ghost
    freq_le := h.freq_le_update hf }

-- A sequence number may also be skipped.
theorem Inv.skip (h : c.Inv mask reserved) : Inv { c with seqGen := c.seqGen + 1 } mask reserved :=
  { h with
    small       := h.small.mono (used_mono (Nat.le_succ _))
    main        := h.main.mono (used_mono (Nat.le_succ _))
    ghost       := h.ghost.mono (used_mono (Nat.le_succ _))
    reserved_le := fun s hs => Nat.le_succ_of_le (h.reserved_le s hs) }

theorem insert_hit {n : Node υ} (hk : c.index key = some n) (hv : n.value?.isSome) :
    c.insert key v = some { c with
      seqGen := c.seqGen + 1, index := update c.index key (some <| n.hit fun _ => v) } := by
  cases n
  case ghost => exact absurd hv nofun
  all_goals simp [S3FifoCache.insert, hk]

theorem insert_spec (h : c.Quiescent) (key : κ) (v : υ) :
    ∃ c', c.insert key v = some c' ∧ c'.Quiescent ∧ SameCapacity c c' ∧ Inserts key v c c' := by
  cases hk : c.index key
  case none =>
    obtain ⟨c', he, hq, hc, hi⟩ :=
      insertSmall_spec (v := v) h.reserve (by simp [peek, hk]) (.inl ⟨rfl, hk⟩) (.inl rfl)
    exact ⟨_, by simp [S3FifoCache.insert, hk, he], hq, { hc with }, hi.of_same rfl rfl⟩
  case some n =>
    cases hv : n.value?
    case some =>
      have hv : n.value?.isSome := by simp [hv]
      exact ⟨_, insert_hit hk hv, h.skip.hit hk _, ⟨rfl, rfl, rfl⟩, .hit n hk hv rfl⟩
    case none =>
      cases n <;> simp only [Node.value?, reduceCtorEq] at hv
      case ghost s =>
      obtain ⟨m, hm, h₁⟩ := h.reserve.hitGhost hk
      have hm : c.ghostLiveCount = m + 1 := hm
      have hlt : m < c.ghostCapacity := Nat.lt_of_succ_le (hm ▸ h.ghost_le :)
      have hp : c.peek key = none := by simp [peek, hk, Node.value?]
      by_cases hc : c.mainCapacity = 0
      case pos =>
        obtain ⟨c', he, hq, hcap, hi⟩ := insertSmall_spec (v := v) h₁ hp (.inr rfl) (.inr ⟨hc, hlt⟩)
        refine ⟨_, ?_, hq, { hcap with }, hi.of_same rfl rfl⟩
        simp only [S3FifoCache.insert, hk, hm, decr, Option.bind_eq_bind, Option.bind_some]
        rw [if_pos hc, he]
        rfl
      case neg =>
        obtain ⟨c', he, hq, hcap, hi⟩ :=
          insertMain_spec (v := v) h₁ hp (.inr rfl) (Nat.pos_of_ne_zero hc)
        refine ⟨_, ?_, hq, { hcap with }, hi.of_same rfl rfl⟩
        simp only [S3FifoCache.insert, hk, hm, decr, Option.bind_eq_bind, Option.bind_some]
        rw [if_neg hc, he]
        rfl

end S3Fifo.S3FifoCache
