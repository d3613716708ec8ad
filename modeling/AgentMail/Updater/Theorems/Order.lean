import AgentMail.Updater.Theorems.Basic
import Mathlib.Algebra.Order.Group.Multiset

open List (Perm)

namespace Updater

variable {ι : Type} {s s' : State ι} {key : DocKey}

namespace State

-- Every change has the number of its place among the accepted ones.
def Numbered (s : State ι) : Prop :=
  s.accepted.map (·.seq) = List.range s.accepted.length

theorem Numbered.pairwise (h : s.Numbered) : s.accepted.Pairwise fun e e' => e.seq < e'.seq := by
  have hp := List.pairwise_lt_range (n := s.accepted.length)
  rw [← h] at hp
  exact List.pairwise_map.mp hp

theorem Numbered.nodup (h : s.Numbered) : (s.accepted.map (·.seq)).Nodup :=
  h ▸ List.nodup_range

-- All changes, in the order in which they are to be applied if no flushes overlap.
def ledger (s : State ι) : List Entry :=
  s.applied ++ s.held ++ s.pending.changes

theorem held_congr (h : s'.flushes.rows = s.flushes.rows) : s'.held = s.held :=
  congrArg (List.flatMap fun x : ι × Flush => x.2.held) h

theorem held_append {next : List (ι × Flush)} (h : s'.flushes.rows = s.flushes.rows ++ next) :
    s'.held = s.held ++ next.flatMap (·.2.held) := by
  rw [held, h, List.flatMap_append, held]

variable [DecidableEq ι] {t : ι} {flush : Flush} {e : Event ι}

theorem Numbered.moves (h : s.Numbered) (hm : Moves s s' e) : s'.Numbered := by
  rw [Numbered] at h ⊢
  cases hm
  case keep _ _ _ ha _                 => rw [ha, h]
  case drain _ _ _ _ ha _              => rw [ha, h]
  case advance _ _ _ _ _ _ ha _        => rw [ha, h]
  case accept e hs _ _ _ ha _          => simp [ha, h, hs, List.range_succ]

theorem ledger_perm_of_moves (h : s.ledger.Perm s.accepted) (hm : Moves s s' e) :
    s'.ledger.Perm s'.accepted := by
  cases hm
  case keep hr hq happ ha _ =>
    rwa [ledger, held_congr hr, hq, happ, ha]
  case accept e _ hr hq happ ha _ =>
    rw [ledger, held_congr hr, hq, happ, ha, ← List.append_assoc]
    exact h.append_right [e]
  case drain t hr _ hq happ ha _ =>
    rw [ledger, held_append hr, hq, happ, ha]
    simpa [ledger, Flush.held] using h
  case advance t flush p r q next hg hf hr hnext hheld hq happ ha _ =>
    rw [ledger, held_append hr, hheld, hq, happ, ha]
    refine Perm.trans ?_ h
    have hp := Multiset.coe_eq_coe.mpr (held_leave hg)
    rw [hf] at hp
    rw [ledger, ← Multiset.coe_eq_coe]
    simp only [← Multiset.coe_add] at hp ⊢
    rw [hp]
    ac_rfl

-- The order of the changes of each document, of which only one running flush holds some.
structure Ordered (s : State ι) : Prop where
  numbered : s.Numbered
  ledger   : ∀ key, s.ledger.filter (·.key = key) = s.accepted.filter (·.key = key)
  disjoint : ∀ x ∈ s.flushes.rows, ∀ y ∈ s.flushes.rows, x.1 ≠ y.1 →
    ∀ a ∈ x.2.held, ∀ b ∈ y.2.held, a.key ≠ b.key

theorem sublist_held_leave : (s.leave t).held.Sublist s.held :=
  List.filter_sublist.flatMap _

theorem sublist_held (h : s.flushes.get? t = some (t, flush)) : flush.held.Sublist s.held :=
  List.sublist_flatten_of_mem (List.mem_map_of_mem (f := fun x : ι × Flush => x.2.held)
    (Table.get?_eq_some_iff.mp h).left)

-- The changes of a document are those of the flush or those of the others.
theorem Ordered.filter_held (h : s.Ordered) (hg : s.flushes.get? t = some (t, flush))
    (key : DocKey) :
    flush.held.filter (·.key = key) = [] ∧
      s.held.filter (·.key = key) = (s.leave t).held.filter (·.key = key) ∨
    (s.leave t).held.filter (·.key = key) = [] ∧
      s.held.filter (·.key = key) = flush.held.filter (·.key = key) := by
  have hp := ((held_leave hg).filter (·.key = key)).length_eq
  rw [List.filter_append, List.length_append] at hp
  by_cases hf : flush.held.filter (·.key = key) = []
  case pos =>
    refine .inl ⟨hf, ((sublist_held_leave.filter _).eq_of_length ?_).symm⟩
    rw [hp, hf, List.length_nil, Nat.zero_add]
  case neg =>
    have ⟨a, ha⟩ := List.exists_mem_of_ne_nil _ hf
    have ⟨ha, hk⟩ := List.mem_filter.mp ha
    have hl : (s.leave t).held.filter (·.key = key) = [] := by
      refine List.filter_eq_nil_iff.mpr fun b hb hk' => ?_
      have ⟨y, hy, hb⟩ := List.mem_flatMap.mp hb
      have ⟨hy, hne⟩ := List.mem_filter.mp hy
      have hx := (Table.get?_eq_some_iff.mp hg).left
      refine h.disjoint _ hx y hy ?_ a ha b hb
        ((of_decide_eq_true hk).trans (of_decide_eq_true hk').symm)
      have hne : y.1 ≠ t := by simpa using hne
      exact hne.symm
    refine .inr ⟨hl, ((sublist_held hg).filter _ |>.eq_of_length ?_).symm⟩
    rw [hp, hl, List.length_nil, Nat.add_zero]

theorem Ordered.moves (h : s.Ordered) (hm : Moves s s' e) (hc : Meets s e) : s'.Ordered := by
  refine ⟨h.numbered.moves hm, ?_, ?_⟩
  case refine_1 =>
    intro key
    have hl := h.ledger key
    cases hm
    case keep hr hq happ ha _ => rwa [State.ledger, held_congr hr, hq, happ, ha]
    case accept e _ hr hq happ ha _ =>
      rw [State.ledger, held_congr hr, hq, happ, ha, ← List.append_assoc, List.filter_append,
        List.filter_append s.accepted]
      exact congrArg (· ++ _) hl
    case drain t hr _ hq happ ha _ =>
      rw [State.ledger, held_append hr, hq, happ, ha]
      simpa [State.ledger, Flush.held] using hl
    case advance t flush p r q next hg hf hr hnext hheld hq happ ha _ =>
      rw [State.ledger, held_append hr, hheld, hq, happ, ha, ← hl, State.ledger]
      simp only [List.filter_append]
      cases h.filter_held hg key
      case inl hc =>
        obtain ⟨hn, he⟩ := hc
        rw [hf] at hn
        simp only [List.filter_append, List.append_eq_nil_iff] at hn
        simp [he, hn]
      case inr hc =>
        obtain ⟨hn, he⟩ := hc
        rw [he, hn, hf]
        simp
  case refine_2 =>
    have hd := h.disjoint
    cases hm
    case keep hr _ _ _ _       => rwa [hr]
    case accept _ _ hr _ _ _ _ => rwa [hr]
    case drain t hr hg _ _ _ _ =>
      rw [hr]
      have hnew (x) (hx : x ∈ s.flushes.rows) (a) (ha : a ∈ x.2.held) (b)
          (hb : b ∈ s.pending.changes) : b.key ≠ a.key :=
        hc b hb a (List.mem_flatMap.mpr ⟨x, hx, ha⟩)
      intro x hx y hy hne a ha b hb
      cases List.mem_append.mp hx
      case inl hx =>
        cases List.mem_append.mp hy
        case inl hy => exact hd x hx y hy hne a ha b hb
        case inr hy =>
          cases List.mem_singleton.mp hy
          exact (hnew x hx a ha b hb).symm
      case inr hx =>
        cases List.mem_singleton.mp hx
        cases List.mem_append.mp hy
        case inl hy => exact hnew y hy b hb a ha
        case inr hy =>
          cases List.mem_singleton.mp hy
          exact absurd rfl hne
    case advance t flush p r q next hg hf hr hnext hheld _ _ _ _ =>
      rw [hr]
      have ht := (Table.get?_eq_some_iff.mp hg).left
      have hin (x) (hx : x ∈ next) (a) (ha : a ∈ x.2.held) : a ∈ flush.held := by
        have ha : a ∈ r := hheld ▸ List.mem_flatMap.mpr ⟨x, hx, ha⟩
        simp [hf, ha]
      have hold (x) (hx : x ∈ (s.leave t).flushes.rows) : x ∈ s.flushes.rows ∧ t ≠ x.1 := by
        obtain ⟨hx, hne⟩ := List.mem_filter.mp hx
        have hne : x.1 ≠ t := by simpa using hne
        exact ⟨hx, hne.symm⟩
      intro x hx y hy hne a ha b hb
      cases List.mem_append.mp hx
      case inl hx =>
        obtain ⟨hx, hxt⟩ := hold x hx
        cases List.mem_append.mp hy
        case inl hy => exact hd x hx y (hold y hy).left hne a ha b hb
        case inr hy => exact (hd _ ht x hx hxt b (hin y hy b hb) a ha).symm
      case inr hx =>
        cases List.mem_append.mp hy
        case inl hy =>
          obtain ⟨hy, hyt⟩ := hold y hy
          exact hd _ ht y hy hyt a (hin x hx a ha) b hb
        case inr hy => exact absurd ((hnext x hx).trans (hnext y hy).symm) hne

omit [DecidableEq ι] in
theorem Ordered.inOrder (h : s.Ordered) : s.InOrder := by
  intro key
  have hs := h.numbered.pairwise.filter (·.key = key)
  rw [← h.ledger key, State.ledger, List.filter_append, List.filter_append, List.append_assoc] at hs
  exact (List.pairwise_append.mp hs).left

omit [DecidableEq ι] in
-- What the flushes hold has been accepted before what is pending.
theorem Ordered.lt_of_held (h : s.Ordered) {a b : Entry} (ha : a ∈ s.held)
    (hb : b ∈ s.pending.changes) (hk : a.key = b.key) : a.seq < b.seq := by
  have hs := h.numbered.pairwise.filter (·.key = b.key)
  rw [← h.ledger b.key, State.ledger, List.filter_append] at hs
  refine (List.pairwise_append.mp hs).right.right a ?_ b ?_
  · simp [ha, hk]
  · simp [hb]

end State

section Index

variable [DecidableEq ι] {e : Event ι}

theorem index_of_moves {index : Index} (h : s.index = index.applyAll (s.applied.map Entry.change))
    (hm : Moves s s' e) : s'.index = index.applyAll (s'.applied.map Entry.change) := by
  cases hm
  case keep _ _ happ _ hi         => rw [hi, happ, h]
  case accept _ _ _ _ happ _ hi   => rw [hi, happ, h]
  case drain _ _ _ _ happ _ hi    => rw [hi, happ, h]
  case advance happ _ hi =>
    rw [hi, happ, h, List.map_append]
    exact List.foldl_append.symm

omit [DecidableEq ι] in
theorem settled_of_ordered {index : Index}
    (h : s.index = index.applyAll (s.applied.map Entry.change)) (ho : s.Ordered)
    (hq : s.pending.changes = []) (hf : s.flushes.rows = []) : s.Settled index := by
  intro key
  have hl := ho.ledger key
  rw [State.ledger, State.held, hq, hf, List.flatMap_nil, List.append_nil, List.append_nil] at hl
  have hm : (s.applied.map Entry.change).filter (·.key = key) =
      (s.applied.filter (·.key = key)).map Entry.change :=
    List.filter_map
  rw [h, applyAll_eq, ← hl, hm, List.getLast?_map]
  cases (s.applied.filter (·.key = key)).getLast? <;> rfl

end Index

end Updater
