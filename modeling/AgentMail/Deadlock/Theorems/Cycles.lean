import AgentMail.Deadlock.Theorems.Tarjan

open Digraph
open Function (update)
open Pattern (Str)

namespace Deadlock

variable {graph graph' : ProjectConflictGraph} {agents : List Str} {a b : Str}

section Agents

theorem nodup_addAgent (h : agents.Nodup) : (addAgent agents a).Nodup := by
  rw [addAgent]
  split
  case isTrue  => exact h
  case isFalse hn =>
    rw [List.nodup_append]
    exact ⟨h, List.nodup_singleton a, fun b hb c hc he => hn (List.mem_singleton.mp hc ▸ he ▸ hb)⟩

theorem mem_addAgent : b ∈ addAgent agents a ↔ b ∈ agents ∨ b = a := by
  rw [addAgent]
  split
  case isTrue hm =>
    refine ⟨.inl, ?_⟩
    rintro (h | rfl)
    · exact h
    · exact hm
  case isFalse => simp

theorem nodup_foldl_addAgent {edges : List HardEdge} (h : agents.Nodup) :
    (edges.foldl (fun agents edge => addAgent agents edge.blocked) agents).Nodup := by
  induction edges generalizing agents
  case nil          => exact h
  case cons e es hi => exact hi (nodup_addAgent h)

theorem mem_foldl_addAgent {edges : List HardEdge} :
    b ∈ edges.foldl (fun agents edge => addAgent agents edge.blocked) agents ↔ b ∈ agents ∨
      ∃ e ∈ edges, e.blocked = b := by
  induction edges generalizing agents
  case nil => simp
  case cons e es hi =>
    rw [List.foldl_cons, hi, mem_addAgent]
    simp only [List.mem_cons, exists_eq_or_imp, or_assoc, eq_comm (a := b)]

theorem nodup_agentsOf : (agentsOf graph).Nodup := by
  rw [agentsOf]
  generalize graph.hardEdges = rows
  have h {agents : List Str} (hn : agents.Nodup) : (rows.foldl addRowAgents agents).Nodup := by
    induction rows generalizing agents
    case nil             => exact hn
    case cons row rows hi => exact hi (nodup_foldl_addAgent (nodup_addAgent hn))
  exact h .nil

theorem mem_agentsOf : b ∈ agentsOf graph ↔ ∃ row ∈ graph.hardEdges, row.1 = b ∨
    ∃ e ∈ row.2, e.blocked = b := by
  rw [agentsOf]
  generalize graph.hardEdges = rows
  have h {agents : List Str} : b ∈ rows.foldl addRowAgents agents ↔
      b ∈ agents ∨ ∃ row ∈ rows, row.1 = b ∨ ∃ e ∈ row.2, e.blocked = b := by
    induction rows generalizing agents
    case nil => simp
    case cons row rows hi =>
      rw [List.foldl_cons, hi, addRowAgents, mem_foldl_addAgent, mem_addAgent]
      simp only [List.mem_cons, exists_eq_or_imp, or_assoc, eq_comm (a := b)]
  simpa using @h []

theorem ProjectConflictGraph.Blocks.holder_mem (h : graph.Blocks a b) : a ∈ agentsOf graph := by
  have ⟨row, hr, ha, _⟩ := h
  exact mem_agentsOf.mpr ⟨row, hr, .inl ha⟩

theorem ProjectConflictGraph.Blocks.blocked_mem (h : graph.Blocks a b) : b ∈ agentsOf graph := by
  have ⟨row, hr, _, hb⟩ := h
  exact mem_agentsOf.mpr ⟨row, hr, .inr hb⟩

end Agents

section Adjacency

variable {adj : Fin agents.length → List (Fin agents.length)} {i j source : Fin agents.length}

theorem finIdxOf?_get (hn : agents.Nodup) : agents.finIdxOf? (agents.get i) = some i := by
  rw [List.finIdxOf?_eq_some_iff]
  refine ⟨rfl, fun j hj he => ?_⟩
  exact absurd (hn.get_inj_iff.mp he) hj.ne

theorem finIdxOf?_eq_some (hn : agents.Nodup) : agents.finIdxOf? a = some i ↔ agents.get i = a := by
  constructor
  case mp  => exact fun h => (List.finIdxOf?_eq_some_iff.mp h).left
  case mpr => exact fun h => h ▸ finIdxOf?_get hn

theorem mem_addEdge (hn : agents.Nodup) {edge : HardEdge} :
    j ∈ addEdge agents source adj edge i ↔ j ∈ adj i ∨ i = source ∧
      agents.get j = edge.blocked := by
  rw [addEdge]
  cases hf : agents.finIdxOf? edge.blocked
  case none =>
    have hne : agents.get j ≠ edge.blocked := fun he => by
      rw [← he, finIdxOf?_get hn] at hf
      cases hf
    simp only [hne, and_false, or_false]
  case some target =>
    have ht := (finIdxOf?_eq_some hn).mp hf
    have hj : agents.get j = edge.blocked ↔ j = target := by
      rw [← ht]
      exact hn.get_inj_iff
    rw [hj]
    dsimp only
    split
    case isTrue hm =>
      refine ⟨.inl, ?_⟩
      rintro (h | ⟨rfl, rfl⟩)
      · exact h
      · exact hm
    case isFalse =>
      by_cases hi : i = source
      case pos => simp [hi]
      case neg => simp [hi]

theorem mem_foldl_addEdge (hn : agents.Nodup) {edges : List HardEdge} :
    j ∈ edges.foldl (addEdge agents source) adj i ↔ j ∈ adj i ∨ i = source ∧
      ∃ e ∈ edges, e.blocked = agents.get j := by
  induction edges generalizing adj
  case nil => simp
  case cons e es hi =>
    rw [List.foldl_cons, hi, mem_addEdge hn]
    simp only [List.mem_cons, exists_eq_or_imp, or_assoc, and_or_left, eq_comm (a := agents.get j)]

theorem mem_addRow (hn : agents.Nodup) {row : Str × List HardEdge} :
    j ∈ addRow agents adj row i ↔ j ∈ adj i ∨ row.1 = agents.get i ∧
      ∃ e ∈ row.2, e.blocked = agents.get j := by
  rw [addRow]
  cases hf : agents.finIdxOf? row.1
  case none =>
    have hne : row.1 ≠ agents.get i := fun he => by
      rw [he, finIdxOf?_get hn] at hf
      cases hf
    simp only [hne, false_and, or_false]
  case some source =>
    have hs := (finIdxOf?_eq_some hn).mp hf
    have hi : row.1 = agents.get i ↔ i = source := by
      rw [← hs, eq_comm]
      exact hn.get_inj_iff
    rw [hi]
    exact mem_foldl_addEdge hn

theorem mem_adjacency (hn : agents.Nodup) :
    j ∈ adjacency agents graph i ↔ graph.Blocks (agents.get i) (agents.get j) := by
  rw [adjacency, ProjectConflictGraph.Blocks]
  generalize graph.hardEdges = rows
  have h {adj : Fin agents.length → List (Fin agents.length)} :
      j ∈ rows.foldl (addRow agents) adj i ↔
      j ∈ adj i ∨ ∃ row ∈ rows, row.1 = agents.get i ∧ ∃ e ∈ row.2, e.blocked = agents.get j := by
    induction rows generalizing adj
    case nil => simp
    case cons row rows hi =>
      rw [List.foldl_cons, hi, mem_addRow hn]
      simp only [List.mem_cons, exists_eq_or_imp, or_assoc]
  simpa using @h fun _ => []

end Adjacency

-- Different agents that wait for each other are agents of the graph, so there are two of them.
theorem mem_agentsOf_of_connected (h : Connected graph.Blocks a b) (hn : a ≠ b) :
    a ∈ agentsOf graph :=
  have ⟨⟨_, hc⟩, _⟩ := h.exists_step hn
  hc.holder_mem

theorem two_le_agentsOf (h : Connected graph.Blocks a b) (hn : a ≠ b) :
    2 ≤ (agentsOf graph).length := by
  have ha := mem_agentsOf_of_connected h hn
  have hb := mem_agentsOf_of_connected h.symm hn.symm
  have hs : [a, b] ⊆ agentsOf graph := by simp [ha, hb]
  exact (List.subperm_of_subset (by simpa using hn) hs).length_le

theorem exists_cycles (graph : ProjectConflictGraph) :
    ∃ cycles, findDeadlockCycles graph = some cycles ∧ ListsComponents graph.Blocks cycles := by
  by_cases hlen : (agentsOf graph).length < 2
  case pos =>
    refine ⟨[], by simp [findDeadlockCycles, hlen], by simp, fun a b hn h => ?_, .nil⟩
    exact absurd (two_le_agentsOf h hn) (Nat.not_le.mpr hlen)
  case neg =>
    have hnd : (agentsOf graph).Nodup := nodup_agentsOf
    have hinj : Function.Injective (agentsOf graph).get := hnd.injective_get
    have ⟨t, he, ht, hd⟩ := TarjanScc.exists_reported (adjacency (agentsOf graph) graph)
    have hr (i j) : TarjanScc.Edge (adjacency (agentsOf graph) graph) i j ↔
        graph.Blocks ((agentsOf graph).get i) ((agentsOf graph).get j) := mem_adjacency hnd
    have hq (i y) (h : graph.Blocks ((agentsOf graph).get i) y) : ∃ j, (agentsOf graph).get j = y :=
      List.mem_iff_get.mp h.blocked_mem
    refine ⟨t.sccs.map (·.map (agentsOf graph).get),
      by simp [findDeadlockCycles, hlen, he], ?_, ?_, ?_⟩
    case refine_1 =>
      intro c hc
      have ⟨c', hc', he⟩ := List.mem_map.mp hc
      have ⟨h₁, h₂, _, h₄⟩ := ht.component c' hc'
      refine ⟨he ▸ by simpa using h₁, he ▸ h₂.map hinj, ?_⟩
      have hi := h₄.image hinj hr hq
      convert hi using 1
      ext y
      simp [← he]
    case refine_2 =>
      intro a b hn h
      have ⟨i, hi⟩ := List.mem_iff_get.mp (mem_agentsOf_of_connected h hn)
      have ⟨j, hj⟩ := List.mem_iff_get.mp (mem_agentsOf_of_connected h.symm hn.symm)
      have hij : Connected (TarjanScc.Edge (adjacency (agentsOf graph) graph)) i j :=
        (connected_iff hinj hr hq).mp (by rwa [hi, hj])
      have ⟨c, hc, hic⟩ :=
        ht.complete i (hd ▸ Set.mem_univ i) j (fun he => hn (by rw [← hi, ← hj, he])) hij
      exact ⟨_, List.mem_map_of_mem hc, hi ▸ List.mem_map_of_mem hic⟩
    case refine_3 =>
      refine List.pairwise_map.mpr (ht.disjoint.imp fun hdis => ?_)
      intro y hy hy'
      have ⟨i, hi, he⟩ := List.mem_map.mp hy
      have ⟨j, hj, he'⟩ := List.mem_map.mp hy'
      exact hdis hi (hinj (he.trans he'.symm) ▸ hj)

section Normalize

variable {cycles cycles' : List (List Str)}

theorem perm_normalize :
    (normalizeDeadlockCycles cycles).Perm (cycles.map (·.insertionSort (· ≤ ·))) :=
  List.perm_insertionSort _ _

theorem insertionSort_eq_of_perm {c c' : List Str} (h : c.Perm c') :
    c.insertionSort (· ≤ ·) = c'.insertionSort (· ≤ ·) := by
  refine List.Perm.eq_of_sortedLE List.sortedLE_insertionSort List.sortedLE_insertionSort ?_
  exact (List.perm_insertionSort _ c).trans (h.trans (List.perm_insertionSort _ c').symm)

theorem subset_map_sort {r : Str → Str → Prop} (h : ListsComponents r cycles)
    (h' : ListsComponents r cycles') :
    cycles.map (·.insertionSort (· ≤ ·)) ⊆ cycles'.map (·.insertionSort (· ≤ ·)) := by
  intro s hs
  have ⟨c, hc, he⟩ := List.mem_map.mp hs
  have ⟨c', hc', hp⟩ := h.exists_perm h' hc
  exact List.mem_map.mpr ⟨c', hc', (insertionSort_eq_of_perm hp).symm.trans he⟩

-- Two of the cycles do not become the same by sorting.
theorem nodup_map_sort {r : Str → Str → Prop} (h : ListsComponents r cycles) :
    (cycles.map (·.insertionSort (· ≤ ·))).Nodup := by
  refine List.pairwise_map.mpr (h.disjoint.imp_of_mem fun {c d} hc _ hd he => ?_)
  have ⟨a, ha⟩ := List.exists_mem_of_length_pos (Nat.zero_lt_of_lt (h.component c hc).left)
  have ha' : a ∈ d.insertionSort (· ≤ ·) := he ▸ (List.mem_insertionSort _).mpr ha
  exact hd ha ((List.mem_insertionSort _).mp ha')

theorem normalize_eq {r : Str → Str → Prop} (h : ListsComponents r cycles)
    (h' : ListsComponents r cycles') :
    normalizeDeadlockCycles cycles = normalizeDeadlockCycles cycles' := by
  have hp : (cycles.map (·.insertionSort (· ≤ ·))).Perm (cycles'.map (·.insertionSort (· ≤ ·))) :=
    (List.perm_ext_iff_of_nodup (nodup_map_sort h) (nodup_map_sort h')).mpr fun _ =>
      ⟨fun hm => subset_map_sort h h' hm, fun hm => subset_map_sort h' h hm⟩
  refine List.Perm.eq_of_sortedLE List.sortedLE_insertionSort List.sortedLE_insertionSort ?_
  exact perm_normalize.trans (hp.trans perm_normalize.symm)

end Normalize

-- A deadlock is reported if and only if there is one, with everyone who takes part in it.
theorem findDeadlockCycles_exact (graph : ProjectConflictGraph) :
    ∃ cycles, findDeadlockCycles graph = some cycles ∧ cycles.Pairwise List.Disjoint ∧
      (∀ c ∈ cycles, 1 < c.length ∧ c.Nodup ∧ ∀ a ∈ c, ∀ b, b ∈ c ↔ Connected graph.Blocks a b) ∧
      ∀ a b, a ≠ b → Connected graph.Blocks a b → ∃ c ∈ cycles, a ∈ c := by
  have ⟨cycles, he, h⟩ := exists_cycles graph
  refine ⟨cycles, he, h.disjoint, fun c hc => ?_, h.complete⟩
  have ⟨h₁, h₂, h₃⟩ := h.component c hc
  exact ⟨h₁, h₂, h₃.mem_iff⟩

-- The order in which the map of edges is iterated does not show, nor does anything else of the
-- edges.
theorem normalizeDeadlockCycles_congr (h : ∀ a b, graph.Blocks a b ↔ graph'.Blocks a b) :
    (findDeadlockCycles graph).map normalizeDeadlockCycles =
      (findDeadlockCycles graph').map normalizeDeadlockCycles := by
  have ⟨cycles, he, hc⟩ := exists_cycles graph
  have ⟨cycles', he', hc'⟩ := exists_cycles graph'
  have hr : graph'.Blocks = graph.Blocks := funext fun a => funext fun b => propext (h a b).symm
  rw [he, he', Option.map_some, Option.map_some, normalize_eq hc (hr ▸ hc')]

def mutualWait : ProjectConflictGraph where
  hardEdges  := [(['a'], [⟨['a'], ['b'], [['x']], 1⟩]), (['b'], [⟨['b'], ['a'], [['y']], 2⟩])]
  generation := 2

theorem normalizeDeadlockCycles_congr_reversed :
    (findDeadlockCycles mutualWait).map normalizeDeadlockCycles = some [[['a'], ['b']]] ∧
      (findDeadlockCycles { hardEdges := mutualWait.hardEdges.reverse, generation := 7 }).map
        normalizeDeadlockCycles =
        some [[['a'], ['b']]] := by
  have h :=
    @normalizeDeadlockCycles_congr mutualWait
      { hardEdges := mutualWait.hardEdges.reverse, generation := 7 } fun a b => by
      simp [ProjectConflictGraph.Blocks, mutualWait]
      tauto
  have he : (findDeadlockCycles mutualWait).map normalizeDeadlockCycles =
      some [[['a'], ['b']]] := by decide
  exact ⟨he, h ▸ he⟩

end Deadlock
