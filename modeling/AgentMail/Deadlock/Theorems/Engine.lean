import AgentMail.Deadlock.Theorems.Cycles
import AgentMail.Pattern.Globset

open Pattern (Str Globset)

namespace Deadlock

section Retain

variable {α : Type} {f : α → Option (Option α × Nat)} {l l' : List α} {m : Nat}

theorem retain_cons {a : α} (h : retain f (a :: l) = some (l', m)) :
    ∃ kept n rest k, f a = some (kept, n) ∧ retain f l = some (rest, k) ∧ l' = kept.toList ++ rest ∧
      m = n + k := by
  rw [retain] at h
  have ⟨⟨kept, n⟩, h₁, h⟩ := Option.bind_eq_some_iff.mp h
  have ⟨⟨rest, k⟩, h₂, h⟩ := Option.bind_eq_some_iff.mp h
  cases h
  exact ⟨kept, n, rest, k, h₁, h₂, rfl, rfl⟩

theorem exists_of_mem_retain (h : retain f l = some (l', m)) {b : α} (hb : b ∈ l') :
    ∃ a ∈ l, ∃ n, f a = some (some b, n) := by
  induction l generalizing l' m
  case nil =>
    cases h
    exact absurd hb List.not_mem_nil
  case cons a l hi =>
    have ⟨kept, n, rest, k, h₁, h₂, he, _⟩ := retain_cons h
    subst he
    obtain hb | hb := List.mem_append.mp hb
    · obtain rfl := Option.mem_toList.mp hb
      exact ⟨a, List.mem_cons_self, n, h₁⟩
    · have ⟨a', ha, hf⟩ := hi h₂ hb
      exact ⟨a', List.mem_cons_of_mem _ ha, hf⟩

-- Where taking nothing away leaves every element, nothing changes.
theorem retain_eq_self (hf : ∀ a ∈ l, ∀ r, f a = some (r, 0) → r = some a)
    (h : retain f l = some (l', 0)) : l' = l := by
  induction l generalizing l'
  case nil =>
    cases h
    rfl
  case cons a l hi =>
    have ⟨kept, n, rest, k, h₁, h₂, he, hm⟩ := retain_cons h
    have ⟨hn, hk⟩ : n = 0 ∧ k = 0 := by omega
    subst hn hk
    obtain rfl := hf a List.mem_cons_self kept h₁
    rw [he, hi (fun b hb => hf b (List.mem_cons_of_mem _ hb)) h₂]
    rfl

end Retain

-- Every row has an edge, and every edge a pattern.
def ProjectConflictGraph.Settled (graph : ProjectConflictGraph) : Prop :=
  ∀ row ∈ graph.hardEdges, row.2 ≠ [] ∧ ∀ e ∈ row.2, e.contestedPatterns ≠ []

-- What an operation does to a graph, and how it says so. A counter that is full is not trusted.
structure Yields (graph graph' : ProjectConflictGraph) (changed : Bool) : Prop where
  settled    : graph'.Settled
  unchanged  : changed = false → graph' = graph
  generation : graph'.generation < 2 ^ 64 - 1 → graph.generation ≤ graph'.generation
  bumped     : changed = true → graph'.generation < 2 ^ 64 - 1 →
    graph.generation < graph'.generation

section Clear

variable {gs : Globset} {ci : Bool} {paths : List Str} {edge edge' : HardEdge}
  {kept : Option HardEdge} {n : Nat}

theorem retainPattern_zero {pattern : Str} {r : Option Str}
    (h : retainPattern gs ci paths pattern = some (r, 0)) : r = some pattern := by
  have ⟨cleared, _, h⟩ := Option.bind_eq_some_iff.mp h
  cases cleared <;> cases h
  rfl

theorem clear_cases (h : edge.clear gs ci paths = some (kept, n))
    (he : edge.contestedPatterns ≠ []) :
    (kept = none ∧ 0 < n) ∨ ∃ patterns, kept = some { edge with contestedPatterns := patterns } ∧
      patterns ≠ [] ∧ (n = 0 → patterns = edge.contestedPatterns) := by
  rw [HardEdge.clear] at h
  split at h
  case isTrue =>
    cases h
    exact .inl ⟨rfl, by omega⟩
  case isFalse =>
    have ⟨⟨patterns, removed⟩, hr, h⟩ := Option.bind_eq_some_iff.mp h
    have hz (hn : removed = 0) : patterns = edge.contestedPatterns :=
      retain_eq_self (fun _ _ _ => retainPattern_zero) (hn ▸ hr)
    dsimp only at h
    split at h <;> cases h
    case isTrue hp =>
      refine .inl ⟨rfl, Nat.pos_of_ne_zero fun hn => he (hz hn ▸ hp)⟩
    case isFalse hp => exact .inr ⟨patterns, rfl, hp, hz⟩

end Clear

namespace ProjectConflictGraph

variable {graph graph' : ProjectConflictGraph} {gs : Globset} {ci : Bool} {n : Nat}

theorem Settled.yields_self (h : graph.Settled) : Yields graph graph false :=
  ⟨h, fun _ => rfl, fun _ => le_rfl, nofun⟩

theorem Settled.yields_bump (h : graph'.Settled) (he : graph'.generation = graph.generation) :
    Yields graph graph'.bumpGeneration true where
  settled        := h
  unchanged      := nofun
  generation hlt := by
    simp only [bumpGeneration, U64.saturate, he] at hlt ⊢
    omega
  bumped _ hlt   := by
    simp only [bumpGeneration, U64.saturate, he] at hlt ⊢
    omega

-- An edge either stays, with patterns, or counts.
structure Careful (f : HardEdge → Option (Option HardEdge × Nat)) (edge : HardEdge) : Prop where
  zero : ∀ r, f edge = some (r, 0) → r = some edge
  some : ∀ edge' n, f edge = some (some edge', n) → edge'.contestedPatterns ≠ []

theorem careful_clear {paths : List Str} {edge : HardEdge} (he : edge.contestedPatterns ≠ []) :
    Careful (HardEdge.clear gs ci paths) edge where
  zero r h := by
    obtain ⟨_, hn⟩ | ⟨patterns, hr, _, hz⟩ := clear_cases h he
    · exact absurd hn (lt_irrefl _)
    · rw [hr, hz rfl]
  some edge' n h := by
    obtain ⟨hr, _⟩ | ⟨patterns, hr, hp, _⟩ := clear_cases h he
    · cases hr
    · cases hr
      exact hp

theorem careful_keep {edge : HardEdge} (he : edge.contestedPatterns ≠ []) :
    Careful (fun edge => Option.some (Option.some edge, 0)) edge where
  zero r h := by
    cases h
    rfl
  some edge' n h := by
    cases h
    exact he

-- The same for a row.
structure CarefulRow (f : Str × List HardEdge → Option (Option (Str × List HardEdge) × Nat))
    (row : Str × List HardEdge) : Prop where
  zero : ∀ r, f row = some (r, 0) → r = some row
  some : ∀ row' n, f row = some (some row', n) → row'.2 ≠ [] ∧
    ∀ e ∈ row'.2, e.contestedPatterns ≠ []

theorem keepRow_eq_some {row row' : Str × List HardEdge} {edges : List HardEdge}
    (h : keepRow row edges = some row') : edges ≠ [] ∧ row' = (row.1, edges) := by
  rw [keepRow] at h
  split at h <;> cases h
  exact ⟨‹_›, rfl⟩

theorem keepRow_self {row : Str × List HardEdge} (h : row.2 ≠ []) :
    keepRow row row.2 = some row := by
  rw [keepRow, if_neg h]

variable {f : HardEdge → Option (Option HardEdge × Nat)} {row : Str × List HardEdge}

theorem carefulRow_retainRow (hr : row.2 ≠ []) (hf : ∀ e ∈ row.2, Careful f e) :
    CarefulRow (retainRow f) row where
  zero r h := by
    have ⟨⟨edges, removed⟩, he, h⟩ := Option.bind_eq_some_iff.mp h
    cases h
    rw [retain_eq_self (fun e he => (hf e he).zero) he]
    exact keepRow_self hr
  some row' n h := by
    have ⟨⟨edges, removed⟩, he, h⟩ := Option.bind_eq_some_iff.mp h
    have ⟨h, _⟩ := Prod.mk.inj (Option.some_inj.mp h)
    have ⟨hne, hrow⟩ := keepRow_eq_some h
    refine ⟨hrow ▸ hne, fun e hm => ?_⟩
    have ⟨a, ha, k, hk⟩ := exists_of_mem_retain he (hrow ▸ hm)
    exact (hf a ha).some e k hk

theorem carefulRow_filterRow {p : HardEdge → Bool} (hr : row.2 ≠ [])
    (hs : ∀ e ∈ row.2, e.contestedPatterns ≠ []) : CarefulRow (filterRow p) row where
  zero r h := by
    have ⟨h, hz⟩ := Prod.mk.inj (Option.some_inj.mp h)
    have hl : (row.2.filter p).length = row.2.length := by
      have := List.length_filter_le p row.2
      omega
    rw [← h, (List.filter_sublist (p := p)).eq_of_length hl]
    exact keepRow_self hr
  some row' n h := by
    have ⟨h, _⟩ := Prod.mk.inj (Option.some_inj.mp h)
    have ⟨hne, hrow⟩ := keepRow_eq_some h
    exact ⟨hrow ▸ hne, fun e hm => hs e (List.mem_of_mem_filter (hrow ▸ hm))⟩

theorem yields_retainRows {f : Str × List HardEdge → Option (Option (Str × List HardEdge) × Nat)}
    (hs : graph.Settled) (hf : ∀ row ∈ graph.hardEdges, CarefulRow f row)
    (h : graph.retainRows f = some (graph', n)) : Yields graph graph' (n > 0) := by
  have ⟨⟨rows, removed⟩, hr, h⟩ := Option.bind_eq_some_iff.mp h
  have hset : Settled { graph with hardEdges := rows } := by
    intro row hm
    have ⟨a, ha, k, hk⟩ := exists_of_mem_retain hr hm
    exact (hf a ha).some row k hk
  dsimp only at h
  split at h <;> cases h
  case isTrue hn =>
    rw [decide_eq_true hn]
    exact hset.yields_bump rfl
  case isFalse hn =>
    rw [decide_eq_false hn]
    have hz : n = 0 := by omega
    have he := retain_eq_self (fun row hm => (hf row hm).zero) (hz ▸ hr)
    rw [he]
    exact hs.yields_self

theorem yields_clearBlocked {blocked : Str} {paths : List Str} (hs : graph.Settled)
    (h : graph.clearBlockedConflictsForGrant gs ci blocked paths = some (graph', n)) :
    Yields graph graph' (n > 0) := by
  rw [clearBlockedConflictsForGrant] at h
  split at h
  case isTrue =>
    cases h
    exact hs.yields_self
  case isFalse =>
    refine yields_retainRows hs (fun row hm => carefulRow_retainRow (hs row hm).left fun e he => ?_)
      h
    have hp := (hs row hm).right e he
    by_cases hb : e.blocked = blocked
    case pos =>
      have hc : Careful (HardEdge.clear gs ci paths) e := careful_clear hp
      exact ⟨by simpa [hb] using hc.zero, by simpa [hb] using hc.some⟩
    case neg =>
      have hc := careful_keep hp
      exact ⟨by simp [hb], by simpa [hb] using hc.some⟩

theorem yields_clearHolder {holder : Str} {paths : List Str} (hs : graph.Settled)
    (h : graph.clearHolderConflictsForRelease gs ci holder paths = some (graph', n)) :
    Yields graph graph' (n > 0) := by
  refine yields_retainRows hs (fun row hm => ?_) h
  have ⟨hne, hp⟩ := hs row hm
  by_cases hb : row.1 = holder
  case pos =>
    have hc := carefulRow_retainRow (f := HardEdge.clear gs ci paths) hne fun e he =>
      careful_clear (hp e he)
    exact ⟨by simpa [hb] using hc.zero, by simpa [hb] using hc.some⟩
  case neg =>
    refine ⟨fun r h => ?_, fun row' n h => ?_⟩ <;> simp only [ne_eq, hb, not_false_eq_true,
      if_true] at h <;> cases h
    · rfl
    · exact ⟨hne, hp⟩

theorem yields_pruneStale {cutoff : Int} (hs : graph.Settled)
    (h : graph.pruneStaleEdges cutoff = some (graph', n)) : Yields graph graph' (n > 0) :=
  yields_retainRows hs (fun row hm => carefulRow_filterRow (hs row hm).left (hs row hm).right) h

theorem yields_removeAgent {agent : Str} (hs : graph.Settled)
    (h : graph.removeAgent agent = some (graph', n)) : Yields graph graph' (n > 0) := by
  refine yields_retainRows hs (fun row hm => ?_) h
  have ⟨hne, hp⟩ := hs row hm
  by_cases hb : row.1 = agent
  case pos =>
    refine ⟨fun r h => ?_, fun row' n h => ?_⟩ <;> simp only [hb, if_true, Option.some_inj,
      Prod.mk.injEq] at h
    · exact absurd (List.length_eq_zero_iff.mp h.right) hne
    · exact absurd h.left (by simp)
  case neg =>
    have hc := carefulRow_filterRow (p := (·.blocked ≠ agent)) hne hp
    exact ⟨by simpa [hb] using hc.zero, by simpa [hb] using hc.some⟩

section Record

variable {edges : List HardEdge} {edge e : HardEdge}

theorem mem_replaceEdge (h : e ∈ replaceEdge edge edges) : e = edge ∨ e ∈ edges := by
  induction edges
  case nil => cases h
  case cons a edges hi =>
    rw [replaceEdge] at h
    split at h <;> obtain rfl | h := List.mem_cons.mp h
    · exact .inl rfl
    · exact .inr (List.mem_cons_of_mem _ h)
    · exact .inr List.mem_cons_self
    · exact (hi h).imp_right (List.mem_cons_of_mem _)

theorem replaceEdge_ne_nil (h : edges ≠ []) : replaceEdge edge edges ≠ [] := by
  cases edges
  case nil  => exact absurd rfl h
  case cons =>
    rw [replaceEdge]
    split <;> simp

theorem sortDedup_ne_nil {patterns : List Str} (h : patterns ≠ []) : sortDedup patterns ≠ [] := by
  have ⟨p, hp⟩ := List.exists_mem_of_ne_nil _ h
  exact List.ne_nil_of_mem (List.mem_dedup.mpr ((List.mem_insertionSort _).mpr hp))

theorem foldl_addPattern_ne_nil {acc : List Str × Bool} {patterns : List Str} (h : acc.1 ≠ []) :
    (patterns.foldl addPattern acc).1 ≠ [] := by
  induction patterns generalizing acc
  case nil => exact h
  case cons p patterns hi =>
    refine hi ?_
    rw [addPattern]
    split
    · simp
    · exact h

theorem mem_edgesOf {holder : Str} (h : e ∈ graph.edgesOf holder) :
    ∃ row ∈ graph.hardEdges, e ∈ row.2 := by
  rw [edgesOf] at h
  cases hl : graph.hardEdges.lookup holder
  case none => simp [hl] at h
  case some edges =>
    have ⟨l, r, he, _⟩ := List.lookup_eq_some_iff.mp hl
    exact ⟨(holder, edges), by simp [he], by simpa [hl] using h⟩

theorem Settled.setEdges {holder : Str} (hs : graph.Settled) (hne : edges ≠ [])
    (he : ∀ e ∈ edges, e.contestedPatterns ≠ []) : (graph.setEdges holder edges).Settled := by
  intro row hr
  rw [ProjectConflictGraph.setEdges] at hr
  split at hr
  case isTrue =>
    have ⟨row', hm, h⟩ := List.mem_map.mp hr
    split at h <;> subst h
    · exact ⟨hne, he⟩
    · exact hs _ hm
  case isFalse =>
    obtain hr | hr := List.mem_append.mp hr
    · exact hs row hr
    · obtain rfl := List.mem_singleton.mp hr
      exact ⟨hne, he⟩

theorem generation_setEdges {holder : Str} :
    (graph.setEdges holder edges).generation = graph.generation := by
  rw [ProjectConflictGraph.setEdges]
  split <;> rfl

theorem yields_record {holder blocked requestedPath holderPathPattern : Str} {since : Int}
    (hs : graph.Settled) (hp : requestedPath ≠ [] ∨ holderPathPattern ≠ []) :
    Yields graph
      (graph.recordBlockingConflict holder blocked requestedPath holderPathPattern since).1
      (graph.recordBlockingConflict holder blocked requestedPath holderPathPattern since).2 := by
  have hold (e) (he : e ∈ graph.edgesOf holder) : e.contestedPatterns ≠ [] := by
    have ⟨row, hr, hm⟩ := mem_edgesOf he
    exact (hs row hr).right e hm
  rw [recordBlockingConflict]
  split
  case isTrue => exact hs.yields_self
  case isFalse =>
    dsimp only
    split
    case h_1 edge hf =>
      have hm := List.mem_of_find?_eq_some hf
      have hne : ([requestedPath, holderPathPattern].foldl addPattern
          (edge.contestedPatterns, false)).1 ≠ [] :=
        foldl_addPattern_ne_nil (hold edge hm)
      generalize [requestedPath, holderPathPattern].foldl addPattern
        (edge.contestedPatterns, false) = added at hne ⊢
      generalize (if since > 0 ∧ (edge.since = 0 ∨ since < edge.since) then (since, true)
        else (edge.since, added.2)) = seen
      split
      case isFalse => exact hs.yields_self
      case isTrue =>
        refine (hs.setEdges (replaceEdge_ne_nil (List.ne_nil_of_mem hm)) fun e he => ?_).yields_bump
          generation_setEdges
        obtain rfl | he := mem_replaceEdge he
        · exact sortDedup_ne_nil hne
        · exact hold e he
    case h_2 =>
      refine (hs.setEdges (by simp) fun e he => ?_).yields_bump generation_setEdges
      obtain he | he := List.mem_append.mp he
      · exact hold e he
      · obtain rfl := List.mem_singleton.mp he
        refine sortDedup_ne_nil ?_
        obtain hp | hp := hp <;> simp [hp, List.filter_cons]
        split <;> simp

end Record

end ProjectConflictGraph

theorem Yields.trans {g₁ g₂ g₃ : ProjectConflictGraph} {b₁ b₂ : Bool} (h₁ : Yields g₁ g₂ b₁)
    (h₂ : Yields g₂ g₃ b₂) : Yields g₁ g₃ (b₁ || b₂) where
  settled    := h₂.settled
  unchanged h := by
    have ⟨hb₁, hb₂⟩ := Bool.or_eq_false_iff.mp h
    rw [h₂.unchanged hb₂, h₁.unchanged hb₁]
  generation hlt := (h₁.generation ((h₂.generation hlt).trans_lt hlt)).trans (h₂.generation hlt)
  bumped h hlt := by
    have hle := h₂.generation hlt
    have hle' := h₁.generation (hle.trans_lt hlt)
    obtain hb | hb := Bool.or_eq_true_iff.mp h
    · exact (h₁.bumped hb (hle.trans_lt hlt)).trans_le hle
    · exact hle'.trans_lt (h₂.bumped hb hlt)

namespace AtcEngine

variable {engine engine' : AtcEngine} {project : Str} {graph : ProjectConflictGraph}
  {dirty : List Str}

def graph? (engine : AtcEngine) (project : Str) : Option ProjectConflictGraph :=
  (engine.conflictGraphs.get? project).map Prod.snd

def cached? (engine : AtcEngine) (project : Str) : Option DeadlockCacheEntry :=
  (engine.deadlockCache.get? project).map Prod.snd

theorem get?_map_snd_put {β : Type} {t : Table (Prod.fst : Str × β → Str)} {p q : Str} {b : β} :
    ((t.put (p, b)).get? q).map Prod.snd = if p = q then some b else (t.get? q).map Prod.snd := by
  rw [Table.get?_put]
  split <;> rfl

-- The entry tells the cycles of the graph.
def Current (entry : DeadlockCacheEntry) (graph : ProjectConflictGraph) : Prop :=
  (findDeadlockCycles graph).map normalizeDeadlockCycles = some entry.cycles

-- An entry of the graph's generation is current, and a project that is not dirty has one, or has
-- had no conflict yet.
structure Coherent (engine : AtcEngine) (dirty : List Str) : Prop where
  settled : ∀ p g, engine.graph? p = some g → g.Settled
  cached  : ∀ p c, engine.cached? p = some c → ∃ g, engine.graph? p = some g ∧
    (g.generation < 2 ^ 64 - 1 → c.generation ≤ g.generation ∧
      (c.generation = g.generation → Current c g))
  clean   : ∀ p g, engine.graph? p = some g → p ∉ dirty →
    (∃ c, engine.cached? p = some c ∧ c.generation = g.generation) ∨ engine.cached? p = none ∧
      g.hardEdges = []

theorem coherent_new (config : AtcConfig) : (new config).Coherent [] where
  settled p g h := by simp [graph?, new, Table.empty, Table.get?] at h
  cached p c h  := by simp [cached?, new, Table.empty, Table.get?] at h
  clean p g h   := by simp [graph?, new, Table.empty, Table.get?] at h

theorem graph?_setGraph {changed : Bool} {p : Str} :
    (engine.setGraph project graph changed).graph? p = if project = p then some graph
      else engine.graph? p :=
  get?_map_snd_put

theorem Coherent.settled_graphOf (h : engine.Coherent dirty) :
    (engine.graphOf project).Settled := by
  cases hg : engine.graph? project
  case none   => simp [graphOf, graph?] at hg ⊢; simp [hg, ProjectConflictGraph.Settled]
  case some g =>
    have he : engine.graphOf project = g := by
      rw [graph?] at hg
      rw [graphOf, hg, Option.getD_some]
    exact he ▸ h.settled project g hg

theorem Coherent.setGraph {changed : Bool} (h : engine.Coherent engine.dirtyProjects)
    (hy : Yields (engine.graphOf project) graph changed) :
    (engine.setGraph project graph changed).Coherent
      (engine.setGraph project graph changed).dirtyProjects where
  settled p g hg := by
    rw [graph?_setGraph] at hg
    split at hg
    case isTrue  =>
      cases hg
      exact hy.settled
    case isFalse => exact h.settled p g hg
  cached p c hc := by
    have ⟨g, hg, hcur⟩ := h.cached p c hc
    rw [graph?_setGraph]
    split
    case isFalse => exact ⟨g, hg, hcur⟩
    case isTrue hp =>
      subst hp
      have he : engine.graphOf project = g := by rw [graphOf, ← graph?, hg, Option.getD_some]
      refine ⟨graph, rfl, fun hlt => ?_⟩
      cases hch : changed
      case false =>
        rw [hy.unchanged hch, he] at hlt ⊢
        exact hcur hlt
      case true =>
        have hlt' := hy.bumped hch hlt
        rw [he] at hlt'
        have ⟨hle, _⟩ := hcur (hlt'.trans hlt)
        exact ⟨hle.trans hlt'.le, fun heq => absurd (heq ▸ hle) (Nat.not_le.mpr hlt')⟩
  clean p g hg hd := by
    have hc : (engine.setGraph project graph changed).cached? p = engine.cached? p := rfl
    rw [graph?_setGraph] at hg
    rw [hc]
    split at hg
    case isTrue hp =>
      subst hp
      cases hg
      cases hch : changed
      case true => simp [AtcEngine.setGraph, hch] at hd
      case false =>
        have hd' : project ∉ engine.dirtyProjects := by simpa [AtcEngine.setGraph, hch] using hd
        rw [hy.unchanged hch]
        cases hg : engine.graph? project
        case some g =>
          have he : engine.graphOf project = g := by rw [graphOf, ← graph?, hg, Option.getD_some]
          exact he ▸ h.clean project g hg hd'
        case none =>
          have he : engine.graphOf project = { hardEdges := [], generation := 0 } := by
            rw [graphOf, ← graph?, hg, Option.getD_none]
          refine .inr ⟨?_, by rw [he]⟩
          cases hc : engine.cached? project
          case none => rfl
          case some c =>
            have ⟨g, hg', _⟩ := h.cached project c hc
            rw [hg] at hg'
            cases hg'
    case isFalse =>
      refine h.clean p g hg fun hm => hd ?_
      rw [AtcEngine.setGraph]
      dsimp only
      split
      · exact List.mem_insert_of_mem hm
      · exact hm

theorem Coherent.pruneGraphs {prune : ProjectConflictGraph → Option (ProjectConflictGraph × Nat)}
    (hp : ∀ {g g' n}, g.Settled → prune g = some (g', n) → Yields g g' (n > 0))
    (h : engine.Coherent engine.dirtyProjects) (he : pruneGraphs prune engine = some engine') :
    engine'.Coherent engine'.dirtyProjects := by
  rw [AtcEngine.pruneGraphs] at he
  generalize engine.conflictGraphs.rows.map Prod.fst = projects at he
  induction projects generalizing engine
  case nil =>
    cases he
    exact h
  case cons p projects hi =>
    rw [List.foldlM_cons] at he
    have ⟨e, he, hr⟩ := Option.bind_eq_some_iff.mp he
    have ⟨⟨g, n⟩, hg, he⟩ := Option.bind_eq_some_iff.mp he
    cases he
    exact hi (h.setGraph (hp h.settled_graphOf hg)) hr

theorem Coherent.noteConflicts {requester : Str} {conflicts : List AtcConflictObservation}
    {ts : Int} (hp : ∀ c ∈ conflicts, c.requestedPath ≠ [] ∨ c.holderPathPattern ≠ [])
    (h : engine.Coherent engine.dirtyProjects) :
    (engine.noteReservationConflicts requester project conflicts ts).Coherent
      (engine.noteReservationConflicts requester project conflicts ts).dirtyProjects := by
  rw [noteReservationConflicts]
  split
  case isTrue => exact h
  case isFalse hn =>
    clear hn
    have loop {acc : ProjectConflictGraph × Bool}
        (hy : Yields (engine.graphOf project) acc.1 acc.2) :
        Yields (engine.graphOf project) (conflicts.foldl (addConflict requester ts) acc).1
          (conflicts.foldl (addConflict requester ts) acc).2 := by
      induction conflicts generalizing acc
      case nil => exact hy
      case cons c conflicts hi =>
        have ⟨hc, hp⟩ := List.forall_mem_cons.mp hp
        exact hi hp (hy.trans (ProjectConflictGraph.yields_record hy.settled hc))
    exact h.setGraph (@loop (_, false) h.settled_graphOf.yields_self)

section Detect

theorem Coherent.update (h : engine.Coherent (project :: dirty)) :
    ∃ engine', engine.updateDeadlockCacheForProject project = some engine' ∧
      engine'.Coherent dirty ∧
      engine'.conflictGraphs = engine.conflictGraphs ∧
      engine'.dirtyProjects = engine.dirtyProjects := by
  rw [updateDeadlockCacheForProject]
  cases hg : engine.conflictGraphs.get? project
  case none =>
    refine ⟨_, rfl, ⟨h.settled, fun p c hc => ?_, fun p g hg' hd => ?_⟩, rfl, rfl⟩
    · have hc' : engine.cached? p = some c := by
        rw [cached?] at hc ⊢
        by_cases hp : p = project
        case pos => simp [hp, Table.get?_delete_self] at hc
        case neg => rwa [Table.get?_delete_of_ne hp] at hc
      exact h.cached p c hc'
    · have hp : p ≠ project := by
        rintro rfl
        simp [graph?, hg] at hg'
      have hc := h.clean p g hg' (by simp [hp, hd])
      rwa [cached?, Table.get?_delete_of_ne hp]
  case some row =>
    obtain ⟨p', graph⟩ := row
    have hp : p' = project := (Table.get?_eq_some_iff.mp hg).right
    subst hp
    have hg' : engine.graph? p' = some graph := by rw [graph?, hg, Option.map_some]
    dsimp only
    split
    case isFalse hstale =>
      refine ⟨_, rfl, ⟨h.settled, h.cached, fun p g hpg hd => ?_⟩, rfl, rfl⟩
      by_cases hp : p = p'
      case neg => exact h.clean p g hpg (by simp [hp, hd])
      case pos =>
        subst hp
        cases hg'.symm.trans hpg
        refine .inl ?_
        cases hc : engine.deadlockCache.get? p
        case none     => simp [hc] at hstale
        case some row => exact ⟨row.2, by rw [cached?]; simp [hc], by simpa [hc] using hstale⟩
    case isTrue =>
      obtain ⟨cycles, hf, _⟩ := exists_cycles graph
      have hput (p) : ((engine.deadlockCache.put
          (p', ⟨graph.generation, normalizeDeadlockCycles cycles⟩)).get? p).map Prod.snd =
            if p' = p then some ⟨graph.generation, normalizeDeadlockCycles cycles⟩
            else engine.cached? p :=
        get?_map_snd_put
      rw [hf]
      refine ⟨_, rfl, ⟨h.settled, fun p c hc => ?_, fun p g hpg hd => ?_⟩, rfl, rfl⟩
      · rw [cached?, hput] at hc
        split at hc
        case isFalse => exact h.cached p c hc
        case isTrue hp =>
          subst hp
          cases hc
          exact ⟨graph, hg', fun _ => ⟨le_rfl, fun _ => by rw [Current, hf, Option.map_some]⟩⟩
      · rw [cached?, hput]
        by_cases hp : p' = p
        case pos =>
          subst hp
          cases hg'.symm.trans hpg
          exact .inl ⟨_, if_pos rfl, rfl⟩
        case neg =>
          rw [if_neg hp]
          exact h.clean p g hpg (by simp [Ne.symm hp, hd])

theorem Coherent.updateAll {projects : List Str} (h : engine.Coherent projects) :
    ∃ engine', projects.foldlM updateDeadlockCacheForProject engine = some engine' ∧
      engine'.Coherent [] ∧
      engine'.conflictGraphs = engine.conflictGraphs ∧
      engine'.dirtyProjects = engine.dirtyProjects := by
  induction projects generalizing engine
  case nil => exact ⟨engine, rfl, h, rfl, rfl⟩
  case cons p projects hi =>
    have ⟨e, he, hc, hg, hd⟩ := h.update
    have ⟨e', he', hc', hg', hd'⟩ := hi hc
    exact ⟨e', by rw [List.foldlM_cons, he]; exact he', hc', hg'.trans hg, hd'.trans hd⟩

theorem Coherent.detect (h : engine.Coherent engine.dirtyProjects) :
    ∃ engine', engine.detectDeadlocks = some (engine', engine'.cachedDeadlocks) ∧
      engine'.Coherent [] ∧
      engine'.conflictGraphs = engine.conflictGraphs ∧ engine'.dirtyProjects = [] := by
  rw [detectDeadlocks]
  generalize hd : (if engine.deadlockCache.rows = [] then engine.allDirty
    else engine.dirtyProjects) = dirty
  have hsub : ∀ p ∈ engine.dirtyProjects, p ∈ dirty := by
    intro p hp
    rw [← hd]
    split
    · exact List.mem_append_left _ hp
    · exact hp
  have hc : Coherent { engine with
      dirtyProjects     := []
      deadlockCacheHits :=
        U64.saturate
          (engine.deadlockCacheHits + (engine.conflictGraphs.rows.length - dirty.length)) } dirty :=
    ⟨h.settled, h.cached, fun p g hg hn => h.clean p g hg fun hp => hn (hsub p hp)⟩
  have ⟨e, he, hce, hg, hde⟩ := hc.updateAll
  exact ⟨e.recomputeDeadlockTotals, by rw [he]; rfl, ⟨hce.settled, hce.cached, hce.clean⟩, hg, hde⟩

-- What is cached for the projects, in the order of their names.
theorem mem_cachedDeadlocks {cycles : List (List Str)} :
    (project, cycles) ∈ engine.cachedDeadlocks ↔ cycles ≠ [] ∧
      ∃ c, engine.cached? project = some c ∧ c.cycles = cycles := by
  rw [cachedDeadlocks, List.mem_insertionSort, List.mem_map]
  constructor
  case mp =>
    rintro ⟨⟨p, c⟩, hr, he⟩
    have ⟨hr, hne⟩ := List.mem_filter.mp hr
    cases he
    exact ⟨by simpa using hne, c, by rw [cached?,
      show engine.deadlockCache.get? p = some (p, c) from Table.get?_key hr, Option.map_some], rfl⟩
  case mpr =>
    rintro ⟨hne, c, hc, rfl⟩
    have ⟨⟨p, c'⟩, hr, he⟩ := Option.map_eq_some_iff.mp hc
    have ⟨hm, hp⟩ := Table.get?_eq_some_iff.mp hr
    cases he
    cases hp
    exact ⟨(p, c'), List.mem_filter.mpr ⟨hm, by simpa using hne⟩, rfl⟩

theorem pairwise_cachedDeadlocks : engine.cachedDeadlocks.Pairwise (·.1 < ·.1) := by
  generalize hl :
    (engine.deadlockCache.rows.filter (·.2.cycles ≠ [])).map (fun row => (row.1, row.2.cycles)) = l
  have hn : (l.map Prod.fst).Nodup := by
    rw [← hl, List.map_map]
    exact (List.filter_sublist.map _).nodup engine.deadlockCache.nodup
  have hp := List.perm_insertionSort (fun a b : Str × List (List Str) => a.1 ≤ b.1) l
  have hs : (l.insertionSort fun a b => a.1 ≤ b.1).Pairwise fun a b => a.1 ≤ b.1 := by
    have : Std.Total fun a b : Str × List (List Str) => a.1 ≤ b.1 := ⟨fun a b => le_total a.1 b.1⟩
    have : IsTrans (Str × List (List Str)) fun a b => a.1 ≤ b.1 := ⟨fun _ _ _ => le_trans⟩
    exact List.pairwise_insertionSort _ _
  have hne := List.pairwise_map.mp (((hp.map Prod.fst).nodup_iff).mpr hn)
  rw [cachedDeadlocks, hl]
  exact hs.imp₂ (fun _ _ hle hne => lt_of_le_of_ne hle hne) hne

end Detect

end AtcEngine

-- A conflict is about a path.
def Event.Evidenced : Event → Prop
  | .conflicts _ _ cs _ => ∀ c ∈ cs, c.requestedPath ≠ [] ∨ c.holderPathPattern ≠ []
  | _                   => True

open AtcEngine in
theorem coherent_step {gs : Globset} {ci : Bool} {engine engine' : AtcEngine} {e : Event}
    (hv : e.Evidenced) (h : engine.Coherent engine.dirtyProjects)
    (hs : step gs ci engine e = some engine') : engine'.Coherent engine'.dirtyProjects := by
  cases e
  case granted agent paths exclusive project =>
    rw [step, noteReservationGranted] at hs
    split at hs
    case isTrue =>
      cases hs
      exact h
    case isFalse =>
      have ⟨⟨g, n⟩, hg, hs⟩ := Option.bind_eq_some_iff.mp hs
      cases hs
      exact h.setGraph (ProjectConflictGraph.yields_clearBlocked h.settled_graphOf hg)
  case released agent paths project =>
    have ⟨⟨g, n⟩, hg, hs⟩ := Option.bind_eq_some_iff.mp hs
    cases hs
    exact h.setGraph (ProjectConflictGraph.yields_clearHolder h.settled_graphOf hg)
  case conflicts requester project cs ts =>
    cases hs
    exact h.noteConflicts hv
  case tick => exact h.pruneGraphs ProjectConflictGraph.yields_pruneStale hs
  case dead => exact h.pruneGraphs ProjectConflictGraph.yields_removeAgent hs
  case detect =>
    have ⟨e, he, hc, _, hd⟩ := h.detect
    rw [step, he] at hs
    cases hs
    exact hd ▸ hc

open AtcEngine in
theorem coherent_run {gs : Globset} {ci : Bool} {engine engine' : AtcEngine} {es : List Event}
    (hv : ∀ e ∈ es, e.Evidenced) (h : engine.Coherent engine.dirtyProjects)
    (hr : run (step gs ci) engine es = some engine') : engine'.Coherent engine'.dirtyProjects := by
  induction es generalizing engine
  case nil =>
    cases hr
    exact h
  case cons e es hi =>
    have ⟨e', hs, hr⟩ := Option.bind_eq_some_iff.mp hr
    have ⟨hv, hvs⟩ := List.forall_mem_cons.mp hv
    exact hi hvs (coherent_step hv h hs) hr

open AtcEngine in
-- After any run the cycles that are reported are those of the conflict graphs as they are now,
-- whatever was cached.
theorem detectDeadlocks_of_run {gs : Globset} {ci : Bool} {config : AtcConfig} {engine : AtcEngine}
    {es : List Event} (hr : run (step gs ci) (.new config) es = some engine)
    (hv : ∀ e ∈ es, e.Evidenced)
    (hg : ∀ row ∈ engine.conflictGraphs.rows, row.2.generation < 2 ^ 64 - 1) :
    ∃ engine' reports, engine.detectDeadlocks = some (engine', reports) ∧
      engine'.conflictGraphs = engine.conflictGraphs ∧
      reports.Pairwise (·.1 < ·.1) ∧ ∀ project cycles, (project, cycles) ∈ reports ↔ cycles ≠ [] ∧
        ∃ row ∈ engine.conflictGraphs.rows, row.1 = project ∧
          (findDeadlockCycles row.2).map normalizeDeadlockCycles = some cycles := by
  have ⟨e, he, hc, hgr, _⟩ := (coherent_run hv (coherent_new config) hr).detect
  refine ⟨e, _, he, hgr, pairwise_cachedDeadlocks, fun project cycles => ?_⟩
  have hget (p g) : e.graph? p = some g ↔ (p, g) ∈ engine.conflictGraphs.rows := by
    rw [graph?, hgr]
    constructor
    case mp =>
      intro h
      have ⟨⟨p', g'⟩, hr, he⟩ := Option.map_eq_some_iff.mp h
      have ⟨hm, hp⟩ := Table.get?_eq_some_iff.mp hr
      cases hp
      cases he
      exact hm
    case mpr =>
      intro h
      exact congrArg (Option.map _) (Table.get?_key h)
  rw [mem_cachedDeadlocks]
  refine and_congr_right fun hne => ?_
  constructor
  case mp =>
    rintro ⟨c, hcp, rfl⟩
    have ⟨g, hgp, hcur⟩ := hc.cached project c hcp
    have hm := (hget project g).mp hgp
    obtain ⟨c', hcp', hgen⟩ | ⟨hn, _⟩ := hc.clean project g hgp (by simp)
    · cases hcp.symm.trans hcp'
      exact ⟨(project, g), hm, rfl, (hcur (hg _ hm)).right hgen⟩
    · rw [hcp] at hn
      cases hn
  case mpr =>
    rintro ⟨⟨p, g⟩, hm, rfl, hf⟩
    have hgp := (hget p g).mpr hm
    obtain ⟨c, hcp, hgen⟩ | ⟨_, hnil⟩ := hc.clean p g hgp (by simp)
    · have ⟨g', hgp', hcur⟩ := hc.cached p c hcp
      cases hgp.symm.trans hgp'
      have hcur := (hcur (hg _ hm)).right hgen
      exact ⟨c, hcp, Option.some_inj.mp (hcur.symm.trans hf)⟩
    · have he : findDeadlockCycles g = some [] := by simp [findDeadlockCycles, agentsOf, hnil]
      rw [he] at hf
      cases hf
      exact absurd rfl hne

def mutualWaitEvents : List Event :=
  [.conflicts ['b'] ['p'] [⟨['a'], ['x'], ['x']⟩] 1, .detect,
    .conflicts ['a'] ['p'] [⟨['b'], ['y'], []⟩] 2, .granted ['a'] [['z']] true ['p'],
    .tick 60000001]

def mutualWaitEngine : AtcEngine :=
  (run (step .wildcard false) (.new ⟨0, 0⟩) mutualWaitEvents).get (by decide +kernel)

theorem detectDeadlocks_of_run_mutualWait :
    ∃ engine' reports, mutualWaitEngine.detectDeadlocks = some (engine', reports) ∧
      (['p'], [[['a'], ['b']]]) ∈ reports := by
  have ⟨engine', reports, he, _, _, h⟩ :=
    @detectDeadlocks_of_run .wildcard false ⟨0, 0⟩ mutualWaitEngine mutualWaitEvents
    (Option.some_get _).symm (by simp [mutualWaitEvents, Event.Evidenced]) (by decide +kernel)
  exact ⟨engine', reports, he, (h _ _).mpr ⟨by decide, by decide +kernel⟩⟩

end Deadlock
