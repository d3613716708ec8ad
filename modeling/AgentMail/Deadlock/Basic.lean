import AgentMail.Lib.Digraph
import AgentMail.Lib.Run
import AgentMail.Lib.Saturating
import AgentMail.Lib.Table
import AgentMail.Pattern.Basic
import Mathlib.Data.Char
import Mathlib.Data.Int.Order.Basic
import Mathlib.Data.List.Lex
import Mathlib.Data.List.Sort
import Mathlib.Logic.Function.Basic

open Pattern (Str Globset CompiledPattern)
open Function (update)

namespace Deadlock

structure HardEdge where
  holder            : Str
  blocked           : Str
  contestedPatterns : List Str
  since             : Int
  deriving DecidableEq

-- The edges are a map from holders, listed in the order of its iteration.
structure ProjectConflictGraph where
  hardEdges  : List (Str × List HardEdge)
  generation : Nat
  deriving DecidableEq

-- `retain`, which also counts what it takes away. It ends early where a test panics.
def retain {α : Type} (f : α → Option (Option α × Nat)) : List α → Option (List α × Nat)
  | []      => some ([], 0)
  | a :: as => do
    let (kept, n) ← f a
    let (rest, m) ← retain f as
    return (kept.toList ++ rest, n + m)

section Patterns

variable (gs : Globset) (caseInsensitive : Bool)

def patternsOverlap (left right : Str) : Option Bool :=
  (CompiledPattern.new gs caseInsensitive left).overlaps caseInsensitive
    (.new gs caseInsensitive right)

def isWildcardPathMarker (path : Str) : Bool :=
  path = "<all-active>".toList || path = "<unknown>".toList

def retainPattern (paths : List Str) (pattern : Str) : Option (Option Str × Nat) := do
  if ← paths.anyM (patternsOverlap gs caseInsensitive pattern) then
    return (none, 1)
  else
    return (some pattern, 0)

def HardEdge.clear (paths : List Str) (edge : HardEdge) : Option (Option HardEdge × Nat) :=
  if paths.any isWildcardPathMarker then
    some (none, max edge.contestedPatterns.length 1)
  else do
    let (contestedPatterns, removed) ← retain (retainPattern gs caseInsensitive paths)
      edge.contestedPatterns
    return (if contestedPatterns = [] then none else some { edge with contestedPatterns }, removed)

end Patterns

namespace ProjectConflictGraph

def bumpGeneration (graph : ProjectConflictGraph) : ProjectConflictGraph :=
  { graph with generation := U64.saturate (graph.generation + 1) }

-- `sort` and `dedup`
def sortDedup (patterns : List Str) : List Str :=
  (patterns.insertionSort (· ≤ ·)).dedup

def edgesOf (graph : ProjectConflictGraph) (holder : Str) : List HardEdge :=
  (graph.hardEdges.lookup holder).getD []

-- `entry(holder).or_default()` with other edges
def setEdges (graph : ProjectConflictGraph) (holder : Str) (edges : List HardEdge) :
    ProjectConflictGraph :=
  if (graph.hardEdges.lookup holder).isSome then
    { graph with hardEdges := graph.hardEdges.map fun row => if row.1 = holder then
      (holder, edges) else row }
  else
    { graph with hardEdges := graph.hardEdges ++ [(holder, edges)] }

def addPattern (acc : List Str × Bool) (pattern : Str) : List Str × Bool :=
  if pattern ≠ [] ∧ pattern ∉ acc.1 then (acc.1 ++ [pattern], true) else acc

-- The first edge to the same agent makes room for the edge.
def replaceEdge (edge : HardEdge) : List HardEdge → List HardEdge
  | []      => []
  | e :: es => if e.blocked = edge.blocked then edge :: es else e :: replaceEdge edge es

def recordBlockingConflict (graph : ProjectConflictGraph)
    (holder blocked requestedPath holderPathPattern : Str) (since : Int) :
    ProjectConflictGraph × Bool :=
  if holder = [] ∨ blocked = [] ∨ holder = blocked then
    (graph, false)
  else
    let edges := graph.edgesOf holder
    match edges.find? (·.blocked = blocked) with
    | some edge =>
      let (patterns, changed) :=
        [requestedPath, holderPathPattern].foldl addPattern (edge.contestedPatterns, false)
      let (since, changed) := if since > 0 ∧ (edge.since = 0 ∨ since < edge.since) then
        (since, true) else (edge.since, changed)
      if changed then
        let edge := { edge with contestedPatterns := sortDedup patterns, since }
        ((graph.setEdges holder (replaceEdge edge edges)).bumpGeneration, true)
      else
        (graph, false)
    | none =>
      let contestedPatterns := sortDedup ([requestedPath, holderPathPattern].filter (· ≠ []))
      let edge := { holder, blocked, contestedPatterns, since }
      ((graph.setEdges holder (edges ++ [edge])).bumpGeneration, true)

-- The rows that are left, with a new generation if anything was taken away.
def retainRows (graph : ProjectConflictGraph)
    (f : Str × List HardEdge → Option (Option (Str × List HardEdge) × Nat)) :
    Option (ProjectConflictGraph × Nat) := do
  let (hardEdges, removed) ← retain f graph.hardEdges
  let graph := { graph with hardEdges }
  return (if removed > 0 then graph.bumpGeneration else graph, removed)

def keepRow (row : Str × List HardEdge) (edges : List HardEdge) : Option (Str × List HardEdge) :=
  if edges = [] then none else some (row.1, edges)

def retainRow (f : HardEdge → Option (Option HardEdge × Nat)) (row : Str × List HardEdge) :
    Option (Option (Str × List HardEdge) × Nat) := do
  let (edges, removed) ← retain f row.2
  return (keepRow row edges, removed)

section Clear

variable (gs : Globset) (caseInsensitive : Bool)

def clearBlockedConflictsForGrant (graph : ProjectConflictGraph) (blocked : Str)
    (grantedPaths : List Str) : Option (ProjectConflictGraph × Nat) :=
  if blocked = [] then
    some (graph, 0)
  else
    graph.retainRows <| retainRow fun edge =>
      if edge.blocked ≠ blocked then some (some edge, 0)
        else edge.clear gs caseInsensitive grantedPaths

def clearHolderConflictsForRelease (graph : ProjectConflictGraph) (holder : Str)
    (releasedPaths : List Str) : Option (ProjectConflictGraph × Nat) :=
  graph.retainRows fun row =>
    if row.1 ≠ holder then some (some row, 0)
      else retainRow (HardEdge.clear gs caseInsensitive releasedPaths) row

end Clear

-- The row with the edges that pass a test.
def filterRow (p : HardEdge → Bool) (row : Str × List HardEdge) :
    Option (Option (Str × List HardEdge) × Nat) :=
  some (keepRow row (row.2.filter p), row.2.length - (row.2.filter p).length)

def pruneStaleEdges (graph : ProjectConflictGraph) (cutoffMicros : Int) :
    Option (ProjectConflictGraph × Nat) :=
  graph.retainRows (filterRow fun edge => edge.since = 0 || edge.since ≥ cutoffMicros)

def removeAgent (graph : ProjectConflictGraph) (agent : Str) :
    Option (ProjectConflictGraph × Nat) :=
  graph.retainRows fun row =>
    if row.1 = agent then some (none, row.2.length) else filterRow (·.blocked ≠ agent) row

-- The holder has what the blocked agent waits for.
def Blocks (graph : ProjectConflictGraph) (holder blocked : Str) : Prop :=
  ∃ row ∈ graph.hardEdges, row.1 = holder ∧ ∃ edge ∈ row.2, edge.blocked = blocked

end ProjectConflictGraph

-- The nodes are indices of agents. An index of `usize::MAX` is none. The components hold nodes,
-- whose names are put in at the end.
structure TarjanScc (n : Nat) where
  indexCounter : Nat
  stack        : List (Fin n)
  onStack      : Fin n → Bool
  indices      : Fin n → Option Nat
  lowlinks     : Fin n → Nat
  sccs         : List (List (Fin n))

namespace TarjanScc

variable {n : Nat}

def new : TarjanScc n where
  indexCounter := 0
  stack        := []
  onStack _    := false
  indices _    := none
  lowlinks _   := 0
  sccs         := []

def enter (t : TarjanScc n) (node : Fin n) : TarjanScc n :=
  {
    t with
    indices      := update t.indices node (some t.indexCounter)
    lowlinks     := update t.lowlinks node t.indexCounter
    indexCounter := t.indexCounter + 1
    stack        := node :: t.stack
    onStack      := update t.onStack node true
  }

def lower (t : TarjanScc n) (node : Fin n) (bound : Nat) : TarjanScc n :=
  { t with lowlinks := update t.lowlinks node (min (t.lowlinks node) bound) }

-- `while let Some(member) = self.stack.pop()` up to the node
def popThrough (node : Fin n) : List (Fin n) → List (Fin n) × List (Fin n)
  | []              => ([], [])
  | member :: stack =>
    if member = node then
      ([member], stack)
    else
      let (scc, stack) := popThrough node stack
      (member :: scc, stack)

def leave (t : TarjanScc n) (node : Fin n) : TarjanScc n :=
  if t.indices node = some (t.lowlinks node) then
    let (scc, stack) := popThrough node t.stack
    {
      t with
      stack
      onStack := fun member => t.onStack member && member ∉ scc
      sccs    := if scc.length > 1 then t.sccs ++ [scc] else t.sccs
    }
  else
    t

-- The body of the loop over the neighbors. The recursive call is the parameter.
def visit (recurse : Fin n → TarjanScc n → Option (TarjanScc n)) (node : Fin n) (t : TarjanScc n)
    (neighbor : Fin n) : Option (TarjanScc n) :=
  match t.indices neighbor with
  | none => do
    let t ← recurse neighbor t
    return t.lower node (t.lowlinks neighbor)
  | some index => some (if t.onStack neighbor then t.lower node index else t)

variable (adj : Fin n → List (Fin n))

def Edge (a b : Fin n) : Prop :=
  b ∈ adj a

-- The recursion is cut off at a depth.
def strongconnect : Nat → Fin n → TarjanScc n → Option (TarjanScc n)
  | 0, _, _           => none
  | fuel + 1, node, t => do
    let t ← (adj node).foldlM (visit (strongconnect fuel) node) (t.enter node)
    return t.leave node

def connectIfNew (fuel : Nat) (t : TarjanScc n) (node : Fin n) : Option (TarjanScc n) :=
  if t.indices node = none then strongconnect adj fuel node t else some t

end TarjanScc

section Cycles

def addAgent (agents : List Str) (agent : Str) : List Str :=
  if agent ∈ agents then agents else agents ++ [agent]

def addRowAgents (agents : List Str) (row : Str × List HardEdge) : List Str :=
  row.2.foldl (fun agents edge => addAgent agents edge.blocked) (addAgent agents row.1)

-- The agents of the graph, in the order in which they are met. The map from agents to indices is
-- `finIdxOf?`.
def agentsOf (graph : ProjectConflictGraph) : List Str :=
  graph.hardEdges.foldl addRowAgents []

variable (agents : List Str)

def addEdge (source : Fin agents.length) (adj : Fin agents.length → List (Fin agents.length))
    (edge : HardEdge) : Fin agents.length → List (Fin agents.length) :=
  match agents.finIdxOf? edge.blocked with
  | none        => adj
  | some target => if target ∈ adj source then adj else update adj source (adj source ++ [target])

def addRow (adj : Fin agents.length → List (Fin agents.length)) (row : Str × List HardEdge) :
    Fin agents.length → List (Fin agents.length) :=
  match agents.finIdxOf? row.1 with
  | none        => adj
  | some source => row.2.foldl (addEdge agents source) adj

def adjacency (graph : ProjectConflictGraph) : Fin agents.length → List (Fin agents.length) :=
  graph.hardEdges.foldl (addRow agents) fun _ => []

def findDeadlockCycles (graph : ProjectConflictGraph) : Option (List (List Str)) :=
  let agents := agentsOf graph
  if agents.length < 2 then
    some []
  else do
    let t ← (List.finRange agents.length).foldlM
      (TarjanScc.connectIfNew (adjacency agents graph) agents.length) TarjanScc.new
    return t.sccs.map (·.map agents.get)

def normalizeDeadlockCycles (cycles : List (List Str)) : List (List Str) :=
  (cycles.map (·.insertionSort (· ≤ ·))).insertionSort (· ≤ ·)

end Cycles

structure DeadlockCacheEntry where
  generation : Nat
  cycles     : List (List Str)
  deriving DecidableEq

abbrev Graphs : Type :=
  Table (Prod.fst : Str × ProjectConflictGraph → Str)

abbrev DeadlockCache : Type :=
  Table (Prod.fst : Str × DeadlockCacheEntry → Str)

structure AtcConfig where
  advisoryCooldownMicros : Int
  probeIntervalMicros    : Int

structure AtcEngine where
  config              : AtcConfig
  conflictGraphs      : Graphs
  dirtyProjects       : List Str
  deadlockCache       : DeadlockCache
  deadlockCycleTotal  : Nat
  deadlockCacheHits   : Nat
  deadlockCacheMisses : Nat

namespace AtcEngine

def new (config : AtcConfig) : AtcEngine where
  config
  conflictGraphs      := .empty
  dirtyProjects       := []
  deadlockCache       := .empty
  deadlockCycleTotal  := 0
  deadlockCacheHits   := 0
  deadlockCacheMisses := 0

def graphOf (engine : AtcEngine) (project : Str) : ProjectConflictGraph :=
  ((engine.conflictGraphs.get? project).map Prod.snd).getD { hardEdges := [], generation := 0 }

def setGraph (engine : AtcEngine) (project : Str) (graph : ProjectConflictGraph) (changed : Bool) :
    AtcEngine :=
  {
    engine with
    conflictGraphs := engine.conflictGraphs.put (project, graph)
    dirtyProjects  := if changed then engine.dirtyProjects.insert project else engine.dirtyProjects
  }

def conflictEdgeTtlMicros (engine : AtcEngine) : Int :=
  max (max engine.config.advisoryCooldownMicros
    (I64.saturate (engine.config.probeIntervalMicros * 4))) 60000000

section Notes

variable (gs : Globset) (caseInsensitive : Bool)

def noteReservationGranted (engine : AtcEngine) (agent : Str) (paths : List Str) (exclusive : Bool)
    (project : Str) : Option AtcEngine :=
  if !exclusive || paths = [] then
    some engine
  else do
    let (graph, cleared) ← (engine.graphOf project).clearBlockedConflictsForGrant gs caseInsensitive
      agent paths
    return engine.setGraph project graph (cleared > 0)

def noteReservationReleased (engine : AtcEngine) (agent : Str) (paths : List Str) (project : Str) :
    Option AtcEngine := do
  let (graph, cleared) ← (engine.graphOf project).clearHolderConflictsForRelease gs caseInsensitive
    agent paths
  return engine.setGraph project graph (cleared > 0)

end Notes

structure AtcConflictObservation where
  holder            : Str
  requestedPath     : Str
  holderPathPattern : Str

def addConflict (requester : Str) (timestampMicros : Int) (acc : ProjectConflictGraph × Bool)
    (c : AtcConflictObservation) : ProjectConflictGraph × Bool :=
  let (graph, changed) :=
    acc.1.recordBlockingConflict c.holder requester c.requestedPath c.holderPathPattern
      timestampMicros
  (graph, acc.2 || changed)

def noteReservationConflicts (engine : AtcEngine) (requester project : Str)
    (conflicts : List AtcConflictObservation) (timestampMicros : Int) : AtcEngine :=
  if requester = [] ∨ conflicts.isEmpty then
    engine
  else
    let (graph, added) :=
      conflicts.foldl (addConflict requester timestampMicros) (engine.graphOf project, false)
    engine.setGraph project graph added

-- The loop of `prune_stale_conflicts` and `prune_agent_from_conflict_graphs` over the projects.
def pruneGraphs (prune : ProjectConflictGraph → Option (ProjectConflictGraph × Nat))
    (engine : AtcEngine) : Option AtcEngine :=
  (engine.conflictGraphs.rows.map Prod.fst).foldlM (fun engine project => do
    let (graph, removed) ← prune (engine.graphOf project)
    return engine.setGraph project graph (removed > 0)) engine

def pruneStaleConflicts (engine : AtcEngine) (nowMicros : Int) : Option AtcEngine :=
  pruneGraphs (·.pruneStaleEdges (I64.saturatingSub nowMicros engine.conflictEdgeTtlMicros)) engine

def pruneAgentFromConflictGraphs (engine : AtcEngine) (agentName : Str) : Option AtcEngine :=
  pruneGraphs (·.removeAgent agentName) engine

def updateDeadlockCacheForProject (engine : AtcEngine) (project : Str) : Option AtcEngine :=
  match engine.conflictGraphs.get? project with
  | none            =>
    some { engine with deadlockCache := engine.deadlockCache.delete (·.1 = project) }
  | some (_, graph) =>
    if (engine.deadlockCache.get? project).all (·.2.generation ≠ graph.generation) then do
      let cycles ← findDeadlockCycles graph
      return {
        engine with
        deadlockCacheMisses := U64.saturate (engine.deadlockCacheMisses + 1)
        deadlockCache       := engine.deadlockCache.put
          (project, { generation := graph.generation, cycles := normalizeDeadlockCycles cycles })
      }
    else
      some { engine with deadlockCacheHits := U64.saturate (engine.deadlockCacheHits + 1) }

def recomputeDeadlockTotals (engine : AtcEngine) : AtcEngine :=
  { engine with deadlockCycleTotal := (engine.deadlockCache.rows.map (·.2.cycles.length)).sum }

def cachedDeadlocks (engine : AtcEngine) : List (Str × List (List Str)) :=
  ((engine.deadlockCache.rows.filter (·.2.cycles ≠ [])).map fun row =>
    (row.1, row.2.cycles)).insertionSort (·.1 ≤ ·.1)

-- `dirty_projects.extend(..)` with all projects that have a graph
def allDirty (engine : AtcEngine) : List Str :=
  engine.dirtyProjects ++ (engine.conflictGraphs.rows.map Prod.fst).filter
    (· ∉ engine.dirtyProjects)

def detectDeadlocks (engine : AtcEngine) : Option (AtcEngine × List (Str × List (List Str))) := do
  let dirty := if engine.deadlockCache.rows = [] then engine.allDirty else engine.dirtyProjects
  let reused := engine.conflictGraphs.rows.length - dirty.length
  let engine ← dirty.foldlM updateDeadlockCacheForProject {
    engine with
    dirtyProjects     := []
    deadlockCacheHits := U64.saturate (engine.deadlockCacheHits + reused)
  }
  let engine := engine.recomputeDeadlockTotals
  return (engine, engine.cachedDeadlocks)

end AtcEngine

inductive Event
  | granted (agent : Str) (paths : List Str) (exclusive : Bool) (project : Str)
  | released (agent : Str) (paths : List Str) (project : Str)
  | conflicts (requester project : Str) (conflicts : List AtcEngine.AtcConflictObservation)
      (timestampMicros : Int)
  | tick (nowMicros : Int)
  | dead (agent : Str)
  | detect

def step (gs : Globset) (caseInsensitive : Bool) (engine : AtcEngine) : Event → Option AtcEngine
  | .granted agent paths exclusive project    =>
    engine.noteReservationGranted gs caseInsensitive agent paths exclusive project
  | .released agent paths project             =>
    engine.noteReservationReleased gs caseInsensitive agent paths project
  | .conflicts requester project conflicts ts =>
    some (engine.noteReservationConflicts requester project conflicts ts)
  | .tick nowMicros                           => engine.pruneStaleConflicts nowMicros
  | .dead agent                               => engine.pruneAgentFromConflictGraphs agent
  | .detect                                   => engine.detectDeadlocks.map Prod.fst

end Deadlock
