import AgentMail.Inbox.Basic
import AgentMail.Search.Basic
import Mathlib.Data.Set.Function

open Inbox (InboxStatsRow)
open Pattern (Str)
open Search (eqIgnoreAsciiCase toAsciiLowercase)

namespace Cache

-- Instants and durations are in nanoseconds.
def seconds (n : Nat) : Nat :=
  n * 1000000000

def projectTtl : Nat := seconds 300

def agentTtl : Nat := seconds 300

def inboxStatsTtl : Nat := seconds 30

def adaptiveTtlThreshold : Nat := 5

def hitWriteMaintenanceInterval : Nat := 4

structure ProjectRow where
  id        : Option Int
  slug      : Str
  humanKey  : Str
  createdAt : Int
  deriving DecidableEq

structure AgentRow where
  id                : Option Int
  projectId         : Int
  name              : Str
  program           : Str
  model             : Str
  taskDescription   : Str
  inceptionTs       : Int
  lastActiveTs      : Int
  attachmentsPolicy : Str
  contactPolicy     : Str
  reaperExempt      : Int
  registrationToken : Option Str
  deriving DecidableEq

structure CacheEntry (α : Type) where
  value        : α
  lastAccessed : Nat
  accessCount  : Nat

namespace CacheEntry

variable {α : Type}

def new (value : α) (now : Nat) : CacheEntry α where
  value        := value
  lastAccessed := now
  accessCount  := 0

variable (entry : CacheEntry α)

def effectiveTtl (baseTtl : Nat) : Nat :=
  if entry.accessCount ≥ adaptiveTtlThreshold then baseTtl * 2 else baseTtl

def isExpired (baseTtl now : Nat) : Bool :=
  now - entry.lastAccessed > entry.effectiveTtl baseTtl

def touch (now : Nat) : CacheEntry α :=
  { entry with lastAccessed := now, accessCount := min (entry.accessCount + 1) (2 ^ 32 - 1) }

end CacheEntry

-- For its callers the cache is a map, which may lose entries at any time.
abbrev S3FifoCache (κ α : Type) : Type :=
  Table (Prod.fst : κ × CacheEntry α → κ)

namespace S3FifoCache

variable {κ α : Type} [DecidableEq κ] (cache : S3FifoCache κ α)

def peek (key : κ) : Option (CacheEntry α) :=
  (cache.get? key).map Prod.snd

def insert (key : κ) (entry : CacheEntry α) : S3FifoCache κ α :=
  cache.put (key, entry)

def remove (key : κ) : S3FifoCache κ α :=
  cache.delete (·.1 = key)

def modify (key : κ) (f : CacheEntry α → CacheEntry α) : S3FifoCache κ α :=
  cache.update (·.1 = key) (Prod.map id f) fun _ => rfl

-- An entry that is found is touched, unless it has expired.
def touch (baseTtl now : Nat) (key : κ) : Bool × S3FifoCache κ α :=
  match cache.peek key with
  | some entry => if entry.isExpired baseTtl now then (true, cache)
    else (false, cache.modify key (·.touch now))
  | none       => (false, cache)

def maintain (baseTtl now : Nat) (key : κ) : S3FifoCache κ α :=
  let (expired, cache) := cache.touch baseTtl now key
  if expired then cache.remove key else cache

-- What the lookups have in common: under the read lock, and then under the write lock.
def lookup (baseTtl : Nat) (shouldMaintain : Bool) (now : Nat) (key : κ) :
    Option α × S3FifoCache κ α :=
  match cache.peek key with
  | none       => (none, cache)
  | some entry =>
    if ¬entry.isExpired baseTtl now then
      (some entry.value, if shouldMaintain then cache.maintain baseTtl now key else cache)
    else
      let (expired, cache) := cache.touch baseTtl now key
      if expired then
        (none, cache.remove key)
      else
        ((cache.peek key).map (·.value), cache)

end S3FifoCache

structure ReadCache where
  projectsBySlug     : S3FifoCache (Nat × Str) ProjectRow
  projectsByHumanKey : S3FifoCache (Nat × Str) ProjectRow
  agentsByKey        : S3FifoCache (Nat × Int × Str) AgentRow
  agentsById         : S3FifoCache (Nat × Int) AgentRow
  inboxStats         : S3FifoCache (Nat × Int) InboxStatsRow
  projectHits        : Nat
  agentHits          : Nat

namespace ReadCache

def new : ReadCache where
  projectsBySlug     := .empty
  projectsByHumanKey := .empty
  agentsByKey        := .empty
  agentsById         := .empty
  inboxStats         := .empty
  projectHits        := 0
  agentHits          := 0

-- Every fourth hit maintains the entry that it finds.
def sampled (hits : Nat) : Bool :=
  (hits + 1) % hitWriteMaintenanceInterval = 0

variable (scopeFingerprint : Str → Nat) (cache : ReadCache) (scope : Str)

def getProjectScoped (slug : Str) (now : Nat) : Option ProjectRow × ReadCache :=
  let (value, projectsBySlug) :=
    cache.projectsBySlug.lookup projectTtl (sampled cache.projectHits) now
    (scopeFingerprint scope, slug)
  (value, { cache with projectsBySlug, projectHits := cache.projectHits + value.isSome.toNat })

def getProjectByHumanKeyScoped (humanKey : Str) (now : Nat) : Option ProjectRow × ReadCache :=
  let (value, projectsByHumanKey) :=
    cache.projectsByHumanKey.lookup projectTtl (sampled cache.projectHits) now
    (scopeFingerprint scope, humanKey)
  (value, { cache with projectsByHumanKey, projectHits := cache.projectHits + value.isSome.toNat })

def warmProjectsScoped (projects : List ProjectRow) (now : Nat) : ReadCache :=
  let fp := scopeFingerprint scope
  {
    cache with
    projectsBySlug     :=
      projects.foldl (fun cache project => cache.insert (fp, project.slug) (.new project now))
        cache.projectsBySlug
    projectsByHumanKey :=
      projects.foldl (fun cache project => cache.insert (fp, project.humanKey) (.new project now))
        cache.projectsByHumanKey
  }

def putProjectScoped (project : ProjectRow) (now : Nat) : ReadCache :=
  let fp := scopeFingerprint scope
  {
    cache with
    projectsBySlug     := cache.projectsBySlug.insert (fp, project.slug) (.new project now)
    projectsByHumanKey := cache.projectsByHumanKey.insert (fp, project.humanKey) (.new project now)
  }

def getAgentScoped (projectId : Int) (name : Str) (now : Nat) : Option AgentRow × ReadCache :=
  let (value, agentsByKey) := cache.agentsByKey.lookup agentTtl (sampled cache.agentHits) now
    (scopeFingerprint scope, projectId, toAsciiLowercase name)
  (value, { cache with agentsByKey, agentHits := cache.agentHits + value.isSome.toNat })

def getAgentByIdScoped (agentId : Int) (now : Nat) : Option AgentRow × ReadCache :=
  let (value, agentsById) := cache.agentsById.lookup agentTtl (sampled cache.agentHits) now
    (scopeFingerprint scope, agentId)
  (value, { cache with agentsById, agentHits := cache.agentHits + value.isSome.toNat })

def insertAgentByKey (fp now : Nat) (cache : S3FifoCache (Nat × Int × Str) AgentRow)
    (agent : AgentRow) : S3FifoCache (Nat × Int × Str) AgentRow :=
  cache.insert (fp, agent.projectId, toAsciiLowercase agent.name) (.new agent now)

def insertAgentById (fp now : Nat) (cache : S3FifoCache (Nat × Int) AgentRow) (agent : AgentRow) :
    S3FifoCache (Nat × Int) AgentRow :=
  match agent.id with
  | some id => cache.insert (fp, id) (.new agent now)
  | none    => cache

def putAgentScoped (agent : AgentRow) (now : Nat) : ReadCache :=
  let fp := scopeFingerprint scope
  {
    cache with
    agentsByKey := insertAgentByKey fp now cache.agentsByKey agent
    agentsById  := insertAgentById fp now cache.agentsById agent
  }

def warmAgentsScoped (agents : List AgentRow) (now : Nat) : ReadCache :=
  let fp := scopeFingerprint scope
  {
    cache with
    agentsByKey := agents.foldl (insertAgentByKey fp now) cache.agentsByKey
    agentsById  := agents.foldl (insertAgentById fp now) cache.agentsById
  }

-- The ids that the index by id still has for the agent.
def staleIds (fp : Nat) (projectId : Int) (name : Str) : List Int :=
  cache.agentsById.rows.filterMap fun ((entryScope, agentId), _) =>
    if entryScope ≠ fp then
      none
    else
      (cache.agentsById.peek (entryScope, agentId)).bind fun entry =>
        if entry.value.projectId = projectId ∧ eqIgnoreAsciiCase entry.value.name name then
          some agentId else none

-- The ids are removed in order, each once, which makes no difference.
def invalidateAgentScoped (projectId : Int) (name : Str) (id : Option Int) : ReadCache :=
  let fp := scopeFingerprint scope
  let key := (fp, projectId, toAsciiLowercase name)
  let removedId := (cache.agentsByKey.peek key).bind (·.value.id)
  let agentIdsToRemove :=
    (id.or removedId).toList ++ if id = none then cache.staleIds fp projectId name else []
  {
    cache with
    agentsByKey := cache.agentsByKey.remove key
    agentsById  :=
      agentIdsToRemove.foldl (fun cache agentId => cache.remove (fp, agentId)) cache.agentsById
  }

-- The hits of the inbox counters are not maintained.
def getInboxStatsScoped (agentId : Int) (now : Nat) : Option InboxStatsRow × ReadCache :=
  let (value, inboxStats) :=
    cache.inboxStats.lookup inboxStatsTtl false now (scopeFingerprint scope, agentId)
  (value, { cache with inboxStats })

def putInboxStatsScoped (stats : InboxStatsRow) (now : Nat) : ReadCache :=
  { cache with
    inboxStats := cache.inboxStats.insert (scopeFingerprint scope, stats.agentId) (.new stats now) }

def invalidateInboxStatsScoped (agentId : Int) : ReadCache :=
  { cache with inboxStats := cache.inboxStats.remove (scopeFingerprint scope, agentId) }

def invalidateAllInboxStatsScoped : ReadCache :=
  let toRemove := (cache.inboxStats.rows.map Prod.fst).filter (·.1 = scopeFingerprint scope)
  { cache with inboxStats := toRemove.foldl (·.remove ·) cache.inboxStats }

end ReadCache

inductive Call
  | putProject (scope : Str) (project : ProjectRow)
  | warmProjects (scope : Str) (projects : List ProjectRow)
  | getProject (scope slug : Str)
  | getProjectByHumanKey (scope humanKey : Str)
  | putAgent (scope : Str) (agent : AgentRow)
  | warmAgents (scope : Str) (agents : List AgentRow)
  | getAgent (scope : Str) (projectId : Int) (name : Str)
  | getAgentById (scope : Str) (agentId : Int)
  | invalidateAgent (scope : Str) (projectId : Int) (name : Str) (id : Option Int)
  | putInboxStats (scope : Str) (stats : InboxStatsRow)
  | getInboxStats (scope : Str) (agentId : Int)
  | invalidateInboxStats (scope : Str) (agentId : Int)
  | invalidateAllInboxStats (scope : Str)

def Call.scope : Call → Str
  | putProject scope _ | warmProjects scope _ | getProject scope _ | getProjectByHumanKey scope _
  | putAgent scope _ | warmAgents scope _ | getAgent scope _ _ | getAgentById scope _
  | invalidateAgent scope _ _ _ | putInboxStats scope _ | getInboxStats scope _
  | invalidateInboxStats scope _ | invalidateAllInboxStats scope => scope

-- The entries that are lost, index by index.
structure Loss where
  projectsBySlug     : Nat × Str → Bool
  projectsByHumanKey : Nat × Str → Bool
  agentsByKey        : Nat × Int × Str → Bool
  agentsById         : Nat × Int → Bool
  inboxStats         : Nat × Int → Bool

inductive Step
  | call (now : Nat) (call : Call)
  | lose (loss : Loss)

def Step.time? : Step → Option Nat
  | call now _ => some now
  | lose _     => none

-- The time does not go back.
def Clocked (steps : List Step) : Prop :=
  (steps.filterMap Step.time?).Pairwise (· ≤ ·)

namespace ReadCache

variable (scopeFingerprint : Str → Nat)

def exec (cache : ReadCache) (now : Nat) : Call → ReadCache
  | .putProject scope project                =>
    cache.putProjectScoped scopeFingerprint scope project now
  | .warmProjects scope projects             =>
    cache.warmProjectsScoped scopeFingerprint scope projects now
  | .getProject scope slug                   =>
    (cache.getProjectScoped scopeFingerprint scope slug now).2
  | .getProjectByHumanKey scope humanKey     =>
    (cache.getProjectByHumanKeyScoped scopeFingerprint scope humanKey now).2
  | .putAgent scope agent                    =>
    cache.putAgentScoped scopeFingerprint scope agent now
  | .warmAgents scope agents                 =>
    cache.warmAgentsScoped scopeFingerprint scope agents now
  | .getAgent scope projectId name           =>
    (cache.getAgentScoped scopeFingerprint scope projectId name now).2
  | .getAgentById scope agentId              =>
    (cache.getAgentByIdScoped scopeFingerprint scope agentId now).2
  | .invalidateAgent scope projectId name id =>
    cache.invalidateAgentScoped scopeFingerprint scope projectId name id
  | .putInboxStats scope stats               => cache.putInboxStatsScoped scopeFingerprint scope
    stats now
  | .getInboxStats scope agentId             =>
    (cache.getInboxStatsScoped scopeFingerprint scope agentId now).2
  | .invalidateInboxStats scope agentId      =>
    cache.invalidateInboxStatsScoped scopeFingerprint scope agentId
  | .invalidateAllInboxStats scope           =>
    cache.invalidateAllInboxStatsScoped scopeFingerprint scope

def lose (cache : ReadCache) (loss : Loss) : ReadCache :=
  {
    cache with
    projectsBySlug     := cache.projectsBySlug.delete (loss.projectsBySlug ·.1)
    projectsByHumanKey := cache.projectsByHumanKey.delete (loss.projectsByHumanKey ·.1)
    agentsByKey        := cache.agentsByKey.delete (loss.agentsByKey ·.1)
    agentsById         := cache.agentsById.delete (loss.agentsById ·.1)
    inboxStats         := cache.inboxStats.delete (loss.inboxStats ·.1)
  }

def step (cache : ReadCache) : Step → ReadCache
  | .call now call => cache.exec scopeFingerprint now call
  | .lose loss     => cache.lose loss

def after (steps : List Step) : ReadCache :=
  steps.foldl (step scopeFingerprint) new

end ReadCache

-- A key of one of the indexes: what the calls put under it, in order, which of its values they
-- invalidate, and which lookups may refresh its entry.
structure Slot (α : Type) where
  puts      : Call → List α
  voids     : Call → α → Prop
  refreshes : Call → Prop

namespace Slot

def projectsBySlug (scope slug : Str) : Slot ProjectRow where
  puts
    | .putProject scope' project    => [project].filter fun project =>
      scope' = scope ∧ project.slug = slug
    | .warmProjects scope' projects => projects.filter fun project =>
      scope' = scope ∧ project.slug = slug
    | _                             => []
  voids _ _ := False
  refreshes call := call = .getProject scope slug

def projectsByHumanKey (scope humanKey : Str) : Slot ProjectRow where
  puts
    | .putProject scope' project    => [project].filter fun project =>
      scope' = scope ∧ project.humanKey = humanKey
    | .warmProjects scope' projects => projects.filter fun project =>
      scope' = scope ∧ project.humanKey = humanKey
    | _                             => []
  voids _ _ := False
  refreshes call := call = .getProjectByHumanKey scope humanKey

def isNamed (projectId : Int) (name : Str) (agent : AgentRow) : Bool :=
  agent.projectId = projectId ∧ eqIgnoreAsciiCase agent.name name

def agentsByKey (scope : Str) (projectId : Int) (name : Str) : Slot AgentRow where
  puts
    | .putAgent scope' agent    => [agent].filter fun agent =>
      scope' = scope ∧ isNamed projectId name agent
    | .warmAgents scope' agents => agents.filter fun agent =>
      scope' = scope ∧ isNamed projectId name agent
    | _                         => []
  voids
    | .invalidateAgent scope' projectId' name' _, _ =>
      scope' = scope ∧ projectId' = projectId ∧ eqIgnoreAsciiCase name' name
    | _, _                                          => False
  refreshes
    | .getAgent scope' projectId' name' =>
      scope' = scope ∧ projectId' = projectId ∧ eqIgnoreAsciiCase name' name
    | _                                 => False

-- Without an id, the agent is invalidated under every id.
def agentsById (scope : Str) (agentId : Int) : Slot AgentRow where
  puts
    | .putAgent scope' agent    => [agent].filter fun agent =>
      scope' = scope ∧ agent.id = some agentId
    | .warmAgents scope' agents => agents.filter fun agent =>
      scope' = scope ∧ agent.id = some agentId
    | _                         => []
  voids
    | .invalidateAgent scope' projectId name id, agent =>
      scope' = scope ∧ (id = some agentId ∨ id = none ∧ isNamed projectId name agent)
    | _, _                                             => False
  refreshes call := call = .getAgentById scope agentId

def inboxStats (scope : Str) (agentId : Int) : Slot InboxStatsRow where
  puts
    | .putInboxStats scope' stats => [stats].filter fun stats =>
      scope' = scope ∧ stats.agentId = agentId
    | _                           => []
  voids
    | .invalidateInboxStats scope' agentId', _ => scope' = scope ∧ agentId' = agentId
    | .invalidateAllInboxStats scope', _       => scope' = scope
    | _, _                                     => False
  refreshes _ := False

variable {α : Type} (slot : Slot α)

-- The value was put at `t`, and `later` has neither put another one nor invalidated it.
structure Latest (steps : List Step) (value : α) (t : Nat) (later : List Step) : Prop where
  put     : ∃ earlier call, steps = earlier ++ .call t call :: later ∧
    (slot.puts call).getLast? = some value
  current : ∀ now call, .call now call ∈ later → slot.puts call = [] ∧ ¬slot.voids call value

-- The value was put no longer ago than `limit`.
def PutWithin (limit : Nat) (steps : List Step) (now : Nat) (value : α) : Prop :=
  ∃ t later, slot.Latest steps value t later ∧ now ≤ t + limit

-- The value was put, or refreshed by a lookup, no longer ago than `limit`.
def UsedWithin (limit : Nat) (steps : List Step) (now : Nat) (value : α) : Prop :=
  ∃ t later, slot.Latest steps value t later ∧
    ∃ t', (t' = t ∨ ∃ call, .call t' call ∈ later ∧ slot.refreshes call) ∧ now ≤ t' + limit

end Slot

-- The agents that a call puts.
def Call.agents (scope : Str) : Call → List AgentRow
  | putAgent scope' agent    => if scope' = scope then [agent] else []
  | warmAgents scope' agents => if scope' = scope then agents else []
  | _                        => []

section

variable (within : {α : Type} → Slot α → Nat → List Step → Nat → α → Prop)
  (scopeFingerprint : Str → Nat) (scopes : Set Str) (steps : List Step) (now : Nat)

-- What the lookups at `now` return after the steps, for the scopes that are used.
structure Answers : Prop where
  projectsBySlug     : ∀ scope ∈ scopes, ∀ slug value,
    ((ReadCache.after scopeFingerprint steps).getProjectScoped scopeFingerprint scope slug now).1 =
      some value →
    within (.projectsBySlug scope slug) (2 * projectTtl) steps now value
  projectsByHumanKey : ∀ scope ∈ scopes, ∀ humanKey value,
    ((ReadCache.after scopeFingerprint steps).getProjectByHumanKeyScoped scopeFingerprint scope
      humanKey now).1 = some value →
    within (.projectsByHumanKey scope humanKey) (2 * projectTtl) steps now value
  agentsByKey        : ∀ scope ∈ scopes, ∀ projectId name value,
    ((ReadCache.after scopeFingerprint steps).getAgentScoped scopeFingerprint scope projectId name
      now).1 = some value →
    within (.agentsByKey scope projectId name) (2 * agentTtl) steps now value
  agentsById         : ∀ scope ∈ scopes, ∀ agentId value,
    ((ReadCache.after scopeFingerprint steps).getAgentByIdScoped scopeFingerprint scope agentId
      now).1 = some value →
    within (.agentsById scope agentId) (2 * agentTtl) steps now value
  inboxStats         : ∀ scope ∈ scopes, ∀ agentId value,
    ((ReadCache.after scopeFingerprint steps).getInboxStatsScoped scopeFingerprint scope agentId
      now).1 = some value →
    Slot.PutWithin (.inboxStats scope agentId) (2 * inboxStatsTtl) steps now value
  invalidated        : ∀ scope ∈ scopes, ∀ earlier t projectId name id later,
    steps = earlier ++ .call t (.invalidateAgent scope projectId name id) :: later →
    (∀ name' value, eqIgnoreAsciiCase name' name →
      ((ReadCache.after scopeFingerprint steps).getAgentScoped scopeFingerprint scope projectId
        name' now).1 = some value →
      ∃ t' call, .call t' call ∈ later ∧ value ∈ call.agents scope) ∧
    ∀ agentId value, id = none ∨ id = some agentId → Slot.isNamed projectId name value →
      ((ReadCache.after scopeFingerprint steps).getAgentByIdScoped scopeFingerprint scope agentId
        now).1 = some value →
      ∃ t' call, .call t' call ∈ later ∧ value ∈ call.agents scope

end

end Cache
