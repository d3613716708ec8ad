import AgentMail.Lib.Pages
import AgentMail.Search.Service

open Pattern (Str)
open Schema

namespace Search

section

variable (query : SearchQuery) (env : Env) (options : SearchOptions)

-- A page with the cursor of the next one.
def page (cursor : Option Str) : List SearchResult × Option Str :=
  match executeSearch { query with cursor } env options with
  | .ok response => (response.results.map (·.result), response.nextCursor)
  | .error _     => ([], none)

def rank (ranking : RankingMode) (result : SearchResult) : Option Int :=
  match ranking with
  | .relevance => result.score.map (·.totalKey)
  | .recency   => result.createdTs

-- The best score or the newest first, then the id.
def Before (ranking : RankingMode) (a b : SearchResult) : Prop :=
  rank ranking b < rank ranking a ∨ rank ranking a = rank ranking b ∧ a.id < b.id

instance {ranking : RankingMode} : DecidableRel (Before ranking) := fun a b =>
  have : Decidable (rank ranking b < rank ranking a) :=
    inferInstanceAs (Decidable (Option.lt (· < ·) _ _))
  inferInstanceAs (Decidable (_ ∨ _))

def matchingAgents : List AgentRow :=
  (planAgentSearch env.like query).matches env.db.agents.rows

def matchingProjects : List ProjectRow :=
  (planProjectSearch env.like query).matches env.db.projects.rows

-- What the database says of each of the hits.
def matchingHits (hits : List SearchResult) : List SearchResult :=
  hits.flatMap fun hit =>
    canonicalizeMessageResults query env [hit] (options.searchEngine = some .lexical)

-- All the documents that match.
def allMatches : List SearchResult :=
  match query.docKind with
  | .agent   => (matchingAgents query env).map agentResult
  | .project => (matchingProjects query env).map projectResult
  | _        => matchingHits query env options (env.index query.engineQuery)

-- The pages are finitely many, and they show every match once, in rank order.
def EnumeratesMatches : Prop :=
  ∃ pages, Pages.Run (page query env options) none pages ∧
    pages.flatten.Pairwise (Before query.ranking) ∧
    ∀ result, result ∈ pages.flatten ↔ result ∈ allMatches query env options

-- The hits that the index is asked for.
def candidateCount : Nat :=
  SearchQuery.effectiveLimit { query with limit := some (fetchLimit query .lexical) }

-- There is one page of agents or of projects. The first page of messages is cut from fewer hits
-- than the others.
def ReachesMatches : Prop :=
  match query.docKind with
  | .agent   => (matchingAgents query env).length < query.effectiveLimit
  | .project => (matchingProjects query env).length < query.effectiveLimit
  | _        =>
    let hits  := env.index query.engineQuery
    let first := candidateCount { query with cursor := none }
    let next  := candidateCount { query with cursor := some [] }
    if (matchingHits query env options (hits.take first)).length < query.effectiveLimit then
      matchingHits query env options (hits.drop first) = []
    else
      matchingHits query env options (hits.drop next) = [] ∧
        ∀ result ∈ matchingHits query env options (hits.drop first),
          query.effectiveLimit ≤
            ((matchingHits query env options hits).filter (Before query.ranking · result)).length

end

-- The options of an operator.
def IsOperator (options : SearchOptions) : Prop :=
  (options.scopeCtx.getD defaultScopeContext).viewer = none

-- A time that is exact as a score.
def IsExactTime (createdTs : Int) : Prop :=
  -2 ^ 53 ≤ createdTs ∧ createdTs ≤ 2 ^ 53

-- A hit of the index has a 64-bit id, a finite score and a time.
structure IsHit (result : SearchResult) : Prop where
  le    : -2 ^ 63 ≤ result.id
  lt    : result.id < 2 ^ 63
  score : ∃ score : Float64, result.score = some score ∧ score.isFinite
  time  : ∃ createdTs, result.createdTs = some createdTs ∧ IsExactTime createdTs

-- The index has distinct hits, and it does not change.
structure IsIndexed (env : Env) (query : SearchQuery) : Prop where
  nodup    : ((env.index query.engineQuery).map (·.id)).Nodup
  hits     : ∀ hit ∈ env.index query.engineQuery, IsHit hit
  backfill : env.backfill = none
  times    : ∀ m ∈ env.db.messages.rows, IsExactTime m.createdTs

section

variable (query : SearchQuery) (env : Env) (options : SearchOptions)

def pageToken (ranking : RankingMode) (result : SearchResult) : Str :=
  SearchCursor.encode ⟨cursorSortScore result ranking, result.id⟩

-- The results that the page with the cursor is cut from.
def pageWindow (cursor : Option Str) : List SearchResult :=
  applyCursorWindow { query with cursor } <|
    matchingHits query env options <|
      (env.index query.engineQuery).take (candidateCount { query with cursor })

-- The matches among the given number of hits, in rank order.
def sortedMatches (count : Nat) : List SearchResult :=
  (matchingHits query env options ((env.index query.engineQuery).take count)).mergeSort
    (cursorOrder query.ranking)

end

end Search
