import AgentMail.Search.Basic
import AgentMail.Schema.Basic

open Pattern (Str)
open Schema

namespace Search

inductive PlanParam
  | int (n : Int)
  | text (s : Str)
  | float (x : Float64)
  deriving DecidableEq

inductive PlanMethod
  | like
  | filterOnly
  | empty
  deriving DecidableEq

-- A condition on rows, with a number of placeholders for parameters.
structure Clause (ρ : Type) where
  placeholders : Nat
  holds        : List PlanParam → ρ → Bool

-- The conditions take their parameters in their order.
def holdsAll {ρ : Type} : List (Clause ρ) → List PlanParam → ρ → Bool
  | [], _, _                   => true
  | clause :: clauses, ps, row =>
    clause.holds (ps.take clause.placeholders) row &&
      holdsAll clauses (ps.drop clause.placeholders) row

-- A query of the rows that satisfy the conditions. The last parameter is the limit.
structure SearchPlan (ρ : Type) where
  clauses       : List (Clause ρ)
  order         : ρ → ρ → Bool
  params        : List PlanParam
  method        : PlanMethod
  facetsApplied : List Str
  scopeEnforced : Bool
  scopeLabel    : Str

def scopePolicyLabel : ScopePolicy → Str
  | .unrestricted             => "unrestricted".toList
  | .callerScoped callerAgent => "caller_scoped:".toList ++ callerAgent
  | .projectSet ids           => "project_set:".toList ++ (toString ids.length).toList

-- A set of projects that is empty is not enforced.
def ScopePolicy.enforced : ScopePolicy → Bool
  | .projectSet ids => ids ≠ []
  | _               => false

def SearchPlan.empty {ρ : Type} (scopeLabel : Str) : SearchPlan ρ where
  clauses       := []
  order         := fun _ _ => true
  params        := []
  method        := .empty
  facetsApplied := []
  scopeEnforced := false
  scopeLabel    := scopeLabel

-- The rows without the limit.
def SearchPlan.matches {ρ : Type} (plan : SearchPlan ρ) (rows : List ρ) : List ρ :=
  if plan.method = .empty then []
  else (rows.filter (holdsAll plan.clauses plan.params)).mergeSort plan.order

def SearchPlan.rows {ρ : Type} (plan : SearchPlan ρ) (rows : List ρ) : List ρ :=
  match plan.params.getLast? with
  | some (.int limit) => (plan.matches rows).take limit.toNat
  | _                 => plan.matches rows

section

variable {ρ : Type}

def placeholders (clauses : List (Clause ρ)) : Nat :=
  (clauses.map (·.placeholders)).sum

-- A part of a `WHERE` clause, with a parameter for every placeholder.
structure Part (ρ : Type) where
  clauses : List (Clause ρ)
  params  : List PlanParam
  facets  : List Str
  fits    : params.length = placeholders clauses

def Part.none : Part ρ where
  clauses := []
  params  := []
  facets  := []
  fits    := rfl

def Part.one (clause : Clause ρ) (params : List PlanParam) (facet : Str)
    (h : params.length = clause.placeholders) : Part ρ where
  clauses := [clause]
  params  := params
  facets  := [facet]
  fits    := by simpa [placeholders] using h

def Part.append (part part' : Part ρ) : Part ρ where
  clauses := part.clauses ++ part'.clauses
  params  := part.params ++ part'.params
  facets  := part.facets ++ part'.facets
  fits    := by simp [placeholders, part.fits, part'.fits]

def Part.all (parts : List (Part ρ)) : Part ρ :=
  parts.foldr .append .none

def SearchPlan.ofPart (part : Part ρ) (query : SearchQuery) (order : ρ → ρ → Bool)
    (method : PlanMethod) : SearchPlan ρ where
  clauses       := part.clauses
  order         := order
  params        := part.params ++ [.int query.effectiveLimit]
  method        := method
  facetsApplied := part.facets
  scopeEnforced := query.scope.enforced
  scopeLabel    := scopePolicyLabel query.scope

def equals (column : ρ → Option PlanParam) : Clause ρ where
  placeholders := 1
  holds ps row := (column row).any (ps = [·])

def isIn (count : Nat) (column : ρ → PlanParam) : Clause ρ where
  placeholders := count
  holds ps row := column row ∈ ps

def scopePart (scope : ScopePolicy) (column : ρ → Int) : Part ρ :=
  match scope with
  | .projectSet ids =>
    if ids = [] then .none
    else
      .one (isIn ids.length fun row => .int (column row)) (ids.map .int) "scope_project_set".toList
        (List.length_map _)
  | _ => .none

-- `LIKE` of the engine, whose first argument is the pattern, with `\` as the escape character.
variable (like : Str → Str → Bool)

-- `(a LIKE ? ESCAPE '\' OR b LIKE ? ESCAPE '\')`
def likeEither (a b : ρ → Str) : Clause ρ where
  placeholders := 2
  holds
    | [.text p, .text q], row => like p (a row) || like q (b row)
    | _, _                    => false

def escape (term : Str) : Str :=
  term.flatMap fun c => if c = '\\' ∨ c = '%' ∨ c = '_' then ['\\', c] else [c]

def likePattern (term : Str) : Str :=
  '%' :: escape term ++ ['%']

def likePart (terms : List Str) (a b : ρ → Str) : Part ρ where
  clauses := terms.map fun _ => likeEither like a b
  params  := terms.flatMap fun term => [.text (likePattern term), .text (likePattern term)]
  facets  := []
  fits    := by simp [placeholders, likeEither]

end

-- `messages m JOIN agents a ON a.id = m.sender_id`
structure MessageJoin where
  m : MessageRow
  a : AgentRow
  deriving DecidableEq

def messageJoin (db : Database) : List MessageJoin :=
  db.messages.rows.filterMap fun m => (db.agents.get? m.senderId).map (⟨m, ·⟩)

def hasAnyMessageFacet (query : SearchQuery) : Bool :=
  query.importance ≠ [] || query.direction.isSome || query.agentName.isSome ||
    query.threadId.isSome ||
    query.ackRequired.isSome || !query.timeRange.isEmpty || query.projectId.isSome ||
      query.productId.isSome

section

variable (like : Str → Str → Bool) (db : Database)

-- `m.project_id IN (SELECT project_id FROM product_project_links WHERE product_id = ?)`
def inProduct : Clause MessageJoin where
  placeholders := 1
  holds
    | [.int productId], row =>
      db.productLinks.rows.any fun l => l.productId = productId ∧ l.projectId = row.m.projectId
    | _, _ => false

-- `m.id IN (SELECT mr.message_id FROM message_recipients mr JOIN agents ra ON ra.id = mr.agent_id
-- WHERE ra.name = ? COLLATE NOCASE)`
def hasRecipient (name : Str) (m : MessageRow) : Bool :=
  db.recipients.rows.any fun mr => mr.messageId = m.id ∧
    (db.agents.get? mr.agentId).any fun ra => nocase ra.name = nocase name

def outboxClause : Clause MessageJoin where
  placeholders := 1
  holds
    | [.text name], row => nocase row.a.name = nocase name
    | _, _              => false

def inboxClause : Clause MessageJoin where
  placeholders := 1
  holds
    | [.text name], row => hasRecipient db name row.m
    | _, _              => false

def agentClause : Clause MessageJoin where
  placeholders := 2
  holds
    | [.text name, .text name'], row =>
      nocase row.a.name = nocase name || hasRecipient db name' row.m
    | _, _                           => false

def createdFrom : Clause MessageJoin where
  placeholders := 1
  holds
    | [.int ts], row => ts ≤ row.m.createdTs
    | _, _           => false

def createdTo : Clause MessageJoin where
  placeholders := 1
  holds
    | [.int ts], row => row.m.createdTs ≤ ts
    | _, _           => false

-- `0.0` or `-CAST(COALESCE(m.created_ts, 0) AS REAL)`
def cursorScore (ranking : RankingMode) (row : MessageJoin) : Float64 :=
  match ranking with
  | .recency   => (Float64.ofInt row.m.createdTs).neg
  | .relevance => .zero

def afterCursor (ranking : RankingMode) : Clause MessageJoin where
  placeholders := 3
  holds
    | [.float score, .float score', .int id], row =>
      score.lt (cursorScore ranking row) ||
        decide (score'.rank = (cursorScore ranking row).rank) && decide (id < row.m.id)
    | _, _ => false

def messageOrder (ranking : RankingMode) (row row' : MessageJoin) : Bool :=
  match ranking with
  | .recency   =>
    row'.m.createdTs < row.m.createdTs || row.m.createdTs = row'.m.createdTs && row.m.id ≤ row'.m.id
  | .relevance => row.m.id ≤ row'.m.id

def projectPart (query : SearchQuery) : Part MessageJoin :=
  match query.projectId, query.productId with
  | some pid, _       =>
    .one (equals fun row => some (.int row.m.projectId)) [.int pid] "project_id".toList rfl
  | none, some prodId => .one (inProduct db) [.int prodId] "product_id".toList rfl
  | none, none        => .none

def importancePart (query : SearchQuery) : Part MessageJoin :=
  if query.importance = [] then .none
  else
    .one (isIn query.importance.length fun row => .text row.m.importance)
      (query.importance.map fun imp => .text imp.asStr) "importance".toList (List.length_map _)

def threadPart (query : SearchQuery) : Part MessageJoin :=
  query.threadId.elim .none fun thread =>
    .one (equals fun row => row.m.threadId.map .text) [.text thread] "thread_id".toList rfl

def ackPart (query : SearchQuery) : Part MessageJoin :=
  query.ackRequired.elim .none fun ack =>
    .one (equals fun row => some (.int row.m.ackRequired))
      [.int (if ack then 1 else 0)] "ack_required".toList rfl

def minTsPart (query : SearchQuery) : Part MessageJoin :=
  query.timeRange.minTs.elim .none fun ts => .one createdFrom [.int ts] "time_range_min".toList rfl

def maxTsPart (query : SearchQuery) : Part MessageJoin :=
  query.timeRange.maxTs.elim .none fun ts => .one createdTo [.int ts] "time_range_max".toList rfl

def agentPart (query : SearchQuery) : Part MessageJoin :=
  match query.direction, query.agentName with
  | some .outbox, some agent => .one outboxClause [.text agent] "direction".toList rfl
  | some .inbox, some agent  => .one (inboxClause db) [.text agent] "direction".toList rfl
  | none, some agent         =>
    .one (agentClause db) [.text agent, .text agent] "agent_name".toList rfl
  | _, none                  => .none

def cursorPart (query : SearchQuery) : Part MessageJoin :=
  (query.cursor.bind SearchCursor.decode).elim .none fun cursor =>
    .one (afterCursor query.ranking) [.float cursor.score, .float cursor.score, .int cursor.id]
      "cursor".toList rfl

def messageMethod (query : SearchQuery) : PlanMethod :=
  if query.text ≠ [] then
    if extractLikeTerms query.text 5 = [] then .empty else .like
  else if hasAnyMessageFacet query then .filterOnly
  else .empty

def textPart (query : SearchQuery) : Part MessageJoin :=
  if messageMethod query = .like then
    likePart like (extractLikeTerms query.text 5) (·.m.subject) (·.m.bodyMd)
  else
    .none

def planMessageSearch (query : SearchQuery) : SearchPlan MessageJoin :=
  if messageMethod query = .empty then .empty (scopePolicyLabel query.scope)
  else
    let parts :=
      [textPart like query, projectPart db query, scopePart query.scope (·.m.projectId),
        importancePart query, threadPart query, ackPart query, minTsPart query, maxTsPart query,
        agentPart db query, cursorPart query]
    .ofPart (.all parts) query (messageOrder query.ranking) (messageMethod query)

def planAgentSearch (query : SearchQuery) : SearchPlan AgentRow :=
  let terms := extractLikeTerms query.text 5
  if query.text = [] ∨ terms = [] then .empty (scopePolicyLabel query.scope)
  else
    let project : Part AgentRow := query.projectId.elim .none fun pid =>
      .one (equals fun row => some (.int row.projectId)) [.int pid] "project_id".toList rfl
    let parts :=
      [likePart like terms (·.name) (·.taskDescription), project,
        scopePart query.scope (·.projectId)]
    .ofPart (.all parts) query (fun a b => a.id ≤ b.id) .like

def planProjectSearch (query : SearchQuery) : SearchPlan ProjectRow :=
  let terms := extractLikeTerms query.text 5
  if query.text = [] ∨ terms = [] then .empty (scopePolicyLabel query.scope)
  else
    let parts := [likePart like terms (·.slug) (·.humanKey), scopePart query.scope (·.id)]
    .ofPart (.all parts) query (fun p q => p.id ≤ q.id) .like

-- A row of one of the kinds.
inductive SearchRow
  | message (row : MessageJoin)
  | agent (row : AgentRow)
  | project (row : ProjectRow)
  deriving DecidableEq

def SearchRow.projectId : SearchRow → Int
  | .message row => row.m.projectId
  | .agent row   => row.projectId
  | .project row => row.id

-- The rows that `plan_search` selects, without the limit.
def planSearch (query : SearchQuery) : List SearchRow :=
  match query.docKind with
  | .message => ((planMessageSearch like db query).matches (messageJoin db)).map .message
  | .thread  => ((planMessageSearch like db query).matches (messageJoin db)).map .message
  | .agent   => ((planAgentSearch like query).matches db.agents.rows).map .agent
  | .project => ((planProjectSearch like query).matches db.projects.rows).map .project

end

end Search
