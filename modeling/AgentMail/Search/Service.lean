import AgentMail.Search.Assistance
import AgentMail.Search.Scope

open Pattern (Str)
open Schema

namespace Search

inductive SearchEngine
  | legacy
  | lexical
  | semantic
  | hybrid
  | auto
  | shadow
  deriving DecidableEq

def SearchEngine.asStr : SearchEngine → Str
  | .legacy   => "legacy".toList
  | .lexical  => "lexical".toList
  | .semantic => "semantic".toList
  | .hybrid   => "hybrid".toList
  | .auto     => "auto".toList
  | .shadow   => "shadow".toList

structure RedactionPolicy where
  redactBody      : Bool
  redactSender    : Bool
  redactThread    : Bool
  bodyPlaceholder : Str
  deriving DecidableEq

def RedactionPolicy.default : RedactionPolicy where
  redactBody      := true
  redactSender    := false
  redactThread    := false
  bodyPlaceholder := "[Content hidden — sender restricts visibility]".toList

structure SearchOptions where
  scopeCtx        : Option ScopeContext
  redactionPolicy : Option RedactionPolicy
  trackTelemetry  : Bool
  searchEngine    : Option SearchEngine
  deriving DecidableEq

def defaultScopeContext : ScopeContext where
  viewer           := none
  approvedContacts := []
  viewerProjectIds := []
  senderPolicies   := []
  recipientMap     := []

section

def DocKind.asStr : DocKind → Str
  | .message => "message".toList
  | .agent   => "agent".toList
  | .project => "project".toList
  | .thread  => "thread".toList

def ScopeReason.userMessage : ScopeReason → Str
  | .isSender           => "You are the sender of this message.".toList
  | .isRecipient        => "You are a recipient of this message.".toList
  | .approvedContact    => "You have an approved contact with the sender.".toList
  | .openPolicy         => "The sender has an open contact policy.".toList
  | .autoPolicy         => "The sender allows auto-contact.".toList
  | .contactsOnlyDenied => "The sender restricts visibility to approved contacts only.".toList
  | .blockAllDenied     => "The sender blocks all inbound visibility.".toList
  | .crossProjectDenied =>
    "This message is from a different project you don't have access to.".toList
  | .operatorMode       => "Operator mode: full visibility.".toList
  | .nonMessageEntity   => "Agent and project records are publicly visible.".toList

structure ScopedSearchResult where
  result        : SearchResult
  scope         : ScopeDecision
  redactionNote : Option Str
  deriving DecidableEq

structure ScopeAuditEntry where
  resultId    : Int
  docKind     : Str
  verdict     : ScopeVerdict
  reason      : ScopeReason
  explanation : Str
  viewer      : Option ViewerIdentity
  deriving DecidableEq

structure ScopeAuditSummary where
  totalBefore   : Nat
  visibleCount  : Nat
  redactedCount : Nat
  deniedCount   : Nat
  entries       : List ScopeAuditEntry
  deriving DecidableEq

def applyRedaction (result : SearchResult) (policy : RedactionPolicy) : SearchResult :=
  { result with
    body      := if policy.redactBody then policy.bodyPlaceholder else result.body
    fromAgent := if policy.redactSender then none else result.fromAgent
    threadId  := if policy.redactThread then none else result.threadId }

variable (ctx : ScopeContext) (redaction : RedactionPolicy)

def scopeResult (result : SearchResult) : Option ScopedSearchResult :=
  let decision := evaluateScope result ctx
  match decision.verdict with
  | .allow  => some ⟨result, decision, none⟩
  | .redact => some ⟨applyRedaction result redaction, decision, some decision.reason.userMessage⟩
  | .deny   => none

def auditResult (result : SearchResult) : Option ScopeAuditEntry :=
  let decision := evaluateScope result ctx
  let entry    := ⟨result.id, result.docKind.asStr, decision.verdict, decision.reason,
    decision.reason.userMessage, ctx.viewer⟩
  match decision.verdict with
  | .allow => none
  | _      => some entry

def applyScope (results : List SearchResult) : List ScopedSearchResult × ScopeAuditSummary :=
  let verdicts := results.map fun result => (evaluateScope result ctx).verdict
  (results.filterMap (scopeResult ctx redaction),
    { totalBefore   := results.length
      visibleCount  := verdicts.countP (· ≠ .deny)
      redactedCount := verdicts.count .redact
      deniedCount   := verdicts.count .deny
      entries       := results.filterMap (auditResult ctx) })

end

-- What the engines read of a query, besides the limit. The importance levels are a set.
structure EngineQuery where
  text       : Str
  docKind    : DocKind
  projectId  : Option Int
  productId  : Option Int
  importance : Importance → Bool
  sender     : Option Str
  threadId   : Option Str
  timeRange  : TimeRange
  explain    : Bool

def SearchQuery.engineQuery (query : SearchQuery) : EngineQuery where
  text       := query.text
  docKind    := query.docKind
  projectId  := query.projectId
  productId  := query.productId
  importance := (· ∈ query.importance)
  sender     := if query.docKind = .message ∧ query.direction = some .outbox then query.agentName
    else none
  threadId   := query.threadId
  timeRange  := query.timeRange
  explain    := query.explain

structure FastRecipients where
  toNames  : List Str
  ccNames  : List Str
  bccNames : List Str
  deriving DecidableEq

-- The database, the index and the configuration, which a search reads.
structure Env where
  db                    : Database
  -- `messages.recipients_json`
  recipientsJson        : Int → Option Str
  parseRecipients       : Str → Option FastRecipients
  normalizeDatetimeHint : Str → HintTimeBoundary → Option Str
  like                  : Str → Str → Bool
  -- What the index has for a query, best first.
  index                 : EngineQuery → List SearchResult
  -- The index after a backfill, if a search without results is still to run one.
  backfill              : Option (EngineQuery → List SearchResult)
  -- The results of the other engines with the rerank facets, if they are available.
  retrieve              : SearchEngine → EngineQuery → Nat → Option (List SearchResult × List Str)
  engine                : SearchEngine

section

variable (query : SearchQuery)

def queryNeedsRecipientFilter : Bool :=
  query.docKind = .message && query.agentName.isSome && query.direction ≠ some .outbox

def extraCandidates (needed : Bool) (limit : Nat) : Nat :=
  if needed then max (max 64 (min (limit * 16) 100000)) limit else limit

def lexicalCandidateLimit : Nat :=
  extraCandidates (query.productId.isSome || query.ackRequired.isSome ||
    queryNeedsRecipientFilter query)
    query.effectiveLimit

def legacyCandidateLimit : Nat :=
  extraCandidates (query.productId.isSome || query.importance ≠ [] || query.direction.isSome ||
    query.agentName.isSome || query.threadId.isSome || query.ackRequired.isSome ||
      !query.timeRange.isEmpty)
    query.effectiveLimit

def paginationFetchLimit (baseLimit : Nat) : Nat :=
  if query.cursor.isSome then max 64 (min (max baseLimit (query.effectiveLimit * 16)) 100000)
    else baseLimit

def cursorSortScore (result : SearchResult) (ranking : RankingMode) : Float64 :=
  match ranking with
  | .recency   => result.createdTs.elim (result.score.getD .zero) fun createdTs =>
    (Float64.ofInt createdTs).neg
  | .relevance => result.score.getD .zero

def cursorOrder (ranking : RankingMode) (a b : SearchResult) : Bool :=
  let aScore := (cursorSortScore a ranking).totalKey
  let bScore := (cursorSortScore b ranking).totalKey
  match ranking with
  | .recency   => aScore < bScore || aScore = bScore && a.id ≤ b.id
  | .relevance => bScore < aScore || aScore = bScore && a.id ≤ b.id

def isAtCursor (ranking : RankingMode) (cursor : SearchCursor) (result : SearchResult) : Bool :=
  result.id = cursor.id && cursorSortScore result ranking = cursor.score

def isAfterCursor (ranking : RankingMode) (cursor : SearchCursor) (result : SearchResult) : Bool :=
  let score := cursorSortScore result ranking
  let after := match ranking with
    | .recency   => !score.isNaN && cursor.score.lt score
    | .relevance => !score.isNaN && score.lt cursor.score
  after || score = cursor.score && cursor.id < result.id

def applyCursorWindow (results : List SearchResult) : List SearchResult :=
  let results := results.mergeSort (cursorOrder query.ranking)
  match query.cursor.bind SearchCursor.decode with
  | none        => results
  | some cursor =>
    match results.findIdx? (isAtCursor query.ranking cursor) with
    | some index => results.drop (index + 1)
    | none       => results.filter (isAfterCursor query.ranking cursor)

def computeNextCursor (results : List SearchResult) (limit : Nat) (ranking : RankingMode) :
    Option Str :=
  if results.length < limit then none
  else results.getLast?.map fun r => SearchCursor.encode ⟨cursorSortScore r ranking, r.id⟩

end

section

variable (query : SearchQuery) (productProjectIds : Option (List Int))

-- The row of a message with the name of its sender.
structure ThreadMessageRow where
  m          : MessageRow
  recipients : Str
  sender     : Str
  deriving DecidableEq

def getMessagesDetailsByIds (env : Env) (ids : List Int) (projectId : Option Int) (id : Int) :
    Option ThreadMessageRow :=
  ((messageJoin env.db).find? fun row => row.m.id = id ∧ id ∈ ids ∧
    projectId.all (· = row.m.projectId)).map fun row =>
    ⟨row.m, (env.recipientsJson row.m.id).getD "\x7b\x7d".toList, row.a.name⟩

-- The names are distinct up to the case of ASCII letters.
def dedupNames (previous : Option Str) : List Str → List Str
  | []            => []
  | name :: names =>
    if previous.any (eqIgnoreAsciiCase name) then dedupNames previous names
    else name :: dedupNames (some name) names

def listMessageRecipientNamesByMessage (db : Database) (ids : List Int) (messageId : Int) :
    Option (List Str) :=
  let names := db.recipients.rows.filterMap fun r =>
    if r.messageId = messageId ∧ messageId ∈ ids then (db.agents.get? r.agentId).map (·.name)
      else none
  if names = [] then none
  else some (dedupNames none (names.mergeSort fun a b => toAsciiLowercase a ≤ toAsciiLowercase b))

def listProductProjects (db : Database) (productId : Int) : List Int :=
  db.productLinks.rows.filterMap fun ppl =>
    if ppl.productId = productId then (db.projects.get? ppl.projectId).map (·.id) else none

-- A query for an agent, given whether it is the sender or one of the recipients.
def matchesDirection (senderMatches recipientMatches : Bool) : Bool :=
  match query.direction with
  | some .outbox => senderMatches
  | some .inbox  => recipientMatches
  | none         => senderMatches || recipientMatches

def detailMatchesAgentFilter (senderName : Str) (recipientNames : Option (List Str)) : Bool :=
  query.agentName.all fun agentName =>
    matchesDirection query (eqIgnoreAsciiCase senderName agentName)
      (recipientNames.any fun names => names.any (eqIgnoreAsciiCase · agentName))

def unresolvedResultMatchesAgentFilter (result : SearchResult) : Bool :=
  query.agentName.all fun agentName =>
    let isNamed : Option (List Str) → Bool := fun names =>
      names.any fun names => names.any (eqIgnoreAsciiCase · agentName)
    matchesDirection query (result.fromAgent.elim result.toNames.isNone
      (eqIgnoreAsciiCase · agentName))
      (result.toNames.isSome && (isNamed result.toNames || isNamed result.ccNames ||
        isNamed result.bccNames))

def matchesImportance (importance : Str) : Bool :=
  query.importance = [] || (Importance.parse importance).any (· ∈ query.importance)

def detailMatchesQueryFilters (detail : ThreadMessageRow) (recipientNames : Option (List Str)) :
    Bool :=
  query.projectId.all (· = detail.m.projectId) &&
  productProjectIds.all (detail.m.projectId ∈ ·) &&
  detailMatchesAgentFilter query detail.sender recipientNames &&
  query.threadId.all (detail.m.threadId = some ·) &&
  query.ackRequired.all (decide (detail.m.ackRequired ≠ 0) = ·) &&
  matchesImportance query detail.m.importance &&
  query.timeRange.minTs.all (· ≤ detail.m.createdTs) &&
  query.timeRange.maxTs.all (detail.m.createdTs ≤ ·)

-- A value that the result does not have does not match.
def rawResultMatchesQueryFilters (result : SearchResult) : Bool :=
  query.projectId.all (result.projectId = some ·) &&
  productProjectIds.all (fun allowed => result.projectId.any (· ∈ allowed)) &&
  unresolvedResultMatchesAgentFilter query result &&
  query.threadId.all (result.threadId = some ·) &&
  query.ackRequired.all (result.ackRequired = some ·) &&
  (query.importance = [] || result.importance.any (matchesImportance query)) &&
  query.timeRange.minTs.all (fun minTs => result.createdTs.any (minTs ≤ ·)) &&
  query.timeRange.maxTs.all (fun maxTs => result.createdTs.any (· ≤ maxTs))

def SearchResult.fill (env : Env) (result : SearchResult) (detail : ThreadMessageRow) :
    SearchResult :=
  let recipients := (env.parseRecipients detail.recipients).getD ⟨[], [], []⟩
  { result with
    projectId   := some detail.m.projectId
    title       := detail.m.subject
    body        := detail.m.bodyMd
    importance  := some detail.m.importance
    ackRequired := some (detail.m.ackRequired ≠ 0)
    createdTs   := some detail.m.createdTs
    threadId    := detail.m.threadId
    fromAgent   := some detail.sender
    fromAgentId := some detail.m.senderId
    toNames     := some recipients.toNames
    ccNames     := some recipients.ccNames
    bccNames    := some recipients.bccNames }

-- The results whose ids have not been seen before.
def dedupById (seenIds : List Int) : List SearchResult → List SearchResult
  | []                => []
  | result :: results =>
    if result.id ∈ seenIds then dedupById seenIds results
    else result :: dedupById (result.id :: seenIds) results

-- The result with the data of the database, if it matches. The ids are those that the database has
-- been asked for.
def canonicalizeResult (env : Env) (ids : List Int) (preserveUnresolvedHits : Bool)
    (result : SearchResult) : Option SearchResult :=
  let productProjectIds := query.productId.map (listProductProjects env.db)
  let recipientNames    :=
    if queryNeedsRecipientFilter query then listMessageRecipientNamesByMessage env.db ids result.id
      else none
  match getMessagesDetailsByIds env ids query.projectId result.id with
  | none        =>
    if preserveUnresolvedHits ∧ rawResultMatchesQueryFilters query productProjectIds result then
      some result else none
  | some detail =>
    if detailMatchesQueryFilters query productProjectIds detail recipientNames then
      some (result.fill env detail)
    else none

def canonicalizeMessageResults (env : Env) (rawResults : List SearchResult)
    (preserveUnresolvedHits : Bool) : List SearchResult :=
  if query.docKind ≠ .message ∨ rawResults = [] then rawResults
  else
    let deduped := dedupById [] rawResults
    deduped.filterMap (canonicalizeResult query env (deduped.map (·.id)) preserveUnresolvedHits)

end

structure QueryExplain where
  method           : Str
  normalizedQuery  : Option Str
  usedLikeFallback : Bool
  facetCount       : Nat
  facetsApplied    : List Str
  sql              : Str
  scopePolicy      : Str
  deniedCount      : Nat
  redactedCount    : Nat
  deriving DecidableEq

structure ScopedSearchResponse where
  results      : List ScopedSearchResult
  nextCursor   : Option Str
  explain      : Option QueryExplain
  auditSummary : Option ScopeAuditSummary
  sqlRowCount  : Nat
  assistance   : Option QueryAssistance
  guidance     : Option ZeroResultGuidance
  deriving DecidableEq

section

variable (query : SearchQuery) (options : SearchOptions)

def finishScopedResponse (rawResults : List SearchResult) (assistance : Option QueryAssistance)
    (explain : Option QueryExplain) : ScopedSearchResponse :=
  let redaction      := options.redactionPolicy.getD .default
  let scopeCtx       := options.scopeCtx.getD defaultScopeContext
  let (scoped', audit) := applyScope scopeCtx redaction rawResults
  { results      := scoped'
    nextCursor   := computeNextCursor rawResults query.effectiveLimit query.ranking
    explain      :=
      if query.explain then
        explain.map fun value =>
          { value with
            deniedCount   := audit.deniedCount
            redactedCount := audit.redactedCount
            scopePolicy   := if scopeCtx.viewer.isSome then "caller_scoped".toList
              else value.scopePolicy }
      else none
    auditSummary := if scopeCtx.viewer.isSome then some audit else none
    sqlRowCount  := rawResults.length
    assistance   := assistance
    guidance     := generateZeroResultGuidance query scoped'.length assistance }

def collectQueryFacets : List Str :=
  (if query.projectId.isSome then ["project_id".toList] else []) ++
  (if query.productId.isSome then ["product_id".toList] else []) ++
  (if query.importance = [] then [] else ["importance".toList]) ++
  (if query.direction.isSome then ["direction".toList] else []) ++
  (if query.agentName.isSome then ["agent_name".toList] else []) ++
  (if query.threadId.isSome then ["thread_id".toList] else []) ++
  (if query.ackRequired.isSome then ["ack_required".toList] else []) ++
  (if query.timeRange.minTs.isSome then ["time_range_min".toList] else []) ++
  (if query.timeRange.maxTs.isSome then ["time_range_max".toList] else []) ++
  (if query.cursor.isSome then ["cursor".toList] else []) ++
  match query.scope with
  | .projectSet _ => ["scope_project_set".toList]
  | _             => []

def buildV3QueryExplain (engine : SearchEngine) (rerankFacets : List Str) : QueryExplain :=
  let facetsApplied :=
    ("engine:".toList ++ engine.asStr) :: collectQueryFacets query ++ rerankFacets
  { method           := engine.asStr ++ "_v3".toList
    normalizedQuery  := if query.text = [] then none else some query.text
    usedLikeFallback := false
    facetCount       := facetsApplied.length
    facetsApplied    := facetsApplied
    sql              := "-- v3 pipeline (non-SQL result assembly)".toList
    scopePolicy      := "unrestricted".toList
    deniedCount      := 0
    redactedCount    := 0 }

end

section

variable (query : SearchQuery)

def PlanMethod.asStr : PlanMethod → Str
  | .like       => "like_fallback".toList
  | .filterOnly => "filter_only".toList
  | .empty      => "empty".toList

-- The text of the plan of agents or projects, with its columns and its conditions.
def planSql (selectCols fromClause : Str) (whereClauses : List Str) (orderClause : Str) : Str :=
  "SELECT ".toList ++ selectCols ++ " FROM ".toList ++ fromClause ++ " WHERE ".toList ++
    " AND ".toList.intercalate whereClauses ++ [' '] ++ orderClause ++ " LIMIT ?".toList

def likeSql (a b : String) : Str :=
  ['('] ++ a.toList ++ " LIKE ? ESCAPE '\\' OR ".toList ++ b.toList ++ " LIKE ? ESCAPE '\\')".toList

def scopeSql (column : String) : List Str :=
  match query.scope with
  | .projectSet ids =>
    if ids = [] then []
    else
      [column.toList ++ " IN (".toList ++ ", ".toList.intercalate (ids.map fun _ => ['?']) ++ [')']]
  | _ => []

def agentSql : Str :=
  planSql "a.id, a.name, a.task_description, a.project_id, 0.0 AS score".toList "agents a".toList
    (((extractLikeTerms query.text 5).map fun _ => likeSql "a.name" "a.task_description") ++
      (if query.projectId.isSome then ["a.project_id = ?".toList] else []) ++
        scopeSql query "a.project_id")
    "ORDER BY a.id ASC".toList

def projectSql : Str :=
  planSql "p.id, p.slug, p.human_key, 0.0 AS score".toList "projects p".toList
    (((extractLikeTerms query.text 5).map fun _ => likeSql "p.slug" "p.human_key") ++
      scopeSql query "p.id")
    "ORDER BY p.id ASC".toList

def emptyPlanSql (emptySql : String) : Str :=
  if query.text ≠ [] ∨ hasAnyMessageFacet query then emptySql.toList else []

def SearchPlan.explain {ρ : Type} (plan : SearchPlan ρ) (sql : Str) : QueryExplain where
  method           := plan.method.asStr
  normalizedQuery  := none
  usedLikeFallback := plan.method = .like
  facetCount       := plan.facetsApplied.length
  facetsApplied    := plan.facetsApplied
  sql              := sql
  scopePolicy      := plan.scopeLabel
  deniedCount      := 0
  redactedCount    := 0

-- `..SearchResult::default()`
def SearchResult.ofRow (docKind : DocKind) (id : Int) (projectId : Option Int) (title body : Str) :
    SearchResult where
  docKind     := docKind
  id          := id
  projectId   := projectId
  title       := title
  body        := body
  score       := some .zero
  importance  := none
  ackRequired := none
  createdTs   := none
  threadId    := none
  fromAgent   := none
  fromAgentId := none
  toNames     := none
  ccNames     := none
  bccNames    := none

def agentResult (row : AgentRow) : SearchResult :=
  .ofRow .agent row.id (some row.projectId) row.name row.taskDescription

def projectResult (row : ProjectRow) : SearchResult :=
  .ofRow .project row.id none row.slug row.humanKey

variable (env : Env) (options : SearchOptions)

def executeAgentSearch (assistance : Option QueryAssistance) : ScopedSearchResponse :=
  let plan := planAgentSearch env.like query
  let sql  := if plan.method = .empty then
      emptyPlanSql query
        "SELECT 0 AS id, '' AS name, '' AS task_description, 0 AS project_id, 0.0 AS score WHERE 0"
    else agentSql query
  finishScopedResponse query options ((plan.rows env.db.agents.rows).map agentResult) assistance
    (if query.explain then some (plan.explain sql) else none)

def executeProjectSearch (assistance : Option QueryAssistance) : ScopedSearchResponse :=
  let plan := planProjectSearch env.like query
  let sql  := if plan.method = .empty then
      emptyPlanSql query "SELECT 0 AS id, '' AS slug, '' AS human_key, 0.0 AS score WHERE 0"
    else projectSql query
  finishScopedResponse query options ((plan.rows env.db.projects.rows).map projectResult) assistance
    (if query.explain then some (plan.explain sql) else none)

def fetchLimit (engine : SearchEngine) : Nat :=
  paginationFetchLimit query (if engine = .lexical then lexicalCandidateLimit query
    else legacyCandidateLimit query)

def tryTantivySearch (index : EngineQuery → List SearchResult) (lexicalQuery : SearchQuery) :
    List SearchResult :=
  (index lexicalQuery.engineQuery).take lexicalQuery.effectiveLimit

def lexicalResults (explicitLexical : Bool) : List SearchResult :=
  let lexicalQuery := { query with limit := some (fetchLimit query .lexical) }
  let rawResults   := tryTantivySearch env.index lexicalQuery
  match env.backfill with
  | some index => if rawResults = [] ∧ ¬explicitLexical then tryTantivySearch index lexicalQuery
    else rawResults
  | none       => rawResults

-- What the engines have in common from the raw results on.
def finishSearch (engine : SearchEngine) (rawResults : List SearchResult)
    (preserveUnresolvedHits : Bool) (rerankFacets : List Str)
    (assistance : Option QueryAssistance) : ScopedSearchResponse :=
  let results := canonicalizeMessageResults query env rawResults preserveUnresolvedHits
  let results := (applyCursorWindow query results).take query.effectiveLimit
  finishScopedResponse query options results assistance
    (if query.explain then some (buildV3QueryExplain query engine rerankFacets) else none)

def executeSearch : Except Str ScopedSearchResponse :=
  let engine     := options.searchEngine.getD env.engine
  let assistance := queryAssistancePayload env.normalizeDatetimeHint query
  match query.docKind with
  | .agent   => .ok (executeAgentSearch query env options assistance)
  | .project => .ok (executeProjectSearch query env options assistance)
  | _        =>
    if engine = .lexical then
      let explicitLexical := options.searchEngine = some .lexical
      let rawResults      := lexicalResults query env explicitLexical
      .ok (finishSearch query env options engine rawResults explicitLexical [] assistance)
    else
      match env.retrieve engine query.engineQuery (fetchLimit query engine) with
      | some (rawResults, rerankFacets) =>
        .ok (finishSearch query env options engine rawResults false rerankFacets assistance)
      | none =>
        .error ("search engine unavailable (".toList ++ engine.asStr ++
          "); lexical index bridge is not initialized".toList)

end

end Search
