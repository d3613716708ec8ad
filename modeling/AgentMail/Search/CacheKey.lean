import AgentMail.Search.Service
import Mathlib.Data.Int.Order.Basic
import Mathlib.Data.List.Dedup

open Pattern (Str trim)

namespace Search

inductive SearchMode
  | lexical
  | semantic
  | hybrid
  | auto
  deriving DecidableEq

def engineToSearchMode : SearchEngine → SearchMode
  | .legacy   => .lexical
  | .shadow   => .lexical
  | .lexical  => .lexical
  | .semantic => .semantic
  | .hybrid   => .hybrid
  | .auto     => .auto

structure DateRange where
  start : Option Int
  stop  : Option Int
  deriving DecidableEq

inductive ImportanceFilter
  | any
  | urgent
  | high
  | normal
  | low
  deriving DecidableEq

structure SearchFilter where
  sender     : Option Str
  agent      : Option Str
  projectId  : Option Int
  dateRange  : Option DateRange
  importance : Option ImportanceFilter
  threadId   : Option Str
  docKind    : Option DocKind
  deriving DecidableEq

def Importance.toFilter : Importance → ImportanceFilter
  | .low    => .low
  | .normal => .normal
  | .high   => .high
  | .urgent => .urgent

-- The first level stands for all of them.
def SearchQuery.toSearchFilter (query : SearchQuery) : SearchFilter where
  sender     := if query.direction = some .outbox then query.agentName else none
  agent      := if query.direction = some .outbox then none else query.agentName
  projectId  := query.projectId
  dateRange  :=
    if query.timeRange.isEmpty then none else some ⟨query.timeRange.minTs, query.timeRange.maxTs⟩
  importance := query.importance.head?.map (·.toFilter)
  threadId   := query.threadId
  docKind    := none

-- What a hasher is fed. A digest is the sequence of the values behind it.
inductive HashValue
  | int (n : Int)
  | text (s : Str)
  | flag (b : Bool)
  | docKind (kind : DocKind)
  | absent
  | present (value : HashValue)
  | list (values : List HashValue)
  | digest (values : List HashValue)

def HashValue.ofOption {α : Type} (value : α → HashValue) : Option α → HashValue
  | none   => .absent
  | some a => .present (value a)

section

-- The texts of `Debug`.
def ImportanceFilter.debug : ImportanceFilter → Str
  | .any    => "Any".toList
  | .urgent => "Urgent".toList
  | .high   => "High".toList
  | .normal => "Normal".toList
  | .low    => "Low".toList

def DocKind.debug : DocKind → Str
  | .message => "Message".toList
  | .agent   => "Agent".toList
  | .project => "Project".toList
  | .thread  => "Thread".toList

def tagged {α : Type} (tag : String) (value : α → HashValue) : Option α → List HashValue
  | none   => []
  | some a => [.text tag.toList, value a]

def hashDateRange : Option DateRange → List HashValue
  | none       => []
  | some range =>
    .text "date_range".toList :: (tagged "start" .int range.start ++ tagged "end" .int range.stop)

def hashFilter (filter : SearchFilter) : HashValue :=
  .digest (tagged "sender" .text filter.sender ++ (tagged "agent" .text filter.agent ++
    (tagged "project_id" .int filter.projectId ++ (tagged "thread_id" .text filter.threadId ++
    (hashDateRange filter.dateRange ++ (tagged "importance" (.text ·.debug) filter.importance ++
    tagged "doc_kind" (.text ·.debug) filter.docKind))))))

end

structure QueryCacheKey where
  queryNormalized : Str
  mode            : SearchMode
  filterHash      : HashValue
  indexEpoch      : Nat
  offset          : HashValue
  limit           : Nat

-- `to_lowercase` of the standard library is a parameter.
def QueryCacheKey.new (toLowercase : Str → Str) (query : Str) (mode : SearchMode)
    (filter : SearchFilter) (indexEpoch : Nat) (offset : HashValue) (limit : Nat) :
    QueryCacheKey where
  queryNormalized := toLowercase (trim query)
  mode            := mode
  filterHash      := hashFilter filter
  indexEpoch      := indexEpoch
  offset          := offset
  limit           := limit

section

variable {α β : Type}

-- The order of tuples.
def pairLe [DecidableEq α] [LT α] [DecidableLT α] (le : β → β → Bool) (a b : α × β) : Bool :=
  a.1 < b.1 || a.1 = b.1 && le a.2 b.2

-- `sort_unstable` and `dedup`
def sortDedup [DecidableEq α] (le : α → α → Bool) (values : List α) : List α :=
  (values.mergeSort le).dedup

end

def directionLabel : Option Direction → Str
  | some .inbox  => "inbox".toList
  | some .outbox => "outbox".toList
  | none         => "any_direction".toList

def RankingMode.label : RankingMode → Str
  | .relevance => "relevance".toList
  | .recency   => "recency".toList

def hashScope : ScopePolicy → List HashValue
  | .unrestricted             => [.text "unrestricted".toList]
  | .callerScoped callerAgent => [.text "caller_scoped".toList, .text callerAgent]
  | .projectSet ids           => .text "project_set".toList :: (ids.mergeSort (· ≤ ·)).map .int

def cacheScopeDiscriminator (query : SearchQuery) : HashValue :=
  let importanceLevels := (query.importance.map (·.asStr)).mergeSort (· ≤ ·)
  .digest ([.ofOption .int query.productId, .ofOption .int query.projectId, .docKind query.docKind,
    .ofOption .flag query.ackRequired, .text (directionLabel query.direction),
    .text query.ranking.label, .flag query.explain] ++ (importanceLevels.map .text ++
      hashScope query.scope))

section

variable (options : SearchOptions)

def SearchOptions.effectiveScope : ScopeContext :=
  options.scopeCtx.getD defaultScopeContext

def SearchOptions.effectiveRedaction : RedactionPolicy :=
  options.redactionPolicy.getD .default

def hashViewer : Option ViewerIdentity → List HashValue
  | some viewer => [.text "viewer".toList, .int viewer.projectId, .int viewer.agentId]
  | none        => [.text "operator".toList]

def sortedPolicies (senderPolicies : List SenderPolicy) : List (Int × Int × Str) :=
  sortDedup (pairLe (pairLe (· ≤ ·)))
    (senderPolicies.map fun policy => (policy.projectId, policy.agentId, policy.policy.asStr))

def sortedRecipients (recipientMap : List RecipientEntry) : List (Int × List Int) :=
  sortDedup (pairLe (· ≤ ·)) (recipientMap.map fun entry =>
    (entry.messageId, sortDedup (· ≤ ·) entry.agentIds))

def cacheAuthorizationDiscriminator : HashValue :=
  let scopeCtx         := options.effectiveScope
  let redaction        := options.effectiveRedaction
  let approvedContacts := sortDedup (pairLe (· ≤ ·)) scopeCtx.approvedContacts
  let viewerProjectIds := sortDedup (· ≤ ·) scopeCtx.viewerProjectIds
  .digest (hashViewer scopeCtx.viewer ++ [
    .list (approvedContacts.map fun contact => .list [.int contact.1, .int contact.2]),
    .list (viewerProjectIds.map .int),
    .list ((sortedPolicies scopeCtx.senderPolicies).map fun policy =>
      .list [.int policy.1, .int policy.2.1, .text policy.2.2]),
    .list ((sortedRecipients scopeCtx.recipientMap).map fun entry =>
      .list [.int entry.1, .list (entry.2.map .int)]),
    .flag redaction.redactBody, .flag redaction.redactSender, .flag redaction.redactThread,
    .text redaction.bodyPlaceholder])

def cacheEngineDiscriminator : SearchEngine → Str
  | .legacy   => "legacy".toList
  | .lexical  => "lexical".toList
  | .semantic => "semantic".toList
  | .hybrid   => "hybrid".toList
  | .auto     => "auto".toList
  | .shadow   => "shadow".toList

-- The pool is known by the key of its database, the configuration by its engine.
def buildSearchCacheKey (toLowercase : Str → Str) (sqliteKey : Str) (configured : SearchEngine)
    (query : SearchQuery) (cacheEpoch : Nat) : QueryCacheKey :=
  let engineMode         := options.searchEngine.getD configured
  let scopeDiscriminator :=
    .digest [cacheScopeDiscriminator query, cacheAuthorizationDiscriminator options,
      .text (cacheEngineDiscriminator engineMode), .text sqliteKey]
  let offsetProxy        := query.cursor.elim scopeDiscriminator fun c =>
    .digest [.text c, scopeDiscriminator]
  .new toLowercase query.text (engineToSearchMode engineMode) query.toSearchFilter cacheEpoch
    offsetProxy
    query.effectiveLimit

end

-- A response is never that of another search with the same key.
def KeySound (toLowercase : Str → Str) : Prop :=
  ∀ (env : Env) (sqliteKey : Str) (cacheEpoch : Nat) (query query' : SearchQuery)
    (options options' : SearchOptions),
      buildSearchCacheKey options toLowercase sqliteKey env.engine query cacheEpoch =
      buildSearchCacheKey options' toLowercase sqliteKey env.engine query' cacheEpoch →
    executeSearch query env options = executeSearch query' env options'

-- No sender has different policies.
def ScopeContext.OnePolicy (ctx : ScopeContext) : Prop :=
  ∀ sp ∈ ctx.senderPolicies, ∀ sp' ∈ ctx.senderPolicies,
    sp.projectId = sp'.projectId → sp.agentId = sp'.agentId → sp = sp'

-- What the key leaves out does not differ: the case and the ends of the text, the order of the
-- levels, which of different policies of a sender comes first, and whether it is the caller who
-- chose the lexical engine.
structure AgreeBeyondKey (toLowercase : Str → Str) (query query' : SearchQuery)
    (options options' : SearchOptions) : Prop where
  text       : toLowercase (trim query.text) = toLowercase (trim query'.text) →
    query.text = query'.text
  importance : query.importance.Perm query'.importance → query.importance = query'.importance
  policies   : options.effectiveScope.OnePolicy
  explicit   : query.docKind = .message ∨ query.docKind = .thread →
    (options.searchEngine = some .lexical ↔ options'.searchEngine = some .lexical)

end Search
