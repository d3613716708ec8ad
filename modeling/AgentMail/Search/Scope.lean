import AgentMail.Search.Planner
import Mathlib.Data.Char
import Mathlib.Data.List.Lex

open Pattern (Str)
open Schema

namespace Search

structure VisibilityContext where
  callerProjectIds   : List Int
  approvedContactIds : List Int
  policy             : ScopePolicy
  redaction          : RedactionConfig

def VisibilityContext.canSeeProject (ctx : VisibilityContext) (projectId : Int) : Bool :=
  match ctx.policy with
  | .unrestricted   => true
  | .callerScoped _ => projectId ∈ ctx.callerProjectIds
  | .projectSet ids => projectId ∈ ids

structure ViewerIdentity where
  projectId : Int
  agentId   : Int
  deriving DecidableEq

inductive ContactPolicyKind
  | openPolicy
  | auto
  | contactsOnly
  | blockAll
  deriving DecidableEq

def ContactPolicyKind.parse (s : Str) : ContactPolicyKind :=
  let s := toAsciiLowercase s
  if s = "open".toList then .openPolicy
  else if s = "contacts_only".toList then .contactsOnly
  else if s = "block_all".toList then .blockAll
  else .auto

def ContactPolicyKind.asStr : ContactPolicyKind → Str
  | .openPolicy   => "open".toList
  | .auto         => "auto".toList
  | .contactsOnly => "contacts_only".toList
  | .blockAll     => "block_all".toList

structure SenderPolicy where
  projectId : Int
  agentId   : Int
  policy    : ContactPolicyKind
  deriving DecidableEq

structure RecipientEntry where
  messageId : Int
  agentIds  : List Int
  deriving DecidableEq

-- Without a viewer, everything is visible.
structure ScopeContext where
  viewer           : Option ViewerIdentity
  approvedContacts : List (Int × Int)
  viewerProjectIds : List Int
  senderPolicies   : List SenderPolicy
  recipientMap     : List RecipientEntry
  deriving DecidableEq

inductive ScopeVerdict
  | allow
  | redact
  | deny
  deriving DecidableEq

inductive ScopeReason
  | isSender
  | isRecipient
  | approvedContact
  | openPolicy
  | autoPolicy
  | contactsOnlyDenied
  | blockAllDenied
  | crossProjectDenied
  | operatorMode
  | nonMessageEntity
  deriving DecidableEq

structure ScopeDecision where
  verdict : ScopeVerdict
  reason  : ScopeReason
  deriving DecidableEq

section

variable (result : SearchResult) (viewer : ViewerIdentity) (ctx : ScopeContext)

def isSender : Bool :=
  result.fromAgentId.any fun senderId =>
    senderId = viewer.agentId ∧ result.projectId = some viewer.projectId

def isRecipient : Bool :=
  ctx.recipientMap.any fun entry => entry.messageId = result.id ∧ viewer.agentId ∈ entry.agentIds

def hasApprovedContact : Bool :=
  result.fromAgentId.any fun senderId => (result.projectId.getD 0, senderId) ∈ ctx.approvedContacts

def lookupSenderPolicy : ContactPolicyKind :=
  let entry := result.fromAgentId.bind fun senderId =>
    ctx.senderPolicies.find? fun sp =>
      sp.projectId = result.projectId.getD 0 ∧ sp.agentId = senderId
  entry.elim .auto (·.policy)

def evaluateScope : ScopeDecision :=
  if result.docKind ≠ .message then ⟨.allow, .nonMessageEntity⟩
  else
    match ctx.viewer with
    | none        => ⟨.allow, .operatorMode⟩
    | some viewer =>
      if isSender result viewer then ⟨.allow, .isSender⟩
      else if isRecipient result viewer ctx then ⟨.allow, .isRecipient⟩
      else if result.projectId.getD 0 ∉ ctx.viewerProjectIds ∧ ¬hasApprovedContact result ctx then
        ⟨.deny, .crossProjectDenied⟩
      else if hasApprovedContact result ctx then ⟨.allow, .approvedContact⟩
      else
        match lookupSenderPolicy result ctx with
        | .openPolicy   => ⟨.allow, .openPolicy⟩
        | .auto         => ⟨.allow, .autoPolicy⟩
        | .contactsOnly => ⟨.deny, .contactsOnlyDenied⟩
        | .blockAll     => ⟨.deny, .blockAllDenied⟩

end

-- The conditions joined by `OR`.
def anyHolds {ρ : Type} : List (Clause ρ) → List PlanParam → ρ → Bool
  | [], _, _                   => false
  | clause :: clauses, ps, row =>
    clause.holds (ps.take clause.placeholders) row ||
      anyHolds clauses (ps.drop clause.placeholders) row

def anyOf {ρ : Type} (clauses : List (Clause ρ)) : Clause ρ :=
  ⟨placeholders clauses, anyHolds clauses⟩

inductive ScopeSqlParam
  | int (n : Int)
  | timestampNow
  deriving DecidableEq

def ScopeSqlParam.substitute (now : Int) : ScopeSqlParam → PlanParam
  | .int n        => .int n
  | .timestampNow => .int now

section

variable (db : Database)

-- `m.id IN (SELECT mr.message_id FROM message_recipients mr WHERE mr.agent_id = ?)`
def recipientClause : Clause MessageRow where
  placeholders := 1
  holds
    | [.int agentId], m => db.recipients.rows.any fun mr =>
      mr.agentId = agentId ∧ mr.messageId = m.id
    | _, _              => false

def never : Clause MessageRow where
  placeholders := 0
  holds _ _ := false

-- `m.project_id IN (..) AND (SELECT a2.contact_policy FROM agents a2 WHERE a2.id = m.sender_id) IN
-- ('open', 'auto')`
def permissiveClause (count : Nat) : Clause MessageRow where
  placeholders := count
  holds ps m := .int m.projectId ∈ ps && (db.agents.get? m.senderId).any fun a =>
    a.contactPolicy ∈ ["open".toList, "auto".toList]

def unexpired (now : Int) (al : AgentLinkRow) : Bool :=
  al.expiresTs.all (now < ·)

-- `EXISTS (SELECT 1 FROM agent_links al WHERE ((al.a_agent_id = ? AND al.b_agent_id = m.sender_id)
-- OR (al.b_agent_id = ? AND al.a_agent_id = m.sender_id)) AND al.status = 'approved' AND
-- (al.expires_ts IS NULL OR al.expires_ts > ?))`
def contactClause : Clause MessageRow where
  placeholders := 3
  holds
    | [.int a, .int b, .int now], m => db.links.rows.any fun al =>
      (al.aAgentId = a ∧ al.bAgentId = m.senderId ∨ al.bAgentId = b ∧ al.aAgentId = m.senderId) ∧
        al.status = "approved".toList ∧ unexpired now al
    | _, _ => false

def buildScopeSqlClauses (ctx : ScopeContext) : List (Clause MessageRow) × List ScopeSqlParam :=
  match ctx.viewer with
  | none        => ([], [])
  | some viewer =>
    let sender    := equals fun m : MessageRow => some (.int m.senderId)
    let inProject :=
      if ctx.viewerProjectIds = [] then never else permissiveClause db ctx.viewerProjectIds.length
    ([anyOf [sender, recipientClause db, inProject, contactClause db]],
      .int viewer.agentId :: .int viewer.agentId :: ctx.viewerProjectIds.map .int ++
        [.int viewer.agentId, .int viewer.agentId, .timestampNow])

-- A message satisfies the clauses at the given time.
def satisfiesScope (ctx : ScopeContext) (now : Int) (m : MessageRow) : Bool :=
  holdsAll (buildScopeSqlClauses db ctx).1 ((buildScopeSqlClauses db ctx).2.map (·.substitute now))
    m

end

-- The result for a message.
structure ResultOf (m : MessageRow) (result : SearchResult) : Prop where
  docKind     : result.docKind = .message
  id          : result.id = m.id
  projectId   : result.projectId = some m.projectId
  fromAgentId : result.fromAgentId = some m.senderId

-- An unexpired approved link of the viewer, in either direction.
def Contact (db : Database) (now : Int) (viewer : AgentRow) (contact : Int × Int) : Prop :=
  ∃ al ∈ db.links.rows, al.status = "approved".toList ∧ unexpired now al ∧
    ((al.aProjectId, al.aAgentId) = (viewer.projectId, viewer.id) ∧
      (al.bProjectId, al.bAgentId) = contact ∨
      (al.bProjectId, al.bAgentId) = (viewer.projectId, viewer.id) ∧
        (al.aProjectId, al.aAgentId) = contact)

-- The context of a viewer has been read from the database.
structure Prefetched (db : Database) (now : Int) (agent : AgentRow) (ctx : ScopeContext) :
    Prop where
  registered : agent ∈ db.agents.rows
  viewer     : ctx.viewer = some ⟨agent.projectId, agent.id⟩
  contacts   : ∀ contact, contact ∈ ctx.approvedContacts ↔ Contact db now agent contact
  policies   : ∀ sp, sp ∈ ctx.senderPolicies ↔
    ∃ a ∈ db.agents.rows, sp = ⟨a.projectId, a.id, .parse a.contactPolicy⟩
  recipients : ∀ messageId agentId,
    (∃ entry ∈ ctx.recipientMap, entry.messageId = messageId ∧ agentId ∈ entry.agentIds) ↔
      ∃ mr ∈ db.recipients.rows, mr.messageId = messageId ∧ mr.agentId = agentId

-- The senders of the messages exist, in the projects of the messages.
def SendersInProject (db : Database) : Prop :=
  ∀ m ∈ db.messages.rows, ∃ a ∈ db.agents.rows, a.id = m.senderId ∧ a.projectId = m.projectId

def AgreesWithSql (like : Str → Str → Bool) (db : Database) (query : SearchQuery) (ids : List Int) :
    Prop :=
  ∀ ctx : VisibilityContext, ctx.policy = .projectSet ids → ∀ row,
    row ∈ planSearch like db { query with scope := .projectSet ids } ↔
      row ∈ planSearch like db { query with scope := .unrestricted } ∧
        ctx.canSeeProject row.projectId

def ClauseAgrees (db : Database) (now : Int) (ctx : ScopeContext) : Prop :=
  ∀ m ∈ db.messages.rows, ∀ result, ResultOf m result →
    (satisfiesScope db ctx now m ↔ (evaluateScope result ctx).verdict ≠ .deny)

-- The policy is one of the two that the clause names, or it is parsed as one that restricts.
def Canonical (policy : Str) : Prop :=
  policy ∈ ["open".toList, "auto".toList] ∨
    ContactPolicyKind.parse policy ∈ [.contactsOnly, .blockAll]

-- The links name the projects of their agents.
def LinksInProject (db : Database) : Prop :=
  ∀ al ∈ db.links.rows, ∀ a ∈ db.agents.rows,
    (a.id = al.aAgentId → a.projectId = al.aProjectId) ∧
      (a.id = al.bAgentId → a.projectId = al.bProjectId)

end Search
