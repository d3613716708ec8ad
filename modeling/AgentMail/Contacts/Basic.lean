import AgentMail.Lib.Chunks
import AgentMail.Lib.Saturating
import AgentMail.Schema.Basic

open Pattern (Str trim)
open Schema (AgentRow)

namespace Contacts

inductive LinkStatus
  | pending
  | approved
  | blocked
  deriving DecidableEq

-- The ids of a project and of an agent.
abbrev Party := Int × Int

structure AgentLinkRow where
  id        : Int
  a         : Party
  b         : Party
  status    : LinkStatus
  reason    : Str
  createdTs : Int
  updatedTs : Int
  expiresTs : Option Int
  deriving DecidableEq

def AgentLinkRow.pair (row : AgentLinkRow) : Party × Party :=
  (row.a, row.b)

-- The table `agent_links`, with at most one row for a pair.
structure Links where
  table  : Table AgentLinkRow.pair
  nextId : Int
  nodup  : (table.rows.map (·.id)).Nodup
  lt     : ∀ row ∈ table.rows, row.id < nextId

namespace Links

def empty : Links where
  table  := .empty
  nextId := 1
  nodup  := .nil
  lt     := nofun

variable (links : Links)

def get? (pair : Party × Party) : Option AgentLinkRow :=
  links.table.get? pair

def insert (row : AgentLinkRow) (h : links.get? row.pair = none) : Links where
  table  := links.table.insert { row with id := links.nextId } h
  nextId := links.nextId + 1
  nodup  := by
    simp only [Table.insert, List.map_append, List.nodup_append]
    refine ⟨links.nodup, List.nodup_singleton _, fun id hid id' hid' he => ?_⟩
    obtain ⟨row', hr, rfl⟩ := List.mem_map.mp hid
    cases List.mem_singleton.mp hid'
    exact absurd he (links.lt row' hr).ne
  lt row' hr := by
    obtain hr | hr := List.mem_append.mp hr
    · exact Int.lt_add_one_of_le (links.lt row' hr).le
    · cases List.mem_singleton.mp hr
      exact Int.lt_succ _

-- An update of columns that are neither the id nor a part of the pair.
def update (p : AgentLinkRow → Bool) (status : LinkStatus) (reason : AgentLinkRow → Str)
    (updatedTs : Int) (expiresTs : Option Int) : Links where
  table  :=
    links.table.update p
      (fun row => { row with status, reason := reason row, updatedTs, expiresTs }) fun _ => rfl
  nextId := links.nextId
  nodup  := by
    have h (row : AgentLinkRow) :
        (if p row then { row with status, reason := reason row, updatedTs, expiresTs }
          else row).id = row.id := by
      split <;> rfl
    simp only [Table.update, List.map_map, Function.comp_def, h]
    exact links.nodup
  lt row hr := by
    obtain ⟨row', hr', rfl⟩ := List.mem_map.mp hr
    have := links.lt row' hr'
    split <;> exact this

end Links

def expiry (now ttlSeconds : Int) : Option Int :=
  if ttlSeconds > 0 then some (I64.saturatingAdd now (I64.saturate (ttlSeconds * 1000000)))
    else none

def requestContact (links : Links) (now : Int) (fromAgent toAgent : Party) (reason : Str)
    (ttlSeconds : Int) : Links :=
  let row : AgentLinkRow :=
    ⟨0, fromAgent, toAgent, .pending, reason, now, now, expiry now ttlSeconds⟩
  if h : links.get? row.pair = none then
    links.insert row h
  else
    links.update (fun link => link.pair = row.pair ∧
      link.status ≠ .blocked) .pending (fun _ => reason) now row.expiresTs

-- There is nothing to respond to without a link.
def respondContact (links : Links) (now : Int) (fromAgent toAgent : Party) (accept : Bool)
    (ttlSeconds : Int) : Option Links := do
  let link ← links.get? (fromAgent, toAgent)
  let status := if accept then .approved else .blocked
  let expires := if accept then expiry now ttlSeconds else none
  some (links.update (·.id = link.id) status (·.reason) now expires)

inductive LinkCall
  | request (now : Int) (fromAgent toAgent : Party) (reason : Str) (ttlSeconds : Int)
  | respond (now : Int) (fromAgent toAgent : Party) (accept : Bool) (ttlSeconds : Int)

namespace LinkCall

def pair : LinkCall → Party × Party
  | request _ fromAgent toAgent _ _ => (fromAgent, toAgent)
  | respond _ fromAgent toAgent _ _ => (fromAgent, toAgent)

def isRequest : LinkCall → Bool
  | request .. => true
  | respond .. => false

end LinkCall

def Links.call (links : Links) : LinkCall → Links
  | .request now fromAgent toAgent reason ttlSeconds =>
    requestContact links now fromAgent toAgent reason ttlSeconds
  | .respond now fromAgent toAgent accept ttlSeconds =>
    (respondContact links now fromAgent toAgent accept ttlSeconds).getD links

def Links.calls (links : Links) (calls : List LinkCall) : Links :=
  calls.foldl Links.call links

def maxInClauseItems : Nat := 500

-- `sort_unstable` and `dedup`
def sortDedup (ids : List Int) : List Int :=
  (ids.mergeSort (· ≤ ·)).dedup

def AgentLinkRow.approvedAt (row : AgentLinkRow) (now : Int) : Bool :=
  row.status = .approved && row.expiresTs.all (· > now)

-- The clock is read once for each chunk.
def listApprovedContactIds (links : Links) (now : Nat → Int) (projectId senderId : Int)
    (candidateIds : List Int) : List Int :=
  sortDedup <| (chunks maxInClauseItems candidateIds).zipIdx.flatMap fun (chunk, i) =>
    (links.table.rows.filter fun row => row.a = (projectId, senderId) ∧ row.b.1 = projectId ∧
      row.approvedAt (now i) ∧ row.b.2 ∈ chunk).map (·.b.2)

inductive ContactPolicyDecision
  | allow
  | requireApproval
  | blockAll
  deriving DecidableEq

section

-- `str::to_lowercase`
variable (toLowercase : Str → Str)

def contactPolicy (policyRaw : Str) : Str :=
  let policy := toLowercase policyRaw
  if policy ∈ ["open", "auto", "contacts_only", "block_all"].map (·.toList) then policy
    else "auto".toList

def contactPolicyDecision (senderName recipientName policyRaw : Str) (recentOk approved : Bool) :
    ContactPolicyDecision :=
  let policy := contactPolicy toLowercase policyRaw
  if recipientName = senderName then .allow
  else if policy = "block_all".toList then .blockAll
  else if policy = "open".toList then .allow
  else if policy = "auto".toList && recentOk then .allow
  else if approved then .allow
  else .requireApproval

-- Of `to`, `cc` and `bcc`
inductive Kind
  | direct
  | cc
  | bcc
  deriving DecidableEq

abbrev RecipientMap : Type :=
  Table (Prod.fst : Str × AgentRow → Str)

structure Recipients where
  map      : RecipientMap
  all      : List (Int × Kind)
  resolved : List (Str × Kind)

-- Agents are found, or registered, by `resolve`.
def pushRecipient (resolve : Str → Option AgentRow) (kind : Kind) (name : Str)
    (recipients : Recipients) : Option Recipients := do
  let name := trim name
  let (map, agent) ←
    match recipients.map.get? (toLowercase name) with
    | some (_, existing) => some (recipients.map, existing)
    | none               => (resolve name).map fun agent =>
      (recipients.map.put (toLowercase agent.name, agent), agent)
  if agent.id ∈ recipients.all.map Prod.fst then
    some { recipients with map }
  else
    some ⟨map, recipients.all ++ [(agent.id, kind)], recipients.resolved ++ [(agent.name, kind)]⟩

-- Without a result there is a recipient that is not found.
def pushRecipients (resolve : Str → Option AgentRow) (toNames cc bcc : List Str) :
    Option Recipients := do
  let push (kind : Kind) (names : List Str) (recipients : Recipients) :=
    names.foldlM (fun recipients name => pushRecipient toLowercase resolve kind name recipients)
      recipients
  let recipients ← push .direct toNames ⟨.empty, [], []⟩
  let recipients ← push .cc cc recipients
  push .bcc bcc recipients

structure ContactConfig where
  contactEnforcementEnabled      : Bool
  contactAutoTtlSeconds          : Nat
  messagingAutoHandshakeOnBlock : Bool

inductive ContactError
  | contactBlocked
  | contactRequired (blocked attempted : List Str)
  deriving DecidableEq

-- How far a handshake comes before an error, and the calls that others make meanwhile.
inductive Handshake
  | failed (others : List LinkCall)
  | requested (before after : List LinkCall)
  | answered (before between after : List LinkCall)

def Handshake.isOk : Handshake → Bool
  | failed ..    => false
  | requested .. => false
  | answered ..  => true

-- What a message finds when it is sent: the agents that are in contact by the thread or by
-- reservations, or that have been lately, the readings of the clock (for each chunk of the
-- candidates where these are looked up), and how the handshakes go.
structure Surroundings where
  autoOkNames : List Str
  recentIds   : List Int
  now         : Nat → Int
  requestNow  : Int
  respondNow  : Int
  recheckNow  : Nat → Int
  handshake   : Str → Handshake

variable (cfg : ContactConfig) (projectId : Int) (sender : AgentRow) (recipients : Recipients)
  (env : Surroundings)

def candidateIds : List Int :=
  sortDedup ((recipients.map.rows.map (·.2.id)).filter (· ≠ sender.id))

def agentOf (name : Str) : Option AgentRow :=
  (recipients.map.get? (toLowercase name)).map Prod.snd

def recentOk (agent : AgentRow) : Bool :=
  env.autoOkNames.contains agent.name || env.recentIds.contains agent.id

-- The names of the recipients that have to approve. There is none to ask if one of them blocks all.
def checkPolicy (approvedIds : List Int) (blocked : List Str) (name : Str) : Option (List Str) :=
  match agentOf toLowercase recipients name with
  | none       => some blocked
  | some agent =>
    match contactPolicyDecision toLowercase sender.name agent.name agent.contactPolicy
      (recentOk env agent)
        (approvedIds.contains agent.id) with
    | .allow           => some blocked
    | .blockAll        => none
    | .requireApproval => some (blocked ++ [agent.name])

def stillBlocked (approvedIds : List Int) (name : Str) : Bool :=
  match agentOf toLowercase recipients name with
  | none       => true
  | some agent =>
    let policy := contactPolicy toLowercase agent.contactPolicy
    if policy = "open".toList then false
    else if policy = "auto".toList ∨ policy = "contacts_only".toList then
      !approvedIds.contains agent.id
    else true

def ttlSeconds : Int :=
  min cfg.contactAutoTtlSeconds (2 ^ 63 - 1)

def handshakeTtl (ttlSeconds : Int) : Int :=
  if ttlSeconds > 0 then max 60 (min ttlSeconds 31536000) else 604800

-- `macro_contact_handshake` with `auto_accept`
def handshakeCalls (name : Str) : List LinkCall :=
  match agentOf toLowercase recipients name with
  | none       => []
  | some agent =>
    let ttl := handshakeTtl (ttlSeconds cfg)
    let fromAgent := (projectId, sender.id)
    let toAgent := (projectId, agent.id)
    let request :=
      .request env.requestNow fromAgent toAgent "auto-handshake by send_message".toList ttl
    match env.handshake name with
    | .failed others                 => others
    | .requested before after        => before ++ request :: after
    | .answered before between after =>
      before ++ request :: between ++ .respond env.respondNow fromAgent toAgent true ttl :: after

-- The calls on the links that are made meanwhile, and whether the message can be delivered.
def enforceContacts (links : Links) (autoContactIfBlocked : Option Bool) :
    List LinkCall × Except ContactError Unit :=
  if !cfg.contactEnforcementEnabled then
    ([], .ok ())
  else
    let candidates := candidateIds sender recipients
    let approvedIds := listApprovedContactIds links env.now projectId sender.id candidates
    match (recipients.resolved.map Prod.fst).foldlM
      (checkPolicy toLowercase sender recipients env approvedIds) [] with
    | none         => ([], .error .contactBlocked)
    | some []      => ([], .ok ())
    | some blocked =>
      if autoContactIfBlocked.getD cfg.messagingAutoHandshakeOnBlock then
        let calls :=
          blocked.flatMap (handshakeCalls toLowercase cfg projectId sender recipients env)
        let attempted := blocked.filter (env.handshake · |>.isOk)
        let approvedIds :=
          listApprovedContactIds (links.calls calls) env.recheckNow projectId sender.id candidates
        match blocked.filter (stillBlocked toLowercase recipients approvedIds) with
        | []      => (calls, .ok ())
        | blocked => (calls, .error (.contactRequired blocked attempted))
      else
        ([], .error (.contactRequired blocked []))

end

end Contacts
