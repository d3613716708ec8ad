import AgentMail.Lib.Float64
import AgentMail.Pattern.Basic

open Pattern (Str)

namespace Search

inductive DocKind
  | message
  | agent
  | project
  | thread
  deriving DecidableEq

inductive Importance
  | low
  | normal
  | high
  | urgent
  deriving DecidableEq

def Importance.asStr : Importance → Str
  | .low    => "low".toList
  | .normal => "normal".toList
  | .high   => "high".toList
  | .urgent => "urgent".toList

def toAsciiLowercase (s : Str) : Str :=
  s.map Char.toLower

def eqIgnoreAsciiCase (s t : Str) : Bool :=
  toAsciiLowercase s = toAsciiLowercase t

def Importance.parse (s : Str) : Option Importance :=
  let s := toAsciiLowercase s
  if s = "low".toList then some .low
  else if s = "normal".toList then some .normal
  else if s = "high".toList then some .high
  else if s = "urgent".toList then some .urgent
  else none

inductive Direction
  | inbox
  | outbox
  deriving DecidableEq

structure TimeRange where
  minTs : Option Int
  maxTs : Option Int
  deriving DecidableEq

def TimeRange.isEmpty (range : TimeRange) : Bool :=
  range.minTs.isNone && range.maxTs.isNone

inductive RankingMode
  | relevance
  | recency
  deriving DecidableEq

inductive ScopePolicy
  | unrestricted
  | callerScoped (callerAgent : Str)
  | projectSet (allowedProjectIds : List Int)
  deriving DecidableEq

def ScopePolicy.isRestricted : ScopePolicy → Bool
  | .unrestricted => false
  | _             => true

structure RedactionConfig where
  redactBody       : Bool
  redactAgentNames : Bool
  redactThreadIds  : Bool
  placeholder      : Str
  deriving DecidableEq

structure SearchQuery where
  text        : Str
  docKind     : DocKind
  projectId   : Option Int
  productId   : Option Int
  importance  : List Importance
  direction   : Option Direction
  agentName   : Option Str
  threadId    : Option Str
  ackRequired : Option Bool
  timeRange   : TimeRange
  ranking     : RankingMode
  limit       : Option Nat
  cursor      : Option Str
  explain     : Bool
  scope       : ScopePolicy
  redaction   : Option RedactionConfig
  deriving DecidableEq

def SearchQuery.effectiveLimit (query : SearchQuery) : Nat :=
  max 1 (min (query.limit.getD 50) 5000)

structure ScoreFactorSummary where
  key          : Str
  contribution : Float64
  summary      : Str
  deriving DecidableEq

structure SearchResult where
  docKind         : DocKind
  id              : Int
  projectId       : Option Int
  title           : Str
  body            : Str
  score           : Option Float64
  importance      : Option Str
  ackRequired     : Option Bool
  createdTs       : Option Int
  threadId        : Option Str
  fromAgent       : Option Str
  fromAgentId     : Option Int
  toNames         : Option (List Str)
  ccNames         : Option (List Str)
  bccNames        : Option (List Str)
  reasonCodes     : List Str := []
  scoreFactors    : List ScoreFactorSummary := []
  redacted        : Bool := false
  redactionReason : Option Str := none
  deriving DecidableEq

structure SearchCursor where
  score : Float64
  id    : Int
  deriving DecidableEq

section

def hexDigit (n : Nat) : Char :=
  if n < 10 then Char.ofNat (48 + n) else Char.ofNat (87 + n)

def hexDigit? (c : Char) : Option Nat :=
  if '0' ≤ c ∧ c ≤ '9' then some (c.toNat - 48)
  else if 'a' ≤ c ∧ c ≤ 'f' then some (c.toNat - 87)
  else if 'A' ≤ c ∧ c ≤ 'F' then some (c.toNat - 55)
  else none

-- The last digits, of which there are as many as given.
def hexDigits : Nat → Nat → Str
  | 0, _         => []
  | count + 1, n => hexDigits count (n / 16) ++ [hexDigit (n % 16)]

def SearchCursor.encode (cursor : SearchCursor) : Str :=
  's' :: hexDigits 16 cursor.score.bits.toNat ++ ":i".toList ++ (toString cursor.id).toList

-- `split_once(":i")`
def splitOnce : Str → Option (Str × Str)
  | ':' :: 'i' :: s => some ([], s)
  | c :: s          => (splitOnce s).map fun (before, after) => (c :: before, after)
  | []              => none

def digits? (radix : Nat) (s : Str) : Option Nat :=
  s.foldlM (fun n c => do
    let d ← hexDigit? c
    if d < radix then some (n * radix + d) else none) 0

def unsigned? (radix : Nat) (s : Str) : Option Nat :=
  let s := if s.head? = some '+' then s.tail else s
  if s = [] then none else digits? radix s

-- `u64::from_str_radix`
def u64? (radix : Nat) (s : Str) : Option (BitVec 64) :=
  match unsigned? radix s with
  | some n => if n < 2 ^ 64 then some (BitVec.ofNat 64 n) else none
  | none   => none

-- `str::parse::<i64>`
def i64? (s : Str) : Option Int :=
  let n : Option Int :=
    if s.head? = some '-' then
      if s.tail = [] then none else (digits? 10 s.tail).map fun n => -n
    else
      (unsigned? 10 s).map fun n => n
  n.filter fun n => -2 ^ 63 ≤ n ∧ n < 2 ^ 63

def SearchCursor.decode (token : Str) : Option SearchCursor := do
  let (scorePart, idPart) ← splitOnce token
  let hex ← if scorePart.head? = some 's' then some scorePart.tail else none
  let bits ← u64? 16 hex
  let score := Float64.mk bits
  if score.isFinite then
    let id ← i64? idPart
    some ⟨score, id⟩
  else
    none

end

section

def isTermChar (c : Char) : Bool :=
  c.isAlphanum || c = '.' || c = '_' || c = '/' || c = '-'

-- `str::split`
def tokens : Str → List Str
  | []     => [[]]
  | c :: s =>
    if isTermChar c then
      match tokens s with
      | []              => [[c]]
      | token :: tokens => (c :: token) :: tokens
    else
      [] :: tokens s

def stopwords : List Str :=
  ["AND".toList, "OR".toList, "NOT".toList, "NEAR".toList]

def extractTerms (maxTerms : Nat) : List Str → List Str → List Str
  | [], terms              => terms
  | token :: tokens, terms =>
    if token.length < 2 then extractTerms maxTerms tokens terms
    else if stopwords.any (eqIgnoreAsciiCase · token) then extractTerms maxTerms tokens terms
    else
      let terms := if terms.any (eqIgnoreAsciiCase · token) then terms else terms ++ [token]
      if maxTerms ≤ terms.length then terms else extractTerms maxTerms tokens terms

def extractLikeTerms (query : Str) (maxTerms : Nat) : List Str :=
  extractTerms maxTerms (tokens query) []

end

end Search
