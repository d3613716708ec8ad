import AgentMail.Search.Basic

open Pattern (Str trim isWhitespace)

namespace Search

structure AppliedFilterHint where
  field : Str
  value : Str
  deriving DecidableEq

structure DidYouMeanHint where
  token          : Str
  suggestedField : Str
  value          : Str
  deriving DecidableEq

structure QueryAssistance where
  queryText          : Str
  appliedFilterHints : List AppliedFilterHint
  didYouMean         : List DidYouMeanHint
  deriving DecidableEq

def queryHintFields : List Str :=
  ["from".toList, "thread".toList, "project".toList, "before".toList, "after".toList,
    "importance".toList]

def queryHintAliases : List (Str × Str) :=
  [("sender".toList, "from".toList), ("from_agent".toList, "from".toList),
    ("sender_name".toList, "from".toList), ("frm".toList, "from".toList),
    ("thread_id".toList, "thread".toList), ("thr".toList, "thread".toList),
    ("proj".toList, "project".toList), ("project_key".toList, "project".toList),
    ("project_slug".toList, "project".toList), ("since".toList, "after".toList),
    ("date_start".toList, "after".toList), ("date_from".toList, "after".toList),
    ("until".toList, "before".toList), ("date_end".toList, "before".toList),
    ("date_to".toList, "before".toList), ("priority".toList, "importance".toList),
    ("prio".toList, "importance".toList), ("imp".toList, "importance".toList)]

-- The tokens from a position on, where the flag says whether the position is in quotes.
def splitTokens : Str → Str → Bool → List Str
  | [], current, _              => if current = [] then [] else [current]
  | ch :: rest, current, inQuotes =>
    if ch = '"' then splitTokens rest (current ++ [ch]) !inQuotes
    else if isWhitespace ch ∧ ¬inQuotes then
      if current = [] then splitTokens rest [] inQuotes else current :: splitTokens rest [] inQuotes
    else splitTokens rest (current ++ [ch]) inQuotes

def splitQueryTokens (rawQuery : Str) : List Str :=
  splitTokens rawQuery [] false

def normalizeHintValue (value : Str) : Str :=
  let trimmed := trim value
  if trimmed.head? = some '"' ∧ trimmed.getLast? = some '"' ∧ 2 ≤ trimmed.length then
    trim trimmed.tail.dropLast
  else trim trimmed

inductive HintTimeBoundary
  | startInclusive
  | endInclusive
  deriving DecidableEq

def normalizeHintField (field : Str) : Option Str :=
  let lower := toAsciiLowercase field
  if lower ∈ queryHintFields then queryHintFields.find? (· = lower)
  else (queryHintAliases.find? (·.fst = lower)).map Prod.snd

def levenshteinRow (c : Char) : Str → List Nat → Nat → List Nat
  | b :: bs, above :: above' :: rest, left =>
    let cost := if c = b then 0 else 1
    let d := min (min (above' + 1) (left + 1)) (above + cost)
    d :: levenshteinRow c bs (above' :: rest) d
  | _, _, _ => []

def levenshteinDistance (a b : Str) : Nat :=
  if a = b then 0
  else if a = [] then b.length
  else if b = [] then a.length
  else
    let rows := a.foldl (fun (row, i) c => ((i + 1) :: levenshteinRow c b row (i + 1), i + 1))
      (List.range (b.length + 1), 0)
    rows.fst.getLast?.getD 0

def suggestHintField (field : Str) : Option Str :=
  let lower := toAsciiLowercase field
  let best := queryHintFields.foldl (fun best candidate =>
    let distance := levenshteinDistance lower candidate
    if 2 < distance then best
    else
      match best with
      | none => some (candidate, distance)
      | some (bestCandidate, bestDistance) =>
        if distance < bestDistance ∨ distance = bestDistance ∧ candidate < bestCandidate then
          some (candidate, distance)
        else best) none
  best.map Prod.fst

-- `split_once(':')`
def splitColon (token : Str) : Option (Str × Str) :=
  if ':' ∈ token then some (token.takeWhile (· ≠ ':'), (token.dropWhile (· ≠ ':')).tail) else none

section

-- The RFC 3339 form of a date or a time, if it is one.
variable (normalizeDatetimeHint : Str → HintTimeBoundary → Option Str)

def normalizeHintValueForField (field value : Str) : Str :=
  if field = "after".toList then (normalizeDatetimeHint value .startInclusive).getD value
  else if field = "before".toList then (normalizeDatetimeHint value .endInclusive).getD value
  else value

-- What a token is.
inductive QueryToken
  | plain
  | hint (applied : AppliedFilterHint)
  | typo (suggestion : DidYouMeanHint)

def parseToken (token : Str) : QueryToken :=
  match splitColon token with
  | none => .plain
  | some (field, valuePart) =>
    let value := normalizeHintValue valuePart
    if trim field = [] ∨ trim valuePart = [] ∨ value = [] then .plain
    else
      match normalizeHintField field, suggestHintField field with
      | some canonical, _         =>
        .hint ⟨canonical, normalizeHintValueForField normalizeDatetimeHint canonical value⟩
      | none, some suggestedField => .typo ⟨token, suggestedField, value⟩
      | none, none                => .plain

def parseQueryAssistance (rawQuery : Str) : QueryAssistance :=
  let tokens := (splitQueryTokens rawQuery).map fun token =>
    (token, parseToken normalizeDatetimeHint token)
  let plainTokens := tokens.filterMap fun
    | (_, .hint _) => none
    | (token, _)   => some token
  { queryText          := trim (" ".toList.intercalate plainTokens)
    appliedFilterHints := tokens.filterMap fun
      | (_, .hint applied) => some applied
      | _                  => none
    didYouMean         := tokens.filterMap fun
      | (_, .typo suggestion) => some suggestion
      | _                     => none }

def queryAssistancePayload (query : SearchQuery) : Option QueryAssistance :=
  let assistance := parseQueryAssistance normalizeDatetimeHint query.text
  if assistance.appliedFilterHints = [] ∧ assistance.didYouMean = [] then none else some assistance

end

structure RecoverySuggestion where
  kind   : Str
  label  : Str
  detail : Option Str
  deriving DecidableEq

structure ZeroResultGuidance where
  summary     : Str
  suggestions : List RecoverySuggestion
  deriving DecidableEq

def broadenDateRange : RecoverySuggestion where
  kind   := "broaden_date_range".toList
  label  := "Broaden date range".toList
  detail := some "Remove or widen the date filter to include more results.".toList

def dropImportanceFilter (importance : List Importance) : RecoverySuggestion where
  kind   := "drop_importance_filter".toList
  label  := "Remove importance filter".toList
  detail :=
    some ("Currently filtering to [".toList ++ ", ".toList.intercalate (importance.map (·.asStr)) ++
    "]. Try removing the importance constraint.".toList)

def dropAgentFilter : RecoverySuggestion where
  kind   := "drop_agent_filter".toList
  label  := "Remove sender/agent filter".toList
  detail := some "Search across all agents instead of a specific sender.".toList

def dropThreadFilter : RecoverySuggestion where
  kind   := "drop_thread_filter".toList
  label  := "Remove thread filter".toList
  detail := some "Search across all threads instead of a single thread.".toList

def dropAckFilter : RecoverySuggestion where
  kind   := "drop_ack_filter".toList
  label  := "Remove ack-required filter".toList
  detail := none

def fixTypo (hint : DidYouMeanHint) : RecoverySuggestion where
  kind   := "fix_typo".toList
  label  :=
    "Did you mean \"".toList ++ hint.suggestedField ++ ":".toList ++ hint.value ++ "\"?".toList
  detail :=
    some ("\"".toList ++ hint.token ++ "\" is not a recognized field. Try \"".toList ++
      hint.suggestedField ++
    "\" instead.".toList)

def simplifyQuery : RecoverySuggestion where
  kind   := "simplify_query".toList
  label  := "Simplify search terms".toList
  detail := some "Try fewer or broader keywords.".toList

def recoverySuggestions (query : SearchQuery) (assistance : Option QueryAssistance) :
    List RecoverySuggestion :=
  let suggestions :=
    (if query.timeRange.isEmpty then [] else [broadenDateRange]) ++
    (if query.importance = [] then [] else [dropImportanceFilter query.importance]) ++
    (if query.agentName.isSome then [dropAgentFilter] else []) ++
    (if query.threadId.isSome then [dropThreadFilter] else []) ++
    (if query.ackRequired.isSome then [dropAckFilter] else []) ++
    assistance.elim [] fun assist => assist.didYouMean.map fixTypo
  if suggestions = [] ∧ trim query.text ≠ [] then [simplifyQuery] else suggestions

def guidanceSummary (count : Nat) : Str :=
  if count = 0 then "No results found. Try a different search query.".toList
  else
    "No results found. ".toList ++ (toString count).toList ++ " suggestion".toList ++
      (if count = 1 then [] else ['s']) ++ " available to broaden your search.".toList

def generateZeroResultGuidance (query : SearchQuery) (resultCount : Nat)
    (assistance : Option QueryAssistance) : Option ZeroResultGuidance :=
  if 0 < resultCount then none
  else
    let suggestions := recoverySuggestions query assistance
    some ⟨guidanceSummary suggestions.length, suggestions⟩

end Search
