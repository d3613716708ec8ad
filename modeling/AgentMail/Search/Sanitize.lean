import AgentMail.Search.Basic

open Pattern (Str trim trimStart trimEnd isWhitespace)

namespace Search

def booleanOperators : List Str :=
  ["AND".toList, "OR".toList, "NOT".toList, "NEAR".toList]

-- `SPECIAL_CHARS`
def isSpecialChar (c : Char) : Bool :=
  c ∈ ['[', ']', '\x7b', '\x7d', '^', '~', '\\']

-- `UNSEARCHABLE`
def isUnsearchable (s : Str) : Bool :=
  s ≠ [] && s.all fun c => c ∈ ['*', '.', '?', '!', '(', ')']

-- `MULTI_SPACE`: every blank that is followed by another one is dropped.
def collapseSpaces : Str → Str
  | []     => []
  | c :: s => if c = ' ' ∧ s.head? = some ' ' then collapseSpaces s else c :: collapseSpaces s

-- Special characters and parentheses are replaced.
def blankSpecials (s : Str) : Str :=
  (s.map fun c => if isSpecialChar c then ' ' else c).map fun c => if c ∈ ['(', ')'] then ' ' else c

def splitWhitespace (s : Str) : List Str :=
  (s.splitOnP isWhitespace).filter (· ≠ [])

theorem length_trimStart_le (s : Str) : (trimStart s).length ≤ s.length :=
  (List.dropWhile_suffix _).length_le

theorem length_trimEnd_le (s : Str) : (trimEnd s).length ≤ s.length := by
  have h := (List.dropWhile_suffix isWhitespace (l := s.reverse)).length_le
  simpa [trimEnd] using h

def stripLeadingWildcards : Str → Str
  | []     => []
  | c :: s => if c = '*' then stripLeadingWildcards (trimStart s) else c :: s
termination_by s => s.length
decreasing_by
  have := length_trimStart_le s
  rw [List.length_cons]
  omega

def endsWithWildcard (s : Str) : Bool :=
  [' ', '*'].isSuffixOf s

-- The `if` of the database crate.
def stripTrailingWildcard (s : Str) : Str :=
  if endsWithWildcard s then trimEnd s.dropLast.dropLast else s

-- The `while` of the search crate.
def stripTrailingWildcards (s : Str) : Str :=
  if endsWithWildcard s then stripTrailingWildcards (trimEnd s.dropLast.dropLast) else s
termination_by s.length
decreasing_by
  rename_i h
  have ⟨r, hr⟩ := List.isSuffixOf_iff_suffix.mp h
  have := length_trimEnd_le s.dropLast.dropLast
  rw [← hr] at this ⊢
  simp at this ⊢
  omega

def isOperatorsOnly (s : Str) : Bool :=
  (splitWhitespace s).all fun word => booleanOperators.any (eqIgnoreAsciiCase word)

def startsAlphanumeric : Str → Bool
  | []     => false
  | c :: _ => c.isAlphanum

-- The characters that continue a hyphenated token, and what follows. A hyphen continues it if it is
-- followed by a letter or a digit.
def tokenSpan : Str → Str × Str
  | []     => ([], [])
  | c :: s =>
    if c.isAlphanum ∨ c = '-' ∧ startsAlphanumeric s then
      let (token, rest) := tokenSpan s
      (c :: token, rest)
    else
      ([], c :: s)

-- `HYPHENATED_TOKEN` at the start of a text.
def matchHyphenated (s : Str) : Option (Str × Str) :=
  let (token, rest) := tokenSpan s
  if startsAlphanumeric s ∧ '-' ∈ token then some (token, rest) else none

theorem length_tokenSpan (s : Str) :
    (tokenSpan s).fst.length + (tokenSpan s).snd.length = s.length := by
  induction s
  case nil => rfl
  case cons c s hi =>
    rw [tokenSpan]
    split
    case isTrue  => simp only [List.length_cons]; omega
    case isFalse => simp

-- The replacements from a position on. Whether the position is in quotes depends on the number of
-- quotes before it.
def quoteFrom : Str → Bool → Str
  | [], _            => []
  | c :: s, inQuotes =>
    match _h : matchHyphenated (c :: s) with
    | some (token, rest) =>
      (if inQuotes then token else '"' :: token ++ ['"']) ++ quoteFrom rest inQuotes
    | none => c :: quoteFrom s (if c = '"' then !inQuotes else inQuotes)
termination_by s => s.length
decreasing_by
  · simp only [matchHyphenated] at _h
    split at _h
    case isFalse   => cases _h
    case isTrue hm =>
      have hl := length_tokenSpan (c :: s)
      have := List.length_pos_of_mem hm.right
      cases _h
      omega
  · simp

def quoteHyphenatedTokens (query : Str) : Str :=
  if '-' ∈ query then quoteFrom query false else query

-- The two copies of the function, which differ in how wildcards are stripped from the end. A query
-- that is empty or unsearchable is `none`.
def sanitizeWith (strip : Str → Str) (query : Str) : Option Str :=
  let trimmed := trim query
  if trimmed = [] then
    none
  else if isUnsearchable trimmed then
    none
  else
    let result := stripLeadingWildcards (trim (collapseSpaces (blankSpecials trimmed)))
    if result = [] then
      none
    else
      let result := strip result
      if result = [] then
        none
      else if isOperatorsOnly result then
        none
      else
        let result := quoteHyphenatedTokens result
        if trim result = [] then none else some result

-- `mcp-agent-mail-db`
def sanitizeQuery (query : Str) : Option Str :=
  sanitizeWith stripTrailingWildcard query

-- `mcp-agent-mail-search-core`
def coreSanitizeQuery (query : Str) : Option Str :=
  sanitizeWith stripTrailingWildcards query

end Search
