import AgentMail.Lib.Wildcard
import Mathlib.Algebra.GroupWithZero.Nat

open Wildcard (Item meets)

namespace Pattern

abbrev Str := List Char

instance : LawfulBEq Str :=
  inferInstanceAs (LawfulBEq (List Char))

-- The `globset` crate, as far as it is used: `GlobBuilder::new(glob).literal_separator(true)` with
-- the given case sensitivity, and the matcher that is compiled from it if the glob is valid.
structure Globset where
  build (caseInsensitive : Bool) (glob : Str) : Option (Str → Bool)

-- The characters with the Unicode property `White_Space`, which `str::trim` removes.
def isWhitespace (c : Char) : Bool :=
  let n := c.toNat
  (0x9 ≤ n && n ≤ 0xD) || n = 0x20 || n = 0x85 || n = 0xA0 || n = 0x1680 ||
    (0x2000 ≤ n && n ≤ 0x200A) || n = 0x2028 || n = 0x2029 || n = 0x202F || n = 0x205F || n = 0x3000

def trim (s : Str) : Str :=
  s.dropWhile isWhitespace |>.reverse.dropWhile isWhitespace |>.reverse

def trimStart (s : Str) : Str :=
  s.dropWhile isWhitespace

def trimEnd (s : Str) : Str :=
  (s.reverse.dropWhile isWhitespace).reverse

def pushComponent (parts : List Str) (component : Str) : List Str :=
  if component = [] ∨ component = ['.'] then
    parts
  else if component = ['.', '.'] then
    parts.dropLast
  else
    parts ++ [component]

def joinComponents (components : List Str) : Str :=
  ['/'].intercalate (components.foldl pushComponent [])

def normalizePattern (pattern : Str) : Str :=
  joinComponents <| (trim pattern).splitOnP fun c => c = '/' || c = '\\'

-- Number of bytes in the UTF-8 encoding.
def byteLen (s : Str) : Nat :=
  (s.map Char.utf8Size).sum

-- The slice `&s[..n]`, which panics if `n` is not on a character boundary.
def sliceTo : Str → Nat → Option Str
  | _, 0           => some []
  | [], _ + 1      => none
  | c :: s, n + 1 => if c.utf8Size ≤ n + 1 then (sliceTo s (n + 1 - c.utf8Size)).map (c :: ·)
    else none

-- `s.as_bytes().get(n)` is a `/`, which only occurs on a character boundary.
def slashAt : Str → Nat → Bool
  | [], _         => false
  | c :: _, 0     => c = '/'
  | c :: s, n + 1 => c.utf8Size ≤ n + 1 && slashAt s (n + 1 - c.utf8Size)

section

-- Whether letter case is ignored is fixed by the target: `cfg!(any(target_os = "macos", target_os =
-- "windows"))`.
variable (caseInsensitive : Bool)

def fold (s : Str) : Str :=
  if caseInsensitive then s.map Char.toLower else s

def textEq (left right : Str) : Bool :=
  if caseInsensitive then
    left.map Char.toLower = right.map Char.toLower
  else
    left = right

-- Panics are `none`.
def isTextPrefix (pre full : Str) : Option Bool :=
  if caseInsensitive then
    if byteLen full ≥ byteLen pre then
      (sliceTo full (byteLen pre)).map (textEq true · pre)
    else
      some false
  else
    some (pre.isPrefixOf full)

def isDirectoryPrefix (pre full : Str) : Option Bool :=
  if pre.isEmpty then
    some true
  else
    (isTextPrefix caseInsensitive pre full).map (· && slashAt full (byteLen pre))

end

def hasGlobMeta (s : Str) : Bool :=
  s.any fun c => c = '*' || c = '?' || c = '[' || c = '{'

-- Counted in characters.
def firstLiteralSegmentEnd (norm : Str) : Option Nat :=
  let seg := norm.takeWhile (· ≠ '/')
  if seg.isEmpty || hasGlobMeta seg then none else some seg.length

inductive SimpleGlobToken
  | literal (c : Char)
  | anyChar
  | anyString
  deriving DecidableEq

namespace SimpleGlobToken

def item : SimpleGlobToken → Item (Option Char)
  | literal c => .one (some c)
  | anyChar   => .one none
  | anyString => .many

end SimpleGlobToken

-- Consecutive stars are one token.
def pushToken (caseInsensitive : Bool) (tokens : List SimpleGlobToken) (c : Char) :
    Option (List SimpleGlobToken) :=
  match c with
  | '*' => if tokens.getLast? = some .anyString then some tokens else some (tokens ++ [.anyString])
  | '?' => some (tokens ++ [.anyChar])
  | '[' | ']' | '{' | '}' => none
  | c   => some (tokens ++ [.literal (if caseInsensitive then c.toLower else c)])

def parseSimpleGlobTokens (caseInsensitive : Bool) (segment : Str) :
    Option (List SimpleGlobToken) :=
  segment.foldlM (pushToken caseInsensitive) []

def simpleGlobTokensOverlap (left right : List SimpleGlobToken) : Bool :=
  meets
    (fun
      | some l, some r => l = r
      | _, _           => true)
    (left.map SimpleGlobToken.item) (right.map SimpleGlobToken.item)

def simpleGlobPatternsOverlap (caseInsensitive : Bool) (left right : Str) : Option Bool := do
  let leftTokens  ← parseSimpleGlobTokens caseInsensitive left
  let rightTokens ← parseSimpleGlobTokens caseInsensitive right
  return simpleGlobTokensOverlap leftTokens rightTokens

inductive PatternSegment
  | literal (s : Str)
  | glob (raw : Str) (matcher : Str → Bool)
  | recursive

namespace PatternSegment

def item : PatternSegment → Item PatternSegment
  | recursive => .many
  | seg       => .one seg

def overlaps (caseInsensitive : Bool) : PatternSegment → PatternSegment → Bool
  | literal l₁, literal l₂ => textEq caseInsensitive l₁ l₂
  | glob _ m, literal l | literal l, glob _ m => m l
  | glob l _, glob r _ => (simpleGlobPatternsOverlap caseInsensitive l r).getD true
  | recursive, _ | _, recursive => true

end PatternSegment

def segmentsOverlap (caseInsensitive : Bool) (s₁ s₂ : List PatternSegment) : Bool :=
  meets (PatternSegment.overlaps caseInsensitive) (s₁.map PatternSegment.item)
    (s₂.map PatternSegment.item)

structure CompiledPattern where
  norm                   : Str
  matcher                : Option (Str → Bool)
  isGlob                 : Bool
  firstLiteralSegmentEnd : Option Nat
  segments               : List PatternSegment

-- The segment `**` is recursive, and a segment that is no valid glob on its own counts as literal.
def compileSegment (gs : Globset) (caseInsensitive : Bool) (s : Str) : PatternSegment :=
  if s = ['*', '*'] then
    .recursive
  else if hasGlobMeta s then
    match gs.build caseInsensitive s with
    | some matcher => .glob s matcher
    | none         => .literal s
  else
    .literal s

namespace CompiledPattern

def new (gs : Globset) (caseInsensitive : Bool) (raw : Str) : CompiledPattern :=
  let norm   := normalizePattern raw
  let isGlob := hasGlobMeta norm
  {
    norm
    matcher := if isGlob then gs.build caseInsensitive norm else none
    isGlob
    firstLiteralSegmentEnd := Pattern.firstLiteralSegmentEnd norm
    segments := (norm.splitOn '/').map (compileSegment gs caseInsensitive)
  }

def isMatchable (p : CompiledPattern) : Bool :=
  !p.isGlob || p.matcher.isSome

def firstLiteralSegment (p : CompiledPattern) : Option Str :=
  p.firstLiteralSegmentEnd.map p.norm.take

-- The glob matcher applied to a text. Without a matcher nothing matches.
def globMatches (p : CompiledPattern) (path : Str) : Bool :=
  p.matcher.any (· path)

def matchesPath (p : CompiledPattern) (path : Str) : Bool :=
  p.globMatches path || (!p.isGlob && p.norm = path)

-- The first literal segments of both patterns exist, and differ.
def firstSegmentMismatch (caseInsensitive : Bool) (self other : CompiledPattern) : Bool :=
  match self.firstLiteralSegment, other.firstLiteralSegment with
  | some left, some right => !textEq caseInsensitive left right
  | _, _                  => false

-- `!self.is_glob && is_directory_prefix(&self.norm, &other.norm)`
def isDirectoryOf (caseInsensitive : Bool) (self other : CompiledPattern) : Option Bool :=
  if self.isGlob then some false else isDirectoryPrefix caseInsensitive self.norm other.norm

def overlaps (caseInsensitive : Bool) (self other : CompiledPattern) : Option Bool := do
  if textEq caseInsensitive self.norm other.norm then
    return true
  if ← self.isDirectoryOf caseInsensitive other then
    return true
  if ← other.isDirectoryOf caseInsensitive self then
    return true
  if other.isMatchable && self.globMatches other.norm then
    return true
  if self.isMatchable && other.globMatches self.norm then
    return true
  if !self.isMatchable || !other.isMatchable then
    return false
  if self.firstSegmentMismatch caseInsensitive other then
    return false
  return segmentsOverlap caseInsensitive self.segments other.segments

end CompiledPattern

-- The thread-local cache of compiled patterns. Every entry is the compilation of its key.
structure PatternCache (gs : Globset) (caseInsensitive : Bool) where
  capacity : Nat
  entries  : List (Str × CompiledPattern)
  order    : List Str
  compiled : ∀ e ∈ entries, e.2 = .new gs caseInsensitive e.1

namespace PatternCache

variable {gs : Globset} {caseInsensitive : Bool}

def new (capacity : Nat) : PatternCache gs caseInsensitive where
  capacity := capacity
  entries  := []
  order    := []
  compiled := nofun

-- The entry that was inserted first makes room for the next one.
def evictIfFull (cache : PatternCache gs caseInsensitive) : PatternCache gs caseInsensitive :=
  if cache.entries.length ≥ cache.capacity then
    match cache.order with
    | [] => cache
    | oldest :: order => { cache with
        entries  := cache.entries.filter (·.1 ≠ oldest)
        order    := order
        compiled := fun e he => cache.compiled e (List.mem_of_mem_filter he) }
  else
    cache

def getOrInsert (cache : PatternCache gs caseInsensitive) (raw : Str) :
    CompiledPattern × PatternCache gs caseInsensitive :=
  match cache.entries.lookup raw with
  | some p => (p, cache)
  | none   =>
    let p     := .new gs caseInsensitive raw
    let cache := cache.evictIfFull
    (p, { cache with
      entries  := (raw, p) :: cache.entries
      order    := cache.order ++ [raw]
      compiled := by
        intro e he
        cases List.mem_cons.mp he
        case inl he => exact he ▸ rfl
        case inr he => exact cache.compiled e he })

end PatternCache

def patternsOverlap {gs : Globset} {caseInsensitive : Bool}
    (cache : PatternCache gs caseInsensitive) (left right : Str) :
    Option Bool × PatternCache gs caseInsensitive :=
  let (left, cache)  := cache.getOrInsert left
  let (right, cache) := cache.getOrInsert right
  (left.overlaps caseInsensitive right, cache)

def patternCacheCapacity : Nat := 4096

namespace PatternCache

variable {gs : Globset} {caseInsensitive : Bool} (cache : PatternCache gs caseInsensitive)

-- The cache after lookups of the given patterns, in order.
def after (raws : List Str) : PatternCache gs caseInsensitive :=
  raws.foldl (fun cache raw => (cache.getOrInsert raw).2) cache

-- The map and the queue agree on which patterns are cached.
structure Coherent : Prop where
  perm  : (cache.entries.map Prod.fst).Perm cache.order
  nodup : cache.order.Nodup

-- The cache cannot be told from one that compiles every pattern anew.
structure Transparent : Prop extends cache.Coherent where
  bounded  : cache.entries.length ≤ cache.capacity
  compiles : ∀ raw, (cache.getOrInsert raw).1 = .new gs caseInsensitive raw

end PatternCache

end Pattern
