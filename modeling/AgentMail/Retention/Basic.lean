import AgentMail.Lib.Search
import AgentMail.Pattern.Basic

open Pattern (Str byteLen trim)

namespace Retention

-- The slice `&s[n..]`, which panics if `n` is not on a character boundary.
def sliceFrom : Str → Nat → Option Str
  | s, 0          => some s
  | [], _ + 1     => none
  | c :: s, n + 1 => if c.utf8Size ≤ n + 1 then sliceFrom s (n + 1 - c.utf8Size) else none

-- The byte position of the first occurrence.
def find (s segment : Str) : Option Nat :=
  (Search.find segment s).map fun i => byteLen (s.take i)

-- The loop over the segments from the one at `i` on, where the last one is at `last`.
def matchSegments (last i : Nat) (currentName : Str) : List Str → Option Bool
  | [] => some true
  | segment :: segments =>
    if i = 0 then
      if ¬segment.isPrefixOf currentName then
        some false
      else do
        let currentName ← sliceFrom currentName (byteLen segment)
        matchSegments last (i + 1) currentName segments
    else if i = last then
      if ¬segment.isSuffixOf currentName then
        some false
      else
        matchSegments last (i + 1) currentName segments
    else if segment = [] then
      matchSegments last (i + 1) currentName segments
    else
      match find currentName segment with
      | some pos => do
        let currentName ← sliceFrom currentName (pos + byteLen segment)
        matchSegments last (i + 1) currentName segments
      | none => some false

def wildcardMatch (pattern name : Str) : Option Bool :=
  if '*' ∉ pattern then
    some (pattern = name)
  else
    let segments := pattern.splitOn '*'
    if segments.length = 2 ∧ segments[0]? = some [] ∧ segments[1]? = some [] then
      some true
    else
      matchSegments (segments.length - 1) 0 name segments

def shouldIgnore (name : Str) : List Str → Option Bool
  | [] => some false
  | pattern :: patterns =>
    let pat := trim pattern
    if pat = [] then
      shouldIgnore name patterns
    else do
      if ← wildcardMatch pat name then
        some true
      else
        shouldIgnore name patterns

end Retention
