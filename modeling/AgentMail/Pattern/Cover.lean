import AgentMail.Pattern.Theorems.Panic

open Wildcard (Spells)
open Pattern.Globset (segmentItem)

namespace Pattern

variable {gs : Globset} {ci : Bool}

-- The concrete paths that a pattern stands for: literals stand for themselves and for everything
-- below, and globs for what they match.
def Covers (p : CompiledPattern) (path : Str) : Prop :=
  if p.isGlob then
    p.globMatches path = true
  else
    p.norm = path ∨ p.norm = [] ∨ p.norm ++ ['/'] <+: path

instance (p : CompiledPattern) (path : Str) : Decidable (Covers p path) :=
  inferInstanceAs (Decidable (if p.isGlob then _ = true else _ ∨ _ ∨ p.norm ++ ['/'] <+: path))

instance (path : Str) : Decidable (IsPath path) :=
  inferInstanceAs (Decidable (∀ component ∈ path.splitOn '/', component ≠ []))

-- If there is a path that both patterns stand for then the conflict is detected.
def NoMissedConflict (cache : PatternCache gs ci) (left right : Str) : Prop :=
  ∀ path, IsPath path → Covers (.new gs ci left) path → Covers (.new gs ci right) path →
    (patternsOverlap cache left right).fst = some true

-- No group or class of the glob goes across a separator.
def Aligned (gs : Globset) (ci : Bool) (glob : CompiledPattern) : Prop :=
  ∀ segment ∈ glob.norm.splitOn '/', gs.SelfContained ci segment

-- The segments of the glob lead to the literal or below it: the first of them spell its components,
-- and there are components for the others.
def Leads (gs : Globset) (ci : Bool) (glob literal : Str) : Prop :=
  ∃ front rest, glob.splitOn '/' = front ++ rest ∧
    Spells (gs.accepts ci) (front.map segmentItem) (literal.splitOn '/') ∧
    ∀ segment ∈ rest, segment ≠ ['*', '*'] →
      ∃ component, component ≠ [] ∧ '/' ∉ component ∧ gs.accepts ci segment component

-- The glob starts with the directory, matches the literal or leads to it with all of its segments.
def Meets (gs : Globset) (ci : Bool) (literal glob : CompiledPattern) : Prop :=
  Below ci literal.norm glob.norm ∨ glob.globMatches literal.norm ∨
    CompiledPattern.Reaches gs ci glob.norm literal.norm

-- The length of the literal falls into a character of the glob.
def Cuts (ci : Bool) (literal glob : CompiledPattern) : Prop :=
  ci ∧ InsideChar (byteLen literal.norm) glob.norm

-- The pairs of patterns whose conflicts are detected.
def Detected (gs : Globset) (ci : Bool) (left right : CompiledPattern) : Prop :=
  match left.isGlob, right.isGlob with
  | false, false => True
  | false, true  => beside left right
  | true, false  => beside right left
  | true, true   => fold ci left.norm = fold ci right.norm ∨ Aligned gs ci left ∧
    Aligned gs ci right
where
  beside (literal glob : CompiledPattern) : Prop :=
    literal.norm = [] ∨ Meets gs ci literal glob ∧ ¬Cuts ci literal glob ∨
      Aligned gs ci glob ∧ ¬Leads gs ci glob.norm literal.norm

end Pattern
