import AgentMail.Pattern.Theorems.Overlap

open Wildcard (Item meets Spells)

namespace Pattern

-- A normalized path of at least one component.
def IsPath (path : Str) : Prop :=
  ∀ component ∈ path.splitOn '/', component ≠ []

namespace Globset

-- A segment without metacharacters stands for itself, and other segments for what they match as a
-- glob of their own.
def accepts (gs : Globset) (ci : Bool) (segment component : Str) : Prop :=
  if hasGlobMeta segment then
    ∃ m, gs.build ci segment = some m ∧ m component
  else
    fold ci segment = fold ci component

-- Segments with a meaning of their own. A group or a class that contains a separator has none.
def SelfContained (gs : Globset) (ci : Bool) (segment : Str) : Prop :=
  hasGlobMeta segment → segment = ['*', '*'] ∨
    ∃ m, gs.build ci segment = some m ∧ ∀ text, m text → '/' ∉ text

def segmentItem (segment : Str) : Item Str :=
  if segment = ['*', '*'] then .many else .one segment

def charItem : Char → Item (Option Char)
  | '*' => .many
  | '?' => .one none
  | c   => .one (some c)

def acceptsChar (ci : Bool) : Option Char → Char → Prop
  | none, _   => True
  | some c, d => fold ci [c] = fold ci [d]

-- The documented behaviour of globs with `literal_separator(true)`, as far as it is relied on.
-- Backslashes escape, so the globs that are considered have none.
structure Lawful (gs : Globset) : Prop where
  -- Matching is insensitive to the case of (ASCII) letters if it is built so.
  caseInsensitive : ∀ {glob m s t}, gs.build true glob = some m → fold true s = fold true t →
    m s = m t
  -- Without metacharacters only an unopened group is an error, and the text is matched literally.
  literal_isSome : ∀ {ci glob}, hasGlobMeta glob = false → '\\' ∉ glob →
    ((gs.build ci glob).isSome ↔ '}' ∉ glob)
  literal : ∀ {ci glob m}, hasGlobMeta glob = false → '\\' ∉ glob → gs.build ci glob = some m →
    ∀ text, m text ↔ fold ci glob = fold ci text
  -- A literal separator is required to match a separator, so that a leading segment without
  -- metacharacters is matched by the leading segment of the text.
  literalLead : ∀ {ci lead rest m}, gs.build ci (lead ++ '/' :: rest) = some m → '\\' ∉ lead →
    '/' ∉ lead → hasGlobMeta lead = false → ∀ text, m text → Below ci lead text
  -- If no group or class goes across a separator then a path is matched segment by segment, where
  -- `**` takes any number of components.
  segmentwise : ∀ {ci glob m}, gs.build ci glob = some m → '\\' ∉ glob →
    (∀ segment ∈ glob.splitOn '/', gs.SelfContained ci segment) →
    ∀ path, IsPath path → m path →
      Spells (gs.accepts ci) ((glob.splitOn '/').map segmentItem) (path.splitOn '/')
  -- `*` takes any number of characters, and `?` takes one.
  wildcards : ∀ {ci segment m}, gs.build ci segment = some m →
    (∀ c ∈ segment, c ∉ ['[', ']', '{', '}', '\\', '/']) →
    ∀ text, '/' ∉ text → m text → Spells (acceptsChar ci) (segment.map charItem) text

-- Conversely, where no group or class goes across a separator a path is matched if its components
-- are those that the segments stand for, and a `**` at the end takes at least one of them.
structure Complete (gs : Globset) : Prop where
  segmentwise : ∀ {ci glob m}, gs.build ci glob = some m → '\\' ∉ glob →
    (∀ segment ∈ glob.splitOn '/', gs.SelfContained ci segment) →
    ∀ path, IsPath path → Spells (gs.accepts ci) ((glob.splitOn '/').map segmentItem)
        (if (glob.splitOn '/').getLast? = some ['*', '*'] then (path.splitOn '/').dropLast
          else path.splitOn '/') →
      m path

-- The globs that consist of `*`, `?`, `**` and literal characters only. Groups and classes are
-- rejected.

def charOverlaps (ci : Bool) : Option Char → Option Char → Bool
  | some c, some d => textEq ci [c] [d]
  | _, _           => true

def matchSegment (ci : Bool) (segment component : Str) : Bool :=
  meets (charOverlaps ci) (segment.map charItem) ((component.map some).map .one)

-- A `**` at the end takes at least one component.
def pathItems : List Str → List (Item Str)
  | []                  => []
  | [segment]           => if segment = ['*', '*'] then [.many, .one ['*']] else [.one segment]
  | segment :: segments => segmentItem segment :: pathItems segments

def wildcard : Globset where
  build ci glob :=
    if glob.any fun c => c = '[' || c = '{' || c = '}' || c = '\\' then
      none
    else
      some fun text => meets (matchSegment ci) (pathItems (glob.splitOn '/'))
        ((text.splitOn '/').map .one)

end Globset
end Pattern
