import AgentMail.Lib.Utf8
import AgentMail.Pattern.Basic
import AgentMail.Pattern.Theorems.Cover

open Pattern

namespace Guard

def containsGlob (s : Str) : Bool :=
  s.contains '*' || s.contains '?' || s.contains '[' || s.contains '{'

-- Lowering the case of all letters (not only of the ASCII ones) is left abstract. It only happens
-- if `core.ignorecase` is set.
def normalizePath (lowercase : Str → Str) (ignorecase : Bool) (path : Str) : Str :=
  let slashed    := path.map fun c => if c = '\\' then '/' else c
  let normalized := joinComponents (slashed.splitOn '/')
  if ignorecase then lowercase normalized else normalized

-- Records are read from the archive, where texts are trimmed and empty patterns are skipped.
structure FileReservationRecord (lowercase : Str → Str) (ignorecase : Bool) where
  pathPattern       : Str
  agentName         : Str
  exclusive         : Bool
  expiresTs         : Str
  normalizedPattern : Str
  hasGlob           : Bool
  trimmed           : trim pathPattern = pathPattern
  nonempty          : pathPattern ≠ []
  normalized        : normalizedPattern = normalizePath lowercase ignorecase pathPattern
  glob              : hasGlob = containsGlob pathPattern

structure GuardConflict where
  path      : Str
  pattern   : Str
  holder    : Str
  expiresTs : Str
  deriving DecidableEq

-- `path.starts_with(dir)`, followed by a separator unless `dir` is the root.
def startsWithDir (path dir : Str) : Bool :=
  dir.isPrefixOf path && (dir.isEmpty || slashAt path (byteLen dir))

section

variable {lowercase : Str → Str} {ignorecase : Bool}

def isForeign (selfAgent : Str) (res : FileReservationRecord lowercase ignorecase) : Bool :=
  res.exclusive && !textEq true res.agentName selfAgent

-- The records with their globs. Records without a valid glob are skipped with a warning.
def activeIndices (gs : Globset) (reservations : List (FileReservationRecord lowercase ignorecase))
    (selfAgent : Str) : List (FileReservationRecord lowercase ignorecase × (Str → Bool)) :=
  (reservations.filter (isForeign selfAgent)).filterMap fun res =>
    (gs.build ignorecase res.normalizedPattern).map (res, ·)

def isPrefixConflict (normalized : Str) (res : FileReservationRecord lowercase ignorecase) : Bool :=
  startsWithDir res.normalizedPattern normalized ||
    (!res.hasGlob && startsWithDir normalized res.normalizedPattern)

-- The set of globs reports the indices of all matching ones in order.
def findConflict (active : List (FileReservationRecord lowercase ignorecase × (Str → Bool)))
    (normalized : Str) : Option (FileReservationRecord lowercase ignorecase) :=
  match active.find? (·.2 normalized) with
  | some (res, _) => some res
  | none          => (active.find? (isPrefixConflict normalized ·.1)).map Prod.fst

def checkPathConflicts (gs : Globset) (paths : List Str)
    (reservations : List (FileReservationRecord lowercase ignorecase)) (selfAgent : Str) :
    List GuardConflict :=
  let active := activeIndices gs reservations selfAgent
  paths.filterMap fun path =>
    (findConflict active (normalizePath lowercase ignorecase path)).map fun res =>
      { path, pattern := res.pathPattern, holder := res.agentName, expiresTs := res.expiresTs }

end

-- The paths that are considered.
structure IsConcrete (path : Str) : Prop where
  literal : hasGlobMeta path = false
  trimmed : trim path = path
  not_root : normalizePattern path ≠ []

section

variable {lowercase : Str → Str} {gs : Globset} (cache : PatternCache gs false)
variable (reservations : List (FileReservationRecord lowercase false)) (selfAgent : Str)

-- The exclusive reservations of other agents that overlap a path.
def blocks (path : Str) (res : FileReservationRecord lowercase false) : Bool :=
  isForeign selfAgent res && (patternsOverlap cache res.pathPattern path).1 = some true

-- The blocked paths are reported in order, and the record that is named blocks the path.
def Faithful (paths : List Str) : Prop :=
  (checkPathConflicts gs paths reservations selfAgent).map GuardConflict.path =
    paths.filter (fun path => reservations.any (blocks cache selfAgent path)) ∧
  ∀ c ∈ checkPathConflicts gs paths reservations selfAgent, ∃ res ∈ reservations,
    blocks cache selfAgent c.path res ∧
      c = { path := c.path, pattern := res.pathPattern, holder := res.agentName,
            expiresTs := res.expiresTs }

end

-- The records that overlap a (normalized) path, but that the guard does not report for it.
inductive Overlooked (gs : Globset) {lowercase : Str → Str} (path : Str)
    (res : FileReservationRecord lowercase false) : Prop
  -- The pattern is no valid glob, which it need not be if it has no metacharacters.
  | invalid (h : gs.build false res.normalizedPattern = none)
  -- The metacharacters of the pattern do not survive its normalization.
  | dissolved (hg : res.hasGlob) (hn : hasGlobMeta res.normalizedPattern = false)
      (h : startsWithDir path res.normalizedPattern) (hp : path ≠ res.normalizedPattern)
  -- The pattern leads to the path with a `**` that takes nothing.
  | unmatched (hg : hasGlobMeta res.normalizedPattern)
      (hm : ∀ m, gs.build false res.normalizedPattern = some m → ¬m path)
      (h : ¬startsWithDir res.normalizedPattern path)

def nul : Char :=
  '\x00'

def pushPath (path : Str) (paths : List Str) : List Str :=
  if path = [] then paths else path :: paths

-- A rename or a copy that is cut short gives the paths that are there.
def parseNameStatusParts : List Str → List Str
  | []              => []
  | status :: parts =>
    match trim status with
    | []             => parseNameStatusParts parts
    | firstChar :: _ =>
      if firstChar = 'R' ∨ firstChar = 'C' then
        match parts with
        | []                  => []
        | [old]               => pushPath old []
        | old :: new :: parts => pushPath old (pushPath new (parseNameStatusParts parts))
      else
        match parts with
        | []            => []
        | path :: parts => pushPath path (parseNameStatusParts parts)

-- It never fails.
def parseNameStatusZ (raw : List UInt8) : List Str :=
  parseNameStatusParts ((Utf8.fromUtf8Lossy raw).splitOn nul)

abbrev PathText : Type :=
  { path : Str // path ≠ [] ∧ nul ∉ path }

abbrev Score : Type :=
  { score : Str // ∀ c ∈ score, c.isDigit }

-- What `git diff --name-status -z` tells about a file.
inductive NameStatus
  | changed (letter : { c : Char // c.isAlpha ∧ c ≠ 'R' ∧ c ≠ 'C' }) (score : Score)
      (path : PathText)
  | renamed (letter : { c : Char // c = 'R' ∨ c = 'C' }) (score : Score)
      (oldPath newPath : PathText)

namespace NameStatus

def fields : NameStatus → List Str
  | changed letter score path            => [letter.val :: score.val, path.val]
  | renamed letter score oldPath newPath => [letter.val :: score.val, oldPath.val, newPath.val]

def paths : NameStatus → List Str
  | changed _ _ path            => [path.val]
  | renamed _ _ oldPath newPath => [oldPath.val, newPath.val]

def joined (entries : List NameStatus) : Str :=
  [nul].intercalate (entries.flatMap fields)

end NameStatus

end Guard
