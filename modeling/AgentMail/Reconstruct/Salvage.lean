import AgentMail.Reconstruct.Basic

open Pattern (Str trim)

namespace Reconstruct

-- A project of the salvage database. Columns that are missing or cannot be decoded have no value.
structure SalvagedProject where
  id        : Int
  slug      : Option Str
  humanKey  : Option Str
  createdAt : Option Int
  deriving DecidableEq

def mergeSalvagedCreatedAt (current salvaged : Int) : Int :=
  if salvaged ≤ 0 then current else if current ≤ 0 then salvaged else min current salvaged

-- `Path::file_name`
def fileName (path : Str) : Option Str :=
  ((path.splitOnP (· = '/')).filter fun c => c ≠ [] ∧ c ≠ ['.']).getLast?.filter (· ≠ ['.', '.'])

def placeholderHumanKeyForHumanKey (humanKey : Str) : Option Str :=
  if trim humanKey = [] then none
  else ((fileName (trim humanKey)).map trim).bind fun basename =>
    if basename = [] then none else some ('/' :: basename)

def normalizedProjectMatchToken (value : Str) : Option Str :=
  let normalized := (value.filter Char.isAlphanum).map Char.toLower
  if normalized = [] then none else some normalized

def projectBasenameTokenForHumanKey (humanKey : Str) : Option Str :=
  if trim humanKey = [] then none
  else (fileName (trim humanKey)).bind normalizedProjectMatchToken

def isSyntheticProjectPlaceholder (slug humanKey : Str) : Bool :=
  trim humanKey = [] ∨ trim humanKey = syntheticProjectPlaceholderHumanKey slug

-- The variables of `merge_salvaged_database` that concern projects.
structure Merge where
  projects         : Table ProjectRow.id
  projectIdMap     : List (Int × Int)
  salvagedProjects : Nat
  emptySlugs       : Nat

def Merge.ofTarget (target : Table ProjectRow.id) : Merge :=
  ⟨target, [], 0, 0⟩

-- `SELECT .. FROM projects ORDER BY id`
def projectRows (projects : Table ProjectRow.id) : List ProjectRow :=
  projects.rows.insertionSort fun a b => a.id ≤ b.id

-- `SELECT id FROM projects WHERE ..`, where the rows are found in the order of their ids.
def queryProject (projects : Table ProjectRow.id) (p : ProjectRow → Bool) : Option ProjectRow :=
  (projectRows projects).find? p

-- The row that `enrich_existing_project_from_salvage` writes.
def ProjectRow.enrich (row : ProjectRow) (slug humanKey : Str) (createdAt : Int) : ProjectRow :=
  let isPlaceholder : Bool :=
    trim row.humanKey = [] ∨ row.humanKey = syntheticProjectPlaceholderHumanKey row.slug
  { id        := row.id
    slug      := if isPlaceholder ∧ trim slug ≠ [] then trim slug else row.slug
    humanKey  := if isPlaceholder ∧ isAbsolute (trim humanKey) then trim humanKey else row.humanKey
    createdAt := mergeSalvagedCreatedAt row.createdAt createdAt }

def enrichExistingProject (projects : Table ProjectRow.id) (projectId : Int) (slug humanKey : Str)
    (createdAt : Int) : Table ProjectRow.id :=
  projects.update (·.id = projectId) (·.enrich slug humanKey createdAt) fun _ => rfl

def SalvagedProject.trimmedSlug (row : SalvagedProject) : Str :=
  trim (row.slug.getD [])

def SalvagedProject.humanKeyOrPlaceholder (row : SalvagedProject) : Str :=
  row.humanKey.getD (syntheticProjectPlaceholderHumanKey row.trimmedSlug)

-- The project with the slug, or else the one with the placeholder for the path.
def existingProject (projects : Table ProjectRow.id) (row : SalvagedProject) : Option ProjectRow :=
  (queryProject projects (·.slug = row.trimmedSlug)).or
    ((placeholderHumanKeyForHumanKey row.humanKeyOrPlaceholder).bind fun placeholder =>
      queryProject projects (·.humanKey = placeholder))

section

variable (nowMicros : Int)

-- The body of the loop over the projects.
def mergeProject (s : Merge) (row : SalvagedProject) : Merge :=
  let createdAt := row.createdAt.getD nowMicros
  if row.id ≤ 0 then s
  else if row.trimmedSlug = [] then { s with emptySlugs := s.emptySlugs + 1 }
  else
    match existingProject s.projects row with
    | some project =>
      { s with
        projects     :=
          enrichExistingProject s.projects project.id row.trimmedSlug row.humanKeyOrPlaceholder
            createdAt
        projectIdMap := s.projectIdMap ++ [(row.id, project.id)] }
    | none =>
      let id := maxId s.projects + 1
      { s with
        projects         :=
          s.projects.insertOrIgnore ⟨id, row.trimmedSlug, row.humanKeyOrPlaceholder, createdAt⟩
        projectIdMap     := s.projectIdMap ++ [(row.id, id)]
        salvagedProjects := s.salvagedProjects + 1 }

end

section

variable (rows : List ProjectRow)

def placeholderRows : List (Str × ProjectRow) :=
  rows.filterMap fun row =>
    if 0 < row.id ∧ isSyntheticProjectPlaceholder row.slug row.humanKey then
      (normalizedProjectMatchToken row.slug).map (·, row)
    else
      none

def canonicalRows : List (Str × ProjectRow) :=
  rows.filterMap fun row =>
    if 0 < row.id ∧ ¬isSyntheticProjectPlaceholder row.slug row.humanKey ∧
      isAbsolute (trim row.humanKey) then
      (projectBasenameTokenForHumanKey row.humanKey).map (·, row)
    else
      none

def countToken (token : Str) (identities : List (Str × ProjectRow)) : Nat :=
  identities.countP (·.fst = token)

def placeholderByToken (token : Str) : Option ProjectRow :=
  ((placeholderRows rows).find? (·.fst = token)).map Prod.snd

-- `UPDATE projects SET slug = ?, human_key = ?, created_at = ? WHERE id = ?`
def ProjectRow.promote (placeholder canonical : ProjectRow) : ProjectRow where
  id        := placeholder.id
  slug      := canonical.slug
  humanKey  := canonical.humanKey
  createdAt := mergeSalvagedCreatedAt placeholder.createdAt canonical.createdAt

def replaceId (canonical placeholder id : Int) : Int :=
  if id = canonical then placeholder else id

-- The body of the loop of `reconcile_placeholder_project_duplicates_after_salvage`.
def reconcileProject (s : Merge × (Str → Option ProjectRow)) (identity : Str × ProjectRow) :
    Merge × (Str → Option ProjectRow) :=
  let (s, byToken) := s
  let (token, canonical) := identity
  if countToken token (placeholderRows rows) ≠ 1 ∨ countToken token (canonicalRows rows) ≠ 1 then
    (s, byToken)
  else
    match byToken token with
    | none             => (s, byToken)
    | some placeholder =>
      if placeholder.id = canonical.id then (s, byToken)
      else
        let projects := s.projects.delete (·.id = canonical.id)
        let promoted := placeholder.promote canonical
        let s := { s with
          projects         := projects.update (·.id = placeholder.id)
            (fun row => { promoted with id := row.id }) fun _ => rfl
          projectIdMap     := s.projectIdMap.map fun (a, id) =>
            (a, replaceId canonical.id placeholder.id id)
          salvagedProjects := s.salvagedProjects - 1 }
        (s, Function.update byToken token (some promoted))

end

def sortedCanonicalRows (rows : List ProjectRow) : List (Str × ProjectRow) :=
  (canonicalRows rows).insertionSort fun a b => a.snd.createdAt ≤ b.snd.createdAt

-- `reconcile_placeholder_project_duplicates_after_salvage`
def reconcile (s : Merge) : Merge :=
  let rows := projectRows s.projects
  ((sortedCanonicalRows rows).foldl (reconcileProject rows) (s, placeholderByToken rows)).fst

section

variable (nowMicros : Int) (target : Table ProjectRow.id) (salvage : Table SalvagedProject.id)

def salvagedRows : List SalvagedProject :=
  salvage.rows.insertionSort fun a b => a.id ≤ b.id

-- `merge_salvaged_database`, as far as it merges the projects.
def mergeSalvagedProjects : Merge :=
  reconcile ((salvagedRows salvage).foldl (mergeProject nowMicros) (.ofTarget target))

end

-- Different projects are mapped to different projects.
def Merge.Separate (s : Merge) : Prop :=
  ∀ a ∈ s.projectIdMap, ∀ b ∈ s.projectIdMap, a.snd = b.snd → a.fst = b.fst

-- The projects of the salvage database have different slugs and different absolute paths.
structure DistinctProjects (salvage : Table SalvagedProject.id) : Prop where
  slugs     : (salvage.rows.map SalvagedProject.slug).Nodup
  humanKeys : (salvage.rows.map SalvagedProject.humanKey).Nodup
  absolute  : ∀ row ∈ salvage.rows, row.slug.isSome ∧ ∃ humanKey ∈ row.humanKey, isAbsolute humanKey

def Merge.targets (s : Merge) : List Int :=
  s.projectIdMap.map Prod.snd

-- A placeholder and the only canonical project with its name, which are taken for the same project.
def Duplicates (rows : List ProjectRow) (placeholder canonical : ProjectRow) : Prop :=
  ∃ token, (token, placeholder) ∈ placeholderRows rows ∧ (token, canonical) ∈ canonicalRows rows ∧
    countToken token (placeholderRows rows) = 1 ∧ countToken token (canonicalRows rows) = 1

-- The other rows are skipped.
def SalvagedProject.Valid (row : SalvagedProject) : Prop :=
  0 < row.id ∧ row.trimmedSlug ≠ []

-- `/` and the name of the directory
def SalvagedProject.placeholder (row : SalvagedProject) : Option Str :=
  placeholderHumanKeyForHumanKey row.humanKeyOrPlaceholder

def ProjectRow.IsPlaceholder (row : ProjectRow) : Prop :=
  trim row.humanKey = [] ∨ row.humanKey = syntheticProjectPlaceholderHumanKey row.slug

def Synthetic (token slug humanKey : Str) : Prop :=
  isSyntheticProjectPlaceholder slug humanKey ∧ normalizedProjectMatchToken slug = some token

def Canonical (token slug humanKey : Str) : Prop :=
  ¬isSyntheticProjectPlaceholder slug humanKey ∧ isAbsolute (trim humanKey) ∧
    projectBasenameTokenForHumanKey humanKey = some token

-- The databases that are reconstructed. Rows are numbered from one.
structure Reconstructed (target : Table ProjectRow.id) : Prop where
  slugs : (target.rows.map ProjectRow.slug).Nodup
  ids   : ∀ project ∈ target.rows, 0 < project.id

section

variable (target : Table ProjectRow.id) (salvage : Table SalvagedProject.id)

-- The slug of the project is in the archive, and not on a placeholder for the directory of another.
def Archived (row : SalvagedProject) : Prop :=
  ∃ project ∈ target.rows, project.slug = row.trimmedSlug ∧
    (project.IsPlaceholder → ∀ other ∈ salvage.rows, other.Valid →
      other.placeholder = some project.humanKey → other = row)

-- The row of the archive has the slug of the project, or else the name of its directory.
def Claims (row : SalvagedProject) (project : ProjectRow) : Prop :=
  project ∈ target.rows ∧ (project.slug = row.trimmedSlug ∨
    ¬Archived target salvage row ∧ row.placeholder = some project.humanKey)

-- The project claims no row but by its slug.
def Settled (row : SalvagedProject) : Prop :=
  Archived target salvage row ∨ ∀ project, ¬Claims target salvage row project

-- The slugs and paths that the row of a project may have: those of the project itself, also in
-- place of a claimed placeholder, or those of another claimed row.
inductive Ends (row : SalvagedProject) : Str → Str → Prop
  | inserted (ha : ¬Archived target salvage row) :
      Ends row row.trimmedSlug row.humanKeyOrPlaceholder
  | renamed {project} (hc : Claims target salvage row project) (hp : project.IsPlaceholder) :
    Ends row row.trimmedSlug (if isAbsolute (trim row.humanKeyOrPlaceholder)
      then trim row.humanKeyOrPlaceholder else project.humanKey)
  | kept {project} (hc : Claims target salvage row project) (hp : ¬project.IsPlaceholder) :
    Ends row project.slug project.humanKey

-- The rows that are there in any case: unclaimed ones of the archive, and those of settled
-- projects.
inductive Fixed : Option SalvagedProject → Str → Str → Prop
  | archived {project} (hp : project ∈ target.rows)
    (hn : ∀ row ∈ salvage.rows, row.Valid → ¬Claims target salvage row project) :
    Fixed none project.slug project.humanKey
  | merged {row slug humanKey} (hr : row ∈ salvage.rows) (hv : row.Valid)
    (hs : Settled target salvage row) (he : Ends target salvage row slug humanKey) :
    Fixed (some row) slug humanKey

-- Another placeholder or another directory has the same name, in which case nothing is reconciled.
def Ambiguous (token : Str) (placeholder canonical : SalvagedProject) : Prop :=
  ∃ owner slug humanKey, Fixed target salvage owner slug humanKey ∧
    (owner ≠ some placeholder ∧ Synthetic token slug humanKey ∨
      owner ≠ some canonical ∧ Canonical token slug humanKey)

-- No project has the slug of a row that a project before it ends with, or the path of this row for
-- its placeholder, and no path has the name of a project that is directly under the root.
structure NoneShared : Prop where
  found : ∀ row ∈ salvage.rows, ∀ next ∈ salvage.rows, row.Valid → next.Valid → row.id < next.id →
    ∀ slug humanKey, Ends target salvage row slug humanKey → slug ≠ next.trimmedSlug ∧
      (¬Archived target salvage next → next.placeholder ≠ some humanKey)
  names : ∀ row ∈ salvage.rows, ∀ other ∈ salvage.rows, row.Valid → other.Valid → row ≠ other →
    ∀ token slug humanKey slug' humanKey',
      Ends target salvage row slug humanKey → Synthetic token slug humanKey →
      Ends target salvage other slug' humanKey' → Canonical token slug' humanKey' →
      Ambiguous target salvage token row other

end

end Reconstruct
