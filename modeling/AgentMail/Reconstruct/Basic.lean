import AgentMail.Archive.Basic
import AgentMail.Lib.Json
import AgentMail.Lib.RowIds
import AgentMail.Schema.Basic
import AgentMail.Search.Basic
import Mathlib.Data.Char
import Mathlib.Data.List.Lex
import Mathlib.Data.List.Sort

open Archive (parseArchivedMessage)
open Pattern (Str trim)
open Schema (MessageRecipientRow nocase)
open Search (i64?)

namespace Reconstruct

structure ProjectRow where
  id        : Int
  slug      : Str
  humanKey  : Str
  createdAt : Int
  deriving DecidableEq

structure AgentRow where
  id                : Int
  projectId         : Int
  name              : Str
  program           : Str
  model             : Str
  taskDescription   : Str
  inceptionTs       : Int
  lastActiveTs      : Int
  attachmentsPolicy : Str
  contactPolicy     : Str
  deriving DecidableEq

structure MessageRow where
  id             : Int
  projectId      : Int
  senderId       : Int
  threadId       : Option Str
  subject        : Str
  bodyMd         : Str
  importance     : Str
  ackRequired    : Bool
  createdTs      : Int
  recipientsJson : Str
  attachments    : Str
  deriving DecidableEq

structure FileReservationRow where
  id          : Int
  projectId   : Int
  agentId     : Int
  pathPattern : Str
  exclusive   : Bool
  reason      : Str
  createdTs   : Int
  expiresTs   : Int
  releasedTs  : Option Int
  deriving DecidableEq

-- The contents of a file, unless it cannot be read as UTF-8.
abbrev Contents := Option Str

-- A file `messages/{year}/{month}/{name}`.
structure MessageFile where
  year     : Str
  month    : Str
  name     : Str
  contents : Contents

def MessageFile.path (file : MessageFile) : List Str :=
  [file.year, file.month, file.name]

-- A directory `agents/{name}`, with or without a profile.
structure AgentDir where
  name    : Str
  profile : Option Contents

structure ReservationFile where
  name     : Str
  contents : Contents

-- What `read_dir` finds in a directory `projects/{slug}`, less what is neither a real file nor a
-- real directory.
structure ProjectDir where
  slug         : Str
  metadata     : Option Contents
  agents       : List AgentDir
  reservations : List ReservationFile
  messages     : List MessageFile
  nodup        : (messages.map MessageFile.path).Nodup

structure Archive where
  projects : List ProjectDir
  nodup    : (projects.map ProjectDir.slug).Nodup

inductive DbError
  | read
  | text (e : Archive.ReconstructError)
  | insertMessage
  | insertFileReservation (file : ReservationFile)
  | noProjectId (slug : Str)
  | noAgentId (projectId : Int) (name : Str)

inductive Warning
  | missingMetadata (slug : Str)
  | unreadableMetadata (slug : Str)
  | malformedMetadata (slug : Str)
  | missingHumanKey (slug : Str)
  | relativeHumanKey (slug : Str) (humanKey : Str)
  | slugMismatch (slug metadataSlug : Str)
  | unreadableProfile (name : Str)
  | malformedProfile (name : Str)
  | unreadableReservation (file : ReservationFile)
  | malformedReservation (file : ReservationFile)
  | missingPathPattern (file : ReservationFile)
  | failedMessage (file : MessageFile) (e : DbError)
  | duplicateCanonicalMessage (messageId : Int) (file : MessageFile)
  | skippedDuplicates (files ids : Nat) (sampleIds : List Int)
  | sanitizedThreadId (raw : Str) (file : MessageFile)

structure ReconstructStats where
  projects                       : Nat
  agents                         : Nat
  messages                       : Nat
  recipients                     : Nat
  duplicateCanonicalMessageFiles : Nat
  duplicateCanonicalMessageIds   : Nat
  parseErrors                    : Nat
  warnings                       : List Warning
  duplicateCanonicalIdSet        : List Int

def ReconstructStats.default : ReconstructStats :=
  ⟨0, 0, 0, 0, 0, 0, 0, [], []⟩

def duplicateCanonicalWarningSampleLimit : Nat := 5

def ReconstructStats.warn (stats : ReconstructStats) (w : Warning) : ReconstructStats :=
  { stats with warnings := stats.warnings ++ [w] }

def ReconstructStats.parseError (stats : ReconstructStats) (w : Warning) : ReconstructStats :=
  { stats.warn w with parseErrors := stats.parseErrors + 1 }

def ReconstructStats.recordDuplicateCanonicalMessage (stats : ReconstructStats) (messageId : Int)
    (file : MessageFile) : ReconstructStats :=
  let stats := { stats with
    duplicateCanonicalMessageFiles := stats.duplicateCanonicalMessageFiles + 1 }
  let stats :=
    if messageId ∈ stats.duplicateCanonicalIdSet then stats
    else { stats with
      duplicateCanonicalIdSet      := stats.duplicateCanonicalIdSet.orderedInsert (· ≤ ·) messageId
      duplicateCanonicalMessageIds := stats.duplicateCanonicalMessageIds + 1 }
  if stats.duplicateCanonicalMessageFiles ≤ duplicateCanonicalWarningSampleLimit then
    stats.warn (.duplicateCanonicalMessage messageId file)
  else
    stats

def ReconstructStats.finalizeDuplicateWarnings (stats : ReconstructStats) : ReconstructStats :=
  if stats.duplicateCanonicalMessageFiles ≤ duplicateCanonicalWarningSampleLimit then stats
  else stats.warn <| .skippedDuplicates stats.duplicateCanonicalMessageFiles
    stats.duplicateCanonicalMessageIds
    (stats.duplicateCanonicalIdSet.take duplicateCanonicalWarningSampleLimit)

-- The database, together with `agent_ids` and `stats`.
structure State where
  projects     : Table ProjectRow.id
  agents       : Table AgentRow.id
  messages     : Table MessageRow.id
  recipients   : Table MessageRecipientRow.key
  reservations : Table FileReservationRow.id
  agentIds     : Int × Str → Option Int
  stats        : ReconstructStats

def State.empty : State where
  projects     := .empty
  agents       := .empty
  messages     := .empty
  recipients   := .empty
  reservations := .empty
  agentIds _   := none
  stats        := .default

-- The crates `serde_json` and `chrono`, as far as they are used, and the time.
structure Env where
  serde       : Archive.Serde Json
  toString    : Json → Str
  isoToMicros : Str → Option Int
  nowMicros   : Int

section

def jsonStr (value : Json) (key : String) : Option Str :=
  (value.get? key.toList).bind Json.asStr

def normalizedArchiveAgentName (raw : Option Str) : Option Str :=
  (raw.map trim).filter (· ≠ [])

def jsonStrArray (value : Json) (key : String) : List Str :=
  match value.get? key.toList with
  | some (.array values) => ((values.filterMap Json.asStr).map trim).filter (· ≠ [])
  | some (.string s)     => (normalizedArchiveAgentName (some s)).toList
  | _                    => []

def parseTsFromJson (env : Env) (value : Json) (key : String) : Option Int :=
  match value.get? key.toList with
  | some (.number n) => n.asI64
  | some (.string s) => if trim s = [] then none else (i64? (trim s)).or (env.isoToMicros (trim s))
  | _                => none

-- `Path::extension` of the name of a file.
def extension (name : Str) : Option Str :=
  if name = ['.', '.'] ∨ '.' ∉ name.tail then none
    else some (name.reverse.takeWhile (· ≠ '.')).reverse

def isAbsolute (path : Str) : Bool :=
  path.head? = some '/'

def sanitizeReconstructedThreadId (raw : Str) : Option Str :=
  let sanitized :=
    ((trim raw).filter fun c => c.isAlphanum || c = '.' || c = '_' || c = '-').take 128
  match sanitized with
  | []     => none
  | c :: _ => if c.isAlphanum then some sanitized else none

def encodeRecipientsJson (env : Env) (toNames ccNames bccNames : List Str) : Str :=
  let names (values : List Str) := Json.array (values.map .string)
  env.toString <| .object
    [("to".toList, names toNames), ("cc".toList, names ccNames), ("bcc".toList, names bccNames)]

def canonicalId (msg : Json) : Option Int :=
  ((msg.get? "id".toList).bind Json.asI64).filter (0 < ·)

end

section

variable {α : Type}

def maxRowid : Int := 2 ^ 63 - 1

def maxId {id : α → Int} (table : Table id) : Int :=
  (table.rows.map id).foldl max 0

-- `INSERT OR REPLACE INTO ..`
def insertOrReplace {id : α → Int} (table : Table id) (row : α) : Table id :=
  (table.delete (id · = id row)).insertOrIgnore row

-- `INSERT INTO ..` into a table where rows may have been inserted with any id.
def insertWithoutId {id : α → Int} (table : Table id) (row : Int → α) : Option (Table id × Int) :=
  (RowIds.next maxRowid (maxId table)).map fun i => (table.insertOrIgnore (row i), i)

end

section

variable (env : Env)

def messageIdExists (s : State) (messageId : Int) : Bool :=
  (s.messages.get? messageId).isSome

def agentMatches (projectId : Int) (name : Str) (agent : AgentRow) : Bool :=
  agent.projectId = projectId ∧ nocase agent.name = nocase name

-- `query_last_insert_or_existing_id_composite`
def queryAgentId (s : State) (projectId : Int) (name : Str) : Except DbError Int :=
  match s.agents.rows.find? (agentMatches projectId name) with
  | some agent => .ok agent.id
  | none       => .error (.noAgentId projectId name)

-- The ids of projects and agents are never given, so that the greatest is the number of rows.
def insertOrIgnoreAgent (s : State) (row : Int → AgentRow) : State :=
  let row := row (maxId s.agents + 1)
  if s.agents.rows.any (agentMatches row.projectId row.name) then s
  else { s with agents := s.agents.insertOrIgnore row }

def State.rememberAgent (s : State) (projectId : Int) (name : Str) (id : Int) : State :=
  { s with agentIds := Function.update s.agentIds (projectId, name) (some id) }

def placeholderAgent (projectId : Int) (name : Str) (id : Int) : AgentRow where
  id                := id
  projectId         := projectId
  name              := name
  program           := "unknown".toList
  model             := "unknown".toList
  taskDescription   := []
  inceptionTs       := env.nowMicros
  lastActiveTs      := env.nowMicros
  attachmentsPolicy := "auto".toList
  contactPolicy     := "auto".toList

def ensureAgentExists (projectId : Int) (name : Str) (s : State) : Except DbError (State × Int) :=
  match s.agentIds (projectId, name) with
  | some id => .ok (s, id)
  | none    => do
    let s := insertOrIgnoreAgent s (placeholderAgent env projectId name)
    let id ← queryAgentId s projectId name
    return (s.rememberAgent projectId name id, id)

def insertRecipient (messageId agentId : Int) (kind : String) (s : State) : State :=
  { s with
    recipients := s.recipients.insertOrIgnore ⟨messageId, agentId, kind.toList⟩
    stats      := { s.stats with recipients := s.stats.recipients + 1 } }

def insertRecipients (projectId messageId : Int) (kind : String) (names : List Str) (s : State) :
    Except DbError State :=
  names.foldlM (fun s name => do
    let (s, agentId) ← ensureAgentExists env projectId name s
    return insertRecipient messageId agentId kind s) s

def insertAllRecipients (projectId messageId : Int) (msg : Json) (s : State) :
    Except DbError State := do
  let s ← insertRecipients env projectId messageId "to" (jsonStrArray msg "to") s
  let s ← insertRecipients env projectId messageId "cc" (jsonStrArray msg "cc") s
  insertRecipients env projectId messageId "bcc" (jsonStrArray msg "bcc") s

def State.warn (s : State) (w : Warning) : State :=
  { s with stats := s.stats.warn w }

def State.parseError (s : State) (w : Warning) : State :=
  { s with stats := s.stats.parseError w }

def messageRow (msg : Json) (bodyMd : Str) (projectId senderId : Int) (id : Int) : MessageRow where
  id             := id
  projectId      := projectId
  senderId       := senderId
  threadId       := (jsonStr msg "thread_id").bind sanitizeReconstructedThreadId
  subject        := (jsonStr msg "subject").getD []
  bodyMd         := bodyMd
  importance     := (jsonStr msg "importance").getD "normal".toList
  ackRequired    := ((msg.get? "ack_required".toList).bind Json.asBool).getD false
  createdTs      :=
    ((parseTsFromJson env msg "created_ts").or (parseTsFromJson env msg "created")).getD
      env.nowMicros
  recipientsJson :=
    encodeRecipientsJson env (jsonStrArray msg "to") (jsonStrArray msg "cc")
      (jsonStrArray msg "bcc")
  attachments    := ((msg.get? "attachments".toList).map env.toString).getD "[]".toList

-- The `INSERT`s of `parse_and_insert_message`.
def insertMessage (row : Int → MessageRow) (canonicalId : Option Int) (s : State) :
    Option (State × Int) :=
  match canonicalId with
  | some cid => some ({ s with messages := insertOrReplace s.messages (row cid) }, cid)
  | none     => (insertWithoutId s.messages row).map fun (messages, id) => ({ s with messages }, id)

def warnSanitizedThreadId (msg : Json) (file : MessageFile) (s : State) : State :=
  match jsonStr msg "thread_id" with
  | none     => s
  | some raw =>
    if sanitizeReconstructedThreadId raw = some raw then s else s.warn (.sanitizedThreadId raw file)

-- `parse_and_insert_message` behind the parser. An error leaves what was inserted so far.
def insertParsedMessage (file : MessageFile) (msg : Json) (bodyMd : Str) (projectId : Int)
    (s : State) : State × Option DbError :=
  let senderName := (normalizedArchiveAgentName
    (((jsonStr msg "from").or (jsonStr msg "sender")).or (jsonStr msg "from_agent"))).getD
      "unknown".toList
  match ensureAgentExists env projectId senderName s with
  | .error e          => (s, some e)
  | .ok (s, senderId) =>
    match (canonicalId msg).filter (messageIdExists s) with
    | some cid => ({ s with stats := s.stats.recordDuplicateCanonicalMessage cid file }, none)
    | none     =>
      let s := warnSanitizedThreadId msg file s
      match insertMessage (messageRow env msg bodyMd projectId senderId) (canonicalId msg) s with
      | none                => (s, some .insertMessage)
      | some (s, messageId) =>
        let s := { s with stats := { s.stats with messages := s.stats.messages + 1 } }
        match insertAllRecipients env projectId messageId msg s with
        | .error e => (s, some e)
        | .ok s    => (s, none)

def parseAndInsertMessage (file : MessageFile) (projectId : Int) (s : State) :
    State × Option DbError :=
  match file.contents with
  | none         => (s, some .read)
  | some content =>
    match parseArchivedMessage env.serde content with
    | .error e          => (s, some (.text e))
    | .ok (msg, bodyMd) => insertParsedMessage env file msg bodyMd projectId s

def ProjectDir.messageFiles (dir : ProjectDir) : List MessageFile :=
  (dir.messages.filter fun file => extension file.name = some "md".toList).insertionSort
    fun f g => f.path ≤ g.path

def visitMessage (projectId : Int) (s : State) (file : MessageFile) : State :=
  match parseAndInsertMessage env file projectId s with
  | (s, none)   => s
  | (s, some e) => s.parseError (.failedMessage file e)

def discoverMessages (dir : ProjectDir) (projectId : Int) (s : State) : State :=
  dir.messageFiles.foldl (visitMessage env projectId) s

def syntheticProjectPlaceholderHumanKey (slug : Str) : Str :=
  '/' :: slug

def nonemptyStr (value : Json) (key : String) : Option Str :=
  ((jsonStr value key).map trim).filter (· ≠ [])

def readProjectHumanKey (dir : ProjectDir) (stats : ReconstructStats) : Str × ReconstructStats :=
  let fallback := syntheticProjectPlaceholderHumanKey dir.slug
  match dir.metadata with
  | none                 => (fallback, stats.warn (.missingMetadata dir.slug))
  | some none            => (fallback, stats.parseError (.unreadableMetadata dir.slug))
  | some (some metadata) =>
    match env.serde.fromStr metadata with
    | none          => (fallback, stats.parseError (.malformedMetadata dir.slug))
    | some metadata =>
      match nonemptyStr metadata "human_key" with
      | none          => (fallback, stats.parseError (.missingHumanKey dir.slug))
      | some humanKey =>
        if isAbsolute humanKey then
          match nonemptyStr metadata "slug" with
          | none              => (humanKey, stats)
          | some metadataSlug =>
            if metadataSlug = dir.slug then (humanKey, stats)
            else (humanKey, stats.warn (.slugMismatch dir.slug metadataSlug))
        else
          (fallback, stats.parseError (.relativeHumanKey dir.slug humanKey))

def profileAgent (profile : Json) (projectId : Int) (name : Str) (id : Int) : AgentRow :=
  let inceptionTs :=
    (parseTsFromJson env profile "inception_ts").or (parseTsFromJson env profile "registered_ts")
  let lastActiveTs :=
    (parseTsFromJson env profile "last_active_ts").getD (inceptionTs.getD env.nowMicros)
  { id                := id
    projectId         := projectId
    name              := name
    program           := (jsonStr profile "program").getD "unknown".toList
    model             := (jsonStr profile "model").getD "unknown".toList
    taskDescription   := (jsonStr profile "task_description").getD []
    inceptionTs       := inceptionTs.getD lastActiveTs
    lastActiveTs      := lastActiveTs
    attachmentsPolicy := (jsonStr profile "attachments_policy").getD "auto".toList
    contactPolicy     := (jsonStr profile "contact_policy").getD "auto".toList }

-- The body of the loop of `discover_agents`.
def discoverAgent (projectId : Int) (s : State) (dir : AgentDir) : Except DbError State :=
  match dir.profile with
  | none                => .ok s
  | some none           => .ok (s.parseError (.unreadableProfile dir.name))
  | some (some profile) =>
    match env.serde.fromStr profile with
    | none         => .ok (s.parseError (.malformedProfile dir.name))
    | some profile => do
      let s := insertOrIgnoreAgent s (profileAgent env profile projectId dir.name)
      let id ← queryAgentId s projectId dir.name
      let s := s.rememberAgent projectId dir.name id
      return { s with stats := { s.stats with agents := s.stats.agents + 1 } }

-- A reservation without its id, the project and the agent.
structure ArchivedFileReservation where
  reservationId : Option Int
  agentName     : Str
  pathPattern   : Str
  exclusive     : Bool
  reason        : Str
  createdTs     : Int
  expiresTs     : Int
  releasedTs    : Option Int

def parseArchivedFileReservation (file : ReservationFile) :
    Except Warning ArchivedFileReservation :=
  match file.contents with
  | none      => .error (.unreadableReservation file)
  | some data =>
    match env.serde.fromStr data with
    | none             => .error (.malformedReservation file)
    | some reservation =>
      let pathPattern := (jsonStr reservation "path_pattern").or (jsonStr reservation "path")
      match (pathPattern.map trim).filter (· ≠ []) with
      | none             => .error (.missingPathPattern file)
      | some pathPattern =>
        let exclusive := (reservation.get? "exclusive".toList).bind fun value =>
          value.asBool.or (value.asI64.map (decide <| · ≠ 0))
        let createdTs := (parseTsFromJson env reservation "created_ts").getD env.nowMicros
        .ok
          { reservationId := canonicalId reservation
            agentName     :=
              (normalizedArchiveAgentName (jsonStr reservation "agent")).getD "unknown".toList
            pathPattern   := pathPattern
            exclusive     := exclusive.getD true
            reason        := (jsonStr reservation "reason").getD []
            createdTs     := createdTs
            expiresTs     := (parseTsFromJson env reservation "expires_ts").getD createdTs
            releasedTs    := parseTsFromJson env reservation "released_ts" }

def ArchivedFileReservation.row (reservation : ArchivedFileReservation) (projectId agentId : Int)
    (id : Int) : FileReservationRow where
  id          := id
  projectId   := projectId
  agentId     := agentId
  pathPattern := reservation.pathPattern
  exclusive   := reservation.exclusive
  reason      := reservation.reason
  createdTs   := reservation.createdTs
  expiresTs   := reservation.expiresTs
  releasedTs  := reservation.releasedTs

-- The `INSERT`s of `insert_archived_file_reservation`.
def insertReservation (row : Int → FileReservationRow) (reservationId : Option Int)
    (file : ReservationFile) (s : State) : Except DbError State :=
  match reservationId with
  | some id => .ok { s with reservations := insertOrReplace s.reservations (row id) }
  | none    =>
    match insertWithoutId s.reservations row with
    | some (reservations, _) => .ok { s with reservations }
    | none                   => .error (.insertFileReservation file)

def insertArchivedFileReservation (projectId : Int) (reservation : ArchivedFileReservation)
    (file : ReservationFile) (s : State) : Except DbError State := do
  let (s, agentId) ← ensureAgentExists env projectId reservation.agentName s
  insertReservation (reservation.row projectId agentId) reservation.reservationId file s

def discoverFileReservation (projectId : Int) (s : State) (file : ReservationFile) :
    Except DbError State :=
  match parseArchivedFileReservation env file with
  | .error w        => .ok (s.parseError w)
  | .ok reservation => insertArchivedFileReservation env projectId reservation file s

def ProjectDir.reservationFiles (dir : ProjectDir) : List ReservationFile :=
  (dir.reservations.filter fun file => extension file.name = some "json".toList).insertionSort
    fun f g => f.name ≤ g.name

-- The slug is unique.
def insertOrIgnoreProject (s : State) (slug humanKey : Str) : State :=
  if s.projects.rows.any (·.slug = slug) then s
  else { s with
    projects := s.projects.insertOrIgnore ⟨maxId s.projects + 1, slug, humanKey, env.nowMicros⟩ }

-- `query_last_insert_or_existing_id`
def queryProjectId (s : State) (slug : Str) : Except DbError Int :=
  match s.projects.rows.find? (·.slug = slug) with
  | some project => .ok project.id
  | none         => .error (.noProjectId slug)

def insertProject (s : State) (dir : ProjectDir) : Except DbError (State × Int) := do
  let (humanKey, stats) := readProjectHumanKey env dir s.stats
  let s := insertOrIgnoreProject env { s with stats } dir.slug humanKey
  let projectId ← queryProjectId s dir.slug
  return ({ s with stats := { s.stats with projects := s.stats.projects + 1 } }, projectId)

-- The body of the loop of `reconstruct_from_archive`.
def reconstructProject (s : State) (dir : ProjectDir) : Except DbError State := do
  let (s, projectId) ← insertProject env s dir
  let s ← dir.agents.foldlM (discoverAgent env projectId) s
  let s ← dir.reservationFiles.foldlM (discoverFileReservation env projectId) s
  return discoverMessages env dir projectId s

def Archive.projectDirs (archive : Archive) : List ProjectDir :=
  archive.projects.insertionSort fun d e => d.slug ≤ e.slug

-- An error rolls the transaction back.
def reconstructFromArchive (archive : Archive) : Except DbError State := do
  let s ← archive.projectDirs.foldlM (reconstructProject env) .empty
  return { s with stats := s.stats.finalizeDuplicateWarnings }

abbrev ArchivedFile := ProjectDir × MessageFile

-- The frontmatter and the body, if the frontmatter is valid.
def messageOf (file : MessageFile) : Option (Json × Str) :=
  file.contents.bind fun content => (parseArchivedMessage env.serde content).toOption

-- The positive id in the frontmatter.
def ArchivedFile.canonicalId (file : ArchivedFile) : Option Int :=
  (messageOf env file.snd).bind fun message => Reconstruct.canonicalId message.fst

def ProjectDir.files (dir : ProjectDir) : List ArchivedFile :=
  (dir.messageFiles.filter fun file => (messageOf env file).isSome).map (dir, ·)

-- The message files of all projects in the order in which they are visited.
def Archive.files (archive : Archive) : List ArchivedFile :=
  archive.projectDirs.flatMap (ProjectDir.files env)

def Carries (db : State) (row : MessageRow) (file : ArchivedFile) : Prop :=
  (∃ project ∈ db.projects.rows, project.slug = file.fst.slug ∧ row.projectId = project.id) ∧
    ∃ msg, messageOf env file.snd = some (msg, row.bodyMd) ∧
      row.subject = (jsonStr msg "subject").getD []

-- Every row comes from a file, such that no message is missing.
def NoMessageLost (archive : Archive) (db : State) : Prop :=
  ∃ source : Int → ArchivedFile,
    (∀ row ∈ db.messages.rows, Carries env db row (source row.id)) ∧
      RowIds.Attributed (ArchivedFile.canonicalId env) (archive.files env)
        (db.messages.rows.map MessageRow.id) source

end

end Reconstruct
