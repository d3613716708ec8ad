import AgentMail.Lib.Json
import AgentMail.Lib.Regex
import AgentMail.Lib.Table
import AgentMail.Pattern.Basic
import Mathlib.Data.List.Sort

open Pattern (Str isWhitespace)
open Regex

namespace Scrub

-- What `(?i)` makes of a class of ASCII characters. Two more characters fold to ASCII letters, the
-- long s and the sign for Kelvin.
def caseless (p : Char → Bool) (c : Char) : Bool :=
  p c || p c.toLower || p c.toUpper || c = Char.ofNat 0x17F && (p 's' || p 'S') ||
    c = Char.ofNat 0x212A && (p 'k' || p 'K')

def oneOf (chars : String) (c : Char) : Bool :=
  chars.toList.contains c

def alnum (others : String) (c : Char) : Bool :=
  c.isAlphanum || oneOf others c

def lit (fold : (Char → Bool) → Char → Bool) (text : String) : Regex Char :=
  text.toList.foldr (fun c => .seq (.cls (fold (· = c)))) .empty

def ghp : Regex Char :=
  .seq (lit caseless "ghp_") (atLeast (caseless (alnum "")) 36)

def githubPat : Regex Char :=
  .seq (lit caseless "github_pat_") (atLeast (caseless (alnum "_")) 20)

def slack : Regex Char :=
  .seq (lit caseless "xox") (.seq (.cls (caseless (oneOf "baprs")))
    (.seq (lit caseless "-") (atLeast (caseless (alnum "-")) 10)))

def anthropic : Regex Char :=
  .seq (lit caseless "sk-ant-") (atLeast (caseless (alnum "-")) 20)

def stripe : Regex Char :=
  .seq (.alt (lit caseless "sk") (.alt (lit caseless "pk") (lit caseless "rk")))
    (.seq (lit caseless "_") (.seq (.alt (lit caseless "live") (lit caseless "test"))
      (.seq (lit caseless "_") (atLeast (caseless (alnum "")) 10))))

def openai : Regex Char :=
  .seq (lit caseless "sk-") (atLeast (caseless (alnum "")) 20)

def bearer : Regex Char :=
  .seq (lit caseless "bearer")
    (.seq (atLeast isWhitespace 1) (atLeast (caseless (alnum "_-./+=")) 16))

def userinfo (c : Char) : Bool :=
  c != '/' && !isWhitespace c && c != '@'

def scheme : Regex Char :=
  .seq (.cls (caseless Char.isLower)) (.star true (caseless (alnum "+.-")))

def urlCredentials : Regex Char :=
  .seq scheme (.seq (lit id "://") (.seq (atLeast userinfo 1)
    (.seq (lit id ":") (.seq (atLeast userinfo 1) (lit id "@")))))

def envReference : Regex Char :=
  .seq (lit id "$") (.seq (.cls (caseless fun c => c.isUpper || c = '_'))
    (.seq (.star true (caseless (alnum "_")))
      (.seq (.alt (lit caseless "SECRET") (.alt (lit caseless "TOKEN")
          (.alt (lit caseless "KEY") (lit caseless "PASSWORD"))))
        (.star true (caseless (alnum "_"))))))

def jwt : Regex Char :=
  .seq (lit id "eyJ") (.seq (atLeast (alnum "_-") 1) (.seq (lit id ".")
    (.seq (atLeast (alnum "_-") 1) (.seq (lit id ".") (atLeast (alnum "_-") 1)))))

def awsAccessKey : Regex Char :=
  .seq (lit id "AKIA") (times (fun c => c.isDigit || c.isUpper) 16)

def azureConnection : Regex Char :=
  .seq (.alt (lit caseless "AccountKey") (lit caseless "SharedAccessKey")) (.seq (lit caseless "=")
    (atLeast (caseless (alnum "+/=")) 20))

def gcpKeyId : Regex Char :=
  .seq (lit id "\"private_key_id\"") (.seq (.star true isWhitespace)
    (.seq (lit id ":") (.seq (.star true isWhitespace)
      (.seq (lit id "\"") (.seq (times (oneOf "abcdef0123456789") 40) (lit id "\""))))))

def googleApiKey : Regex Char :=
  .seq (lit id "AIza") (times (alnum "-_") 35)

def npm : Regex Char :=
  .seq (lit caseless "npm_") (atLeast (caseless (alnum "")) 36)

def upperOrSpace (c : Char) : Bool :=
  c.isUpper || c = ' '

def pemLine (text : String) : Regex Char :=
  .seq (lit id text) (.seq (.star true upperOrSpace) (lit id " PRIVATE KEY-----"))

def pemPrivateKey : Regex Char :=
  .seq (pemLine "-----BEGIN") (.seq (.star false fun _ => true) (pemLine "-----END"))

def gitlab : Regex Char :=
  .seq (lit id "glpat-") (atLeast (alnum "-_") 20)

def secretPatterns : List (Regex Char) :=
  [ghp, githubPat, slack, anthropic, stripe, openai, bearer, urlCredentials, envReference, jwt,
    awsAccessKey, azureConnection, gcpKeyId, googleApiKey, npm, pemPrivateKey, gitlab]

def redacted : Str :=
  '[' :: "REDACTED".toList ++ [']']

-- The crate that matches the patterns is a parameter: `find_iter(..).count()` and `replace_all`.
structure RegexEngine where
  findCount  : Regex Char → Str → Nat
  replaceAll : Regex Char → Str → Str → Str

-- Matches are found from left to right and do not overlap, and the replacement takes the place of
-- each of them. A dollar sign in it would stand for a group.
structure RegexEngine.Lawful (engine : RegexEngine) : Prop where
  cut : ∀ {pattern : Regex Char}, [] ∉ pattern.language → ∀ text, ∃ ts,
    Cut pattern.language text ts ∧ engine.findCount pattern text = ts.countP Token.isHit ∧
    ∀ replacement, '$' ∉ replacement →
      engine.replaceAll pattern text replacement = ts.flatMap (Token.render replacement)

section Text

variable (engine : RegexEngine)

def scrubPattern (acc : Str × Nat) (pattern : Regex Char) : Str × Nat :=
  let n := engine.findCount pattern acc.1
  if n > 0 then (engine.replaceAll pattern acc.1 redacted, acc.2 + n) else acc

def scrubText (input : Str) : Str × Nat :=
  secretPatterns.foldl (scrubPattern engine) (input, 0)

end Text

section Structure

-- `char::to_lowercase`
variable (engine : RegexEngine) (toLowercase : Char → List Char)

def normalizeRedactKey (key : Str) : Str :=
  (key.filter fun c => !isWhitespace c && c != '\x00').flatMap toLowercase

def attachmentRedactKeys : List Str :=
  ["download_url", "headers", "authorization", "signed_url", "bearer_token"].map (·.toList)

def isRedactKey (key : Str) : Bool :=
  (attachmentRedactKeys.map (normalizeRedactKey toLowercase)).contains
    (normalizeRedactKey toLowercase key)

def isEmptyValue : Json → Bool
  | .null          => true
  | .string s      => s.isEmpty
  | .array values  => values.isEmpty
  | .object fields => fields.isEmpty
  | _              => false

mutual

-- The value, the number of secrets and the number of keys that were removed.
def scrubStructure (depth : Nat) (value : Json) : Json × Nat × Nat :=
  if depth > 256 then
    (value, 0, 0)
  else
    match value with
    | .string s =>
      let (s, n) := scrubText engine s
      (.string s, n, 0)
    | .array values =>
      let (values, n, k) := scrubValues depth values
      (.array values, n, k)
    | .object fields =>
      let (fields, n, k) := scrubFields depth fields
      (.object fields, n, k)
    | other => (other, 0, 0)

def scrubValues (depth : Nat) : List Json → List Json × Nat × Nat
  | []              => ([], 0, 0)
  | value :: values =>
    let (value, n, k) := scrubStructure (depth + 1) value
    let (values, m, l) := scrubValues depth values
    (value :: values, n + m, k + l)

def scrubFields (depth : Nat) : List (Str × Json) → List (Str × Json) × Nat × Nat
  | []                     => ([], 0, 0)
  | (key, value) :: fields =>
    let (fields', m, l) := scrubFields depth fields
    if isRedactKey toLowercase key then
      (fields', m, if isEmptyValue value then l else l + 1)
    else
      let (value, n, k) := scrubStructure (depth + 1) value
      ((key, value) :: fields', n + m, k + l)

end

end Structure

section Snapshot

structure MessageRow where
  id          : Int
  subject     : Str
  bodyMd      : Str
  ackRequired : Int
  attachments : Str
  deriving DecidableEq

structure RecipientRow where
  messageId : Int
  agentId   : Int
  kind      : Str
  readTs    : Option Int
  ackTs     : Option Int
  deriving DecidableEq

def RecipientRow.key (row : RecipientRow) : Int × Int :=
  (row.messageId, row.agentId)

-- The tables that are scrubbed, two of which a snapshot can lack. Of the agents, the reservations,
-- their releases and the links there are only the ids.
structure Snapshot where
  agents                  : List Int
  messages                : Table MessageRow.id
  messageRecipients       : Table RecipientRow.key
  fileReservationReleases : Option (List Int)
  fileReservations        : List Int
  agentLinks              : Option (List Int)

inductive ScrubPreset
  | standard
  | strict
  | archive
  deriving DecidableEq

def ScrubPreset.asStr : ScrubPreset → String
  | .standard => "standard"
  | .strict   => "strict"
  | .archive  => "archive"

structure ScrubConfig where
  redactBody            : Bool
  bodyPlaceholder       : Option String
  dropAttachments       : Bool
  scrubSecrets          : Bool
  clearAckState         : Bool
  clearRecipients       : Bool
  clearFileReservations : Bool
  clearAgentLinks       : Bool

def presetConfig : ScrubPreset → ScrubConfig
  | .standard => {
      redactBody            := false
      bodyPlaceholder       := none
      dropAttachments       := false
      scrubSecrets          := true
      clearAckState         := true
      clearRecipients       := true
      clearFileReservations := true
      clearAgentLinks       := true }
  | .strict => {
      redactBody            := true
      bodyPlaceholder       := some "[Message body redacted]"
      dropAttachments       := true
      scrubSecrets          := true
      clearAckState         := true
      clearRecipients       := true
      clearFileReservations := true
      clearAgentLinks       := true }
  | .archive => {
      redactBody            := false
      bodyPlaceholder       := none
      dropAttachments       := false
      scrubSecrets          := false
      clearAckState         := false
      clearRecipients       := false
      clearFileReservations := false
      clearAgentLinks       := false }

-- What is counted for each message.
@[ext]
structure Tally where
  secretsReplaced      : Nat
  attachmentsSanitized : Nat
  bodiesRedacted       : Nat
  attachmentsCleared   : Nat
  deriving DecidableEq

instance : Zero Tally where
  zero := {
    secretsReplaced      := 0
    attachmentsSanitized := 0
    bodiesRedacted       := 0
    attachmentsCleared   := 0 }

instance : Add Tally where
  add t t' := {
    secretsReplaced      := t.secretsReplaced + t'.secretsReplaced
    attachmentsSanitized := t.attachmentsSanitized + t'.attachmentsSanitized
    bodiesRedacted       := t.bodiesRedacted + t'.bodiesRedacted
    attachmentsCleared   := t.attachmentsCleared + t'.attachmentsCleared }

structure ScrubSummary where
  preset                  : String
  pseudonymSalt           : String
  agentsTotal             : Nat
  agentsPseudonymized     : Nat
  ackFlagsCleared         : Nat
  recipientsCleared       : Nat
  fileReservationsRemoved : Nat
  agentLinksRemoved       : Nat
  tally                   : Tally
  deriving DecidableEq

-- The columns of one message that are written.
structure MessageEdit where
  attachments : Option Str
  subject     : Option Str
  bodyMd      : Option Str
  deriving DecidableEq

def MessageEdit.apply (edit : MessageEdit) (row : MessageRow) : MessageRow :=
  { row with
    attachments := edit.attachments.getD row.attachments
    subject     := edit.subject.getD row.subject
    bodyMd      := edit.bodyMd.getD row.bodyMd }

-- `char::to_lowercase`, `serde_json::from_str` and `serde_json::to_string`
variable (engine : RegexEngine) (toLowercase : Char → List Char) (fromStr : Str → Option Json)
  (toString : List Json → Str)

def parseAttachmentsJson (value : Str) : List Json :=
  if value.isEmpty then
    []
  else
    match fromStr value with
    | some (.array values) => values
    | some (.string inner) =>
      match fromStr inner with
      | some (.array values) => values
      | _                    => []
    | _ => []

-- The sanitized attachments, the number of secrets and the number of keys that were removed.
def scrubAttachments (cfg : ScrubConfig) (data : List Json) : List Json × Nat × Nat :=
  if cfg.scrubSecrets && !data.isEmpty then
    match scrubStructure engine toLowercase 0 (.array data) with
    | (.array values, n, k) => (values, n, k)
    | (_, n, k)             => (data, n, k)
  else
    (data, 0, 0)

def redactBody (cfg : ScrubConfig) (body original : Str) : Option Str × Nat :=
  if cfg.redactBody then
    let placeholder := (cfg.bodyPlaceholder.getD "[Message body redacted]").toList
    if original ≠ placeholder then (some placeholder, 1) else (none, 0)
  else
    (if body ≠ original then some body else none, 0)

def scrubMessage (cfg : ScrubConfig) (row : MessageRow) : MessageEdit × Tally :=
  let (subject, subjReplacements) :=
    if cfg.scrubSecrets then scrubText engine row.subject else (row.subject, 0)
  let (body, bodyReplacements) :=
    if cfg.scrubSecrets then scrubText engine row.bodyMd else (row.bodyMd, 0)
  let parsed := parseAttachmentsJson fromStr row.attachments
  let dropped := cfg.dropAttachments && !parsed.isEmpty
  let data := if dropped then [] else parsed
  let (sanitized, attachmentReplacements, keysRemoved) :=
    scrubAttachments engine toLowercase cfg data
  let updated := dropped || sanitized ≠ data || keysRemoved > 0
  let (bodyMd, bodiesRedacted) := redactBody cfg body row.bodyMd
  let edit := {
    attachments := if updated then some (toString sanitized) else none
    subject     := if subject ≠ row.subject then some subject else none
    bodyMd      := bodyMd }
  let tally := {
    secretsReplaced      := subjReplacements + bodyReplacements + attachmentReplacements
    attachmentsSanitized := if updated || attachmentReplacements > 0 then 1 else 0
    bodiesRedacted       := bodiesRedacted
    attachmentsCleared   := if dropped then 1 else 0 }
  (edit, tally)

-- `WHERE id > ? ORDER BY id ASC`
def rowsAfter (messages : Table MessageRow.id) (lastId : Int) : List MessageRow :=
  (messages.rows.filter (lastId < ·.id)).mergeSort (·.id ≤ ·.id)

-- `LIMIT 500`
def page (messages : Table MessageRow.id) (lastId : Int) : List MessageRow :=
  (rowsAfter messages lastId).take 500

abbrev Progress := Table MessageRow.id × Tally

-- The row is the one that was read with its page.
def scrubRow (cfg : ScrubConfig) (progress : Progress) (row : MessageRow) : Progress :=
  let (edit, tally) := scrubMessage engine toLowercase fromStr toString cfg row
  (progress.1.update (·.id = row.id) edit.apply fun _ => rfl, progress.2 + tally)

-- There is no result if the pages do not end.
def scrubPages (cfg : ScrubConfig) : Nat → Int → Progress → Option Progress
  | 0, _, _                       => none
  | fuel + 1, lastId, progress =>
    let messages := page progress.1 lastId
    match messages.getLast? with
    | none      => some progress
    | some last =>
      scrubPages cfg fuel last.id
        (messages.foldl (scrubRow engine toLowercase fromStr toString cfg) progress)

def clearAckState (cfg : ScrubConfig) (snapshot : Snapshot) : Snapshot × Nat :=
  if cfg.clearAckState then
    ({ snapshot with
        messages :=
          snapshot.messages.update (fun _ => true) ({ · with ackRequired := 0 }) fun _ => rfl },
      snapshot.messages.rows.length)
  else
    (snapshot, 0)

def clearRecipients (cfg : ScrubConfig) (snapshot : Snapshot) : Snapshot × Nat :=
  if cfg.clearRecipients then
    let messageRecipients :=
      snapshot.messageRecipients.update (fun _ => true) ({ · with readTs := none, ackTs := none })
        fun _ => rfl
    ({ snapshot with messageRecipients }, snapshot.messageRecipients.rows.length)
  else
    (snapshot, 0)

def clearFileReservations (cfg : ScrubConfig) (snapshot : Snapshot) : Snapshot × Nat :=
  if cfg.clearFileReservations then
    ({ snapshot with
        fileReservationReleases := snapshot.fileReservationReleases.map fun _ => []
        fileReservations        := [] },
      snapshot.fileReservations.length)
  else
    (snapshot, 0)

def clearAgentLinks (cfg : ScrubConfig) (snapshot : Snapshot) : Snapshot × Nat :=
  if cfg.clearAgentLinks then
    ({ snapshot with agentLinks := snapshot.agentLinks.map fun _ => [] },
      (snapshot.agentLinks.getD []).length)
  else
    (snapshot, 0)

def scrubSnapshot (preset : ScrubPreset) (snapshot : Snapshot) :
    Option (Snapshot × ScrubSummary) := do
  let cfg := presetConfig preset
  let agentsTotal := snapshot.agents.length
  let (snapshot, ackFlagsCleared) := clearAckState cfg snapshot
  let (snapshot, recipientsCleared) := clearRecipients cfg snapshot
  let (snapshot, fileReservationsRemoved) := clearFileReservations cfg snapshot
  let (snapshot, agentLinksRemoved) := clearAgentLinks cfg snapshot
  let (messages, tally) ←
    scrubPages engine toLowercase fromStr toString cfg (snapshot.messages.rows.length + 1) 0
      (snapshot.messages, 0)
  let summary := {
    preset                  := preset.asStr
    pseudonymSalt           := preset.asStr
    agentsTotal             := agentsTotal
    agentsPseudonymized     := 0
    ackFlagsCleared         := ackFlagsCleared
    recipientsCleared       := recipientsCleared
    fileReservationsRemoved := fileReservationsRemoved
    agentLinksRemoved       := agentLinksRemoved
    tally                   := tally }
  some ({ snapshot with messages }, summary)

end Snapshot

end Scrub
