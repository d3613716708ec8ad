import AgentMail.Lib.Sqlite
import AgentMail.Lib.Table
import AgentMail.Pattern.Basic

open Pattern (Str)
open Sqlite (castInteger instr substr)

namespace Schema

structure ProjectRow where
  id       : Int
  slug     : Str
  humanKey : Str
  deriving DecidableEq

structure ProductProjectLinkRow where
  id        : Int
  productId : Int
  projectId : Int
  deriving DecidableEq

structure AgentRow where
  id              : Int
  projectId       : Int
  name            : Str
  taskDescription : Str
  contactPolicy   : Str
  deriving DecidableEq

structure MessageRow where
  id          : Int
  projectId   : Int
  senderId    : Int
  threadId    : Option Str
  subject     : Str
  bodyMd      : Str
  importance  : Str
  ackRequired : Int
  createdTs   : Int
  deriving DecidableEq

structure MessageRecipientRow where
  messageId : Int
  agentId   : Int
  kind      : Str
  deriving DecidableEq

def MessageRecipientRow.key (row : MessageRecipientRow) : Int × Int :=
  (row.messageId, row.agentId)

structure FileReservationRow where
  id          : Int
  projectId   : Int
  agentId     : Int
  pathPattern : Str
  deriving DecidableEq

structure FileReservationReleaseRow where
  reservationId : Int
  releasedTs    : Int
  deriving DecidableEq

structure AgentLinkRow where
  id         : Int
  aProjectId : Int
  aAgentId   : Int
  bProjectId : Int
  bAgentId   : Int
  status     : Str
  expiresTs  : Option Int
  deriving DecidableEq

structure ProjectSiblingSuggestionRow where
  id         : Int
  projectAId : Int
  projectBId : Int
  deriving DecidableEq

structure InboxStatsRow where
  agentId    : Int
  totalCount : Int
  deriving DecidableEq

-- The tables of the mailbox.
structure Database where
  projects     : Table ProjectRow.id
  productLinks : Table ProductProjectLinkRow.id
  agents       : Table AgentRow.id
  messages     : Table MessageRow.id
  recipients   : Table MessageRecipientRow.key
  reservations : Table FileReservationRow.id
  releases     : Table FileReservationReleaseRow.reservationId
  links        : Table AgentLinkRow.id
  siblings     : Table ProjectSiblingSuggestionRow.id
  inboxStats   : Table InboxStatsRow.agentId

def Database.empty : Database where
  projects     := .empty
  productLinks := .empty
  agents       := .empty
  messages     := .empty
  recipients   := .empty
  reservations := .empty
  releases     := .empty
  links        := .empty
  siblings     := .empty
  inboxStats   := .empty

-- `COLLATE NOCASE`, which only ignores the case of ASCII letters.
def nocase (s : Str) : Str :=
  s.map Char.toLower

-- What an update of the migration `v3` puts in the place of the text in `col`, where `strftime` is
-- SQLite's.
def tsConversion (strftime : Str → Str → Option Str) (col : Str) : Option Int :=
  (strftime "%s".toList col).map fun seconds =>
    castInteger seconds * 1000000 +
      if instr col '.' > 0 then castInteger (substr (col ++ "000000".toList) (instr col '.' + 1) 6)
        else 0

end Schema
