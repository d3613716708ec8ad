import Mathlib.Logic.Function.Basic
import AgentMail.Inbox.Basic
import AgentMail.Lib.Run

namespace Inbox

-- The agents whose inboxes a call writes to.
def Op.agents : Op → List Int
  | markRead agentId _      => [agentId]
  | markReadBatch agentId _ => [agentId]
  | markAllRead _ agentId   => [agentId]
  | acknowledge agentId _   => [agentId]
  | create req              => req.recipients.map Prod.fst

-- Whether the rows exist that a call depends on.
def Op.finds (db : Db) : Op → Bool
  | markRead agentId messageId    => (db.recipients.get? (messageId, agentId)).isSome
  | markReadBatch _ _             => true
  | markAllRead _ _               => true
  | acknowledge agentId messageId => (db.recipients.get? (messageId, agentId)).isSome
  | create _                      => true

-- A committed transaction, with the agents whose inboxes it has written to and the state that it
-- left.
structure Commit where
  agents : List Int
  db     : Db

-- A call of `get_inbox_stats`, with the commits whose calls had returned when it started.
structure Reader where
  agentId : Int
  seen    : List Nat

structure Answer extends Reader where
  result : Option InboxStatsRow

-- A call in front of its next step. Commits are given by their position in the history.
inductive Call
  | get (reader : Reader)
  | read (reader : Reader)
  | put (reader : Reader) (row : InboxStatsRow) (version : Nat)
  | write (now : Int) (op : Op)
  | commit (now : Int) (op : Op)
  | probe (row : MessageRow) (agents : List Int) (version : Nat)
  | cleanup (row : MessageRow) (agents : List Int)
  | invalidate (todo : List Int) (version : Nat) (ok : Bool)

-- The cache is a map, whose entries may be dropped at any time. For every commit there are the
-- agents whose entries its call still has to drop.
structure System where
  db       : Db
  cache    : Int → Option InboxStatsRow
  commits  : List Commit
  owed     : Nat → List Int
  started  : Nat
  calls    : Nat → Option Call
  returned : List Nat
  answers  : List Answer

inductive Event
  | evict (agentId : Int)
  | get (agentId : Int)
  | write (now : Int) (op : Op)
  | advance (c : Nat)
  | retry (c : Nat)
  | probeFails (c : Nat)
  | fail (c : Nat)

namespace System

def init (db : Db) : System where
  db       := db
  cache    := fun _ => none
  commits  := [⟨[], db⟩]
  owed     := fun _ => []
  started  := 0
  calls    := fun _ => none
  returned := []
  answers  := []

def begin (s : System) (call : Call) : System :=
  { s with started := s.started + 1, calls := Function.update s.calls s.started (some call) }

def goto (s : System) (c : Nat) (call : Option Call) : System :=
  { s with calls := Function.update s.calls c call }

def answer (s : System) (reader : Reader) (result : Option InboxStatsRow) : System :=
  { s with answers := s.answers ++ [⟨reader, result⟩] }

def put (s : System) (row : InboxStatsRow) : System :=
  { s with cache := Function.update s.cache row.agentId (some row) }

def invalidate (s : System) (agents : List Int) : System :=
  { s with cache := fun a => if a ∈ agents then none else s.cache a }

def commit (s : System) (db : Db) (agents owed : List Int) : System :=
  { s with
    db      := db
    commits := s.commits ++ [⟨agents, db⟩]
    owed    := Function.update s.owed s.commits.length owed }

def drop (s : System) (version : Nat) (agentId : Int) : System :=
  { s with owed := Function.update s.owed version ((s.owed version).filter (· ≠ agentId)) }

def ret (s : System) (version : Nat) : System :=
  { s with returned := s.returned ++ [version] }

-- The next step of a call. The transactions that mark messages drop the cached entry before they
-- are committed, those that create or delete a message afterwards.
def advance (s : System) (c : Nat) : Call → System
  | .get reader =>
    match s.cache reader.agentId with
    | some row => (s.answer reader (some row)).goto c none
    | none     => s.goto c (some (.read reader))
  | .read reader =>
    match s.db.inboxStats.get? reader.agentId with
    | some row => s.goto c (some (.put reader row (s.commits.length - 1)))
    | none     => (s.answer reader none).goto c none
  | .put reader row _ => ((s.put row).answer reader (some row)).goto c none
  | .write now (.create req) =>
    let r := createMessageWithRecipients now req s.db
    match r.2 with
    | .error _ => s.goto c none
    | .ok row  =>
      let agents := req.recipients.map Prod.fst
      (s.commit r.1 agents agents).goto c (some (.probe row agents s.commits.length))
  | .write _ (.markReadBatch _ []) => s.goto c none
  | .write now op => (s.invalidate op.agents).goto c (some (.commit now op))
  | .commit now op =>
    let r := op.exec now s.db
    if r.2 then
      (s.commit r.1 op.agents []).goto c (some (.invalidate [] s.commits.length true))
    else
      s.goto c none
  | .probe _ agents version => s.goto c (some (.invalidate agents version true))
  | .cleanup row agents =>
    let r := cleanupCommittedMessage row.projectId row.id agents s.db
    (s.commit r.1 r.2 r.2).goto c (some (.invalidate r.2 s.commits.length false))
  | .invalidate (agentId :: todo) version ok =>
    ((s.invalidate [agentId]).drop version agentId).goto c (some (.invalidate todo version ok))
  | .invalidate [] version ok => (if ok then s.ret version else s).goto c none

-- A transaction that is in conflict with another one starts over, and a message that is not visible
-- after its commit is deleted.
def step (s : System) : Event → Option System
  | .evict agentId => some (s.invalidate [agentId])
  | .get agentId   => some (s.begin (.get ⟨agentId, s.returned⟩))
  | .write now op  => some (s.begin (.write now op))
  | .advance c     => (s.calls c).map (s.advance c)
  | .retry c       =>
    match s.calls c with
    | some (.commit now op) => some (s.goto c (some (.write now op)))
    | _                     => none
  | .probeFails c  =>
    match s.calls c with
    | some (.probe row agents _) => some (s.goto c (some (.cleanup row agents)))
    | _                          => none
  | .fail c        => some (s.goto c none)

def touches (s : System) (version : Nat) (agentId : Int) : Bool :=
  s.commits[version]?.any (agentId ∈ ·.agents)

-- Every answer is a row that was stored at or after the commits for the agent whose calls had
-- returned when the call started.
def Coherent (s : System) : Prop :=
  ∀ x ∈ s.answers, ∀ k ∈ x.seen, s.touches k x.agentId →
    ∃ v commit, k ≤ v ∧ s.commits[v]? = some commit ∧
      commit.db.inboxStats.get? x.agentId = x.result

-- The calls of all later commits for the agent still have to drop the agent's entry.
def UpToDate (s : System) (agentId : Int) (version : Nat) : Prop :=
  ∀ k < s.commits.length, s.touches k agentId → version < k → agentId ∈ s.owed k

instance (s : System) (agentId : Int) (version : Nat) : Decidable (s.UpToDate agentId version) :=
  inferInstanceAs (Decidable (∀ k < s.commits.length, _))

-- An entry is put while it is up to date, and a transaction that drops an entry before it is
-- committed does not find it again at its commit.
def CallGuarded (s : System) : Call → Prop
  | .put reader _ version => s.UpToDate reader.agentId version
  | .commit _ op          => op.finds s.db → ∀ a ∈ op.agents, s.cache a = none
  | _                     => True

instance (s : System) : ∀ call, Decidable (s.CallGuarded call)
  | .put ..        => inferInstanceAs (Decidable (s.UpToDate ..))
  | .commit ..     => inferInstanceAs (Decidable (_ → _))
  | .get ..        => isTrue trivial
  | .read ..       => isTrue trivial
  | .write ..      => isTrue trivial
  | .probe ..      => isTrue trivial
  | .cleanup ..    => isTrue trivial
  | .invalidate .. => isTrue trivial

def Guarded (s : System) : Event → Prop
  | .advance c => ∀ call ∈ s.calls c, s.CallGuarded call
  | _          => True

instance (s : System) : ∀ e, Decidable (s.Guarded e)
  | .advance c    => inferInstanceAs (Decidable (∀ call ∈ s.calls c, _))
  | .evict _      => isTrue trivial
  | .get _        => isTrue trivial
  | .write _ _    => isTrue trivial
  | .retry _      => isTrue trivial
  | .probeFails _ => isTrue trivial
  | .fail _       => isTrue trivial

end System
end Inbox
