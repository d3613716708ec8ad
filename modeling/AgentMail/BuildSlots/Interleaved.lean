import AgentMail.BuildSlots.Basic

open Pattern (Str)

-- Calls on one slot that run at the same time. Every file operation is a step of its own.

namespace BuildSlots

section

variable (ι : Type)

-- The content of a lease file with its history: the acquire call that granted the lease, the
-- conflicts that this call returns with the calls that granted them, and the latest clock reading
-- of the calls that wrote the lease.
structure Published where
  lease     : BuildSlotLease
  grant     : ι
  conflicts : List (ι × BuildSlotLease)
  time      : Int

inductive Reply
  | acquire (granted : BuildSlotLease) (conflicts : List (ι × BuildSlotLease))
  | renew (renewed : Bool) (expiresTs : Option Int)
  | release (released : Bool) (releasedAt : Option Int)

structure Plan where
  target : Published ι
  reply  : Reply ι

-- A call resolves the path by looking for the preferred and the legacy file, and by reading all
-- files of the slot. Then it renames the new file to the path.
inductive Stage
  | preferred
  | legacy
  | scan
  | search (paths : List Str) (sameAgentPaths : List Str)
  | write (path : Str)

inductive Phase
  | list
  | read (paths : List Str) (entries : List (Published ι))
  | publish (plan : Plan ι) (stage : Stage)
  | answer (reply : Reply ι)
  | returned (reply : Reply ι)

-- A call after it has read the clock and the branch. It is disturbed if another agent has published
-- a lease since then, unless the call is still going to read it.
structure Thread where
  id        : ι
  agent     : Str
  branch    : Option Str
  request   : Request
  now       : Int
  phase     : Phase ι
  disturbed : Bool

abbrev SharedFiles : Type :=
  Table (Prod.fst : Str × Published ι → Str)

structure World where
  files   : SharedFiles ι
  clock   : Int
  threads : Table (Thread.id : Thread ι → ι)

inductive Event
  | tick (now : Int)
  | start (id : ι) (agent : Str) (branch : Option Str) (request : Request)
  | list (id : ι) (paths : List Str)
  | advance (id : ι)

end

variable {ι : Type}

def Request.publishes : Request → Bool
  | acquire .. => true
  | renew _    => true
  | release    => false

namespace Thread

def enter (t : Thread ι) (phase : Phase ι) : Thread ι :=
  { t with phase := phase }

theorem id_enter (phase : Phase ι) (t : Thread ι) : (t.enter phase).id = t.id :=
  rfl

def stillReads (t : Thread ι) (path : Str) : Bool :=
  match t.request, t.phase with
  | .acquire .., .list         => true
  | .acquire .., .read paths _ => path ∈ paths
  | _, _                       => false

def disturb (t : Thread ι) (path : Str) (writer : Thread ι) : Thread ι :=
  let missed := writer.request.publishes && t.agent ≠ writer.agent && !t.stillReads path
  { t with disturbed := t.disturbed || missed }

theorem id_disturb (path : Str) (writer t : Thread ι) : (t.disturb path writer).id = t.id :=
  rfl

-- What a call does when it has read all files.
def decided (t : Thread ι) (entries : List (Published ι)) : Phase ι :=
  let active := entries.filter (·.lease.unexpired t.now)
  match t.request with
  | .acquire slot ttlSeconds exclusive =>
    let granted := grantedLease slot t.agent t.branch t.now ttlSeconds exclusive
    let conflicting := active.filter (·.lease.conflictsWith t.agent granted.exclusive)
    let conflicts := conflicting.map fun p => (p.grant, p.lease)
    .publish ⟨⟨granted, t.id, conflicts, t.now⟩, .acquire granted conflicts⟩ .preferred
  | .renew extendSeconds =>
    match active.find? fun p =>
      leaseMatchesHolder p.lease t.agent t.branch && p.lease.releasedTs.isNone with
    | none   => .answer (.renew false none)
    | some p =>
      let renewed := renewedLease p.lease t.now extendSeconds
      .publish ⟨{ p with lease := renewed, time := max p.time t.now },
        .renew true renewed.expiresTs⟩ .preferred
  | .release =>
    match active.find? (leaseMatchesHolder ·.lease t.agent t.branch) with
    | none   => .answer (.release false none)
    | some p =>
      match p.lease.releasedTs with
      | some existingRelease => .answer (.release true existingRelease)
      | none                 =>
        let released := releasedLease p.lease t.now
        .publish ⟨{ p with lease := released, time := max p.time t.now },
          .release true t.now⟩ .preferred

variable (h : ShortHash)

def resolve (files : SharedFiles ι) (target : Published ι) : Stage → Option Stage
  | .preferred =>
    let preferred := leasePathForHolder h target.lease.agent target.lease.branch
    some (if (files.get? preferred).isSome then .write preferred else .legacy)
  | .legacy =>
    let legacy := legacyLeasePathForHolder target.lease.agent target.lease.branch
    some (if (files.get? legacy).isSome then .write legacy else .scan)
  | .search [] [path] => some (.write path)
  | .search [] _      => some (.write (leasePathForHolder h target.lease.agent target.lease.branch))
  | .search (path :: paths) sameAgentPaths =>
    match files.get? path with
    | none        => some (.search paths sameAgentPaths)
    | some (_, p) =>
      if p.lease.agent ≠ target.lease.agent then
        some (.search paths sameAgentPaths)
      else if p.lease.branch = target.lease.branch then
        some (.write path)
      else
        some (.search paths (sameAgentPaths ++ [path]))
  | .scan | .write _ => none

-- The steps of a call that change no file.
def next (files : SharedFiles ι) (t : Thread ι) : Option (Phase ι) :=
  match t.phase with
  | .read [] entries              => some (t.decided entries)
  | .read (path :: paths) entries =>
    some (.read paths (entries ++ (files.get? path).toList.map Prod.snd))
  | .publish plan stage           => (resolve h files plan.target stage).map (.publish plan ·)
  | .answer reply                 => some (.returned reply)
  | .list | .returned _           => none

def listed (t : Thread ι) (paths : List Str) : Option (Phase ι) :=
  match t.phase with
  | .list               => some (.read paths [])
  | .publish plan .scan => some (.publish plan (.search paths []))
  | _                   => none

end Thread

variable [DecidableEq ι]

namespace World

def empty (clock : Int) : World ι where
  files   := .empty
  clock   := clock
  threads := .empty

def enter (w : World ι) (id : ι) (phase : Phase ι) : World ι :=
  { w with threads := w.threads.update (·.id = id) (·.enter phase) (Thread.id_enter phase) }

def start (w : World ι) (id : ι) (agent : Str) (branch : Option Str) (request : Request) :
    World ι :=
  { w with threads := w.threads.insertOrIgnore ⟨id, agent, branch, request, w.clock, .list, false⟩ }

def rename (w : World ι) (t : Thread ι) (path : Str) (target : Published ι) : World ι :=
  { w with
    files   := w.files.put (path, target)
    threads := w.threads.update (fun _ => true) (·.disturb path t) (Thread.id_disturb path t) }

end World

def stepWorld (h : ShortHash) (w : World ι) : Event ι → Option (World ι)
  | .tick now => if w.clock ≤ now then some { w with clock := now } else none
  | .start id agent branch request =>
    match w.threads.get? id with
    | none   => some (w.start id agent branch request)
    | some _ => none
  | .list id paths =>
    match w.threads.get? id with
    | none   => none
    | some t =>
      if paths.Perm (w.files.rows.map Prod.fst) then (t.listed paths).map (w.enter id) else none
  | .advance id =>
    match w.threads.get? id with
    | none   => none
    | some t =>
      match t.phase with
      | .publish plan (.write path) =>
        some ((w.rename t path plan.target).enter id (.answer plan.reply))
      | _                           => (t.next h w.files).map (w.enter id)

namespace World

-- Of two agents that hold the slot, one exclusively, one has been told of the other if both calls
-- have returned.
def Told (w : World ι) : Prop :=
  ∀ f ∈ w.files.rows, ∀ g ∈ w.files.rows, f.2.lease.agent ≠ g.2.lease.agent →
    f.2.lease.Held w.clock → g.2.lease.Held w.clock → f.2.lease.exclusive ∨ g.2.lease.exclusive →
    ∀ t ∈ w.threads.get? f.2.grant, ∀ u ∈ w.threads.get? g.2.grant,
    ∀ granted granted' conflicts conflicts',
      t.phase = .returned (.acquire granted conflicts) →
        u.phase = .returned (.acquire granted' conflicts') →
      (∃ c ∈ conflicts, c.1 = g.2.grant ∧ c.2.agent = g.2.lease.agent) ∨
      ∃ c ∈ conflicts', c.1 = f.2.grant ∧ c.2.agent = f.2.lease.agent

end World

def Phase.writes : Phase ι → Bool
  | publish _ (.write _) => true
  | _                    => false

-- A call that is about to publish a lease has not been disturbed.
def MeetsWorld (w : World ι) : Event ι → Prop
  | .advance id => ∀ t ∈ w.threads.get? id, t.phase.writes → t.request.publishes → ¬t.disturbed
  | _           => True

instance decidableMeetsWorld {w : World ι} : ∀ e, Decidable (MeetsWorld w e)
  | .advance id => inferInstanceAs (Decidable (∀ t ∈ w.threads.get? id, _ → _ → _))
  | .tick _     => isTrue trivial
  | .start ..   => isTrue trivial
  | .list ..    => isTrue trivial

end BuildSlots
