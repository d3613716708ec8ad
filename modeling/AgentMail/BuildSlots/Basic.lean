import AgentMail.Lib.Run
import AgentMail.Lib.Table
import AgentMail.Pattern.Basic
import Mathlib.Data.Set.Function

open Pattern (Str trim)

namespace BuildSlots

-- Times are instants in nanoseconds of the epoch.
structure BuildSlotLease where
  slot       : Str
  agent      : Str
  branch     : Option Str
  exclusive  : Bool
  acquiredTs : Int
  expiresTs  : Int
  releasedTs : Option Int
  deriving DecidableEq

-- `to_rfc3339` writes years outside of 0 to 9999 in a way that `parse_from_rfc3339` rejects.
def parseable (ts : Int) : Bool :=
  -62167219200000000000 ≤ ts && ts < 253402300800000000000

def seconds (n : Int) : Int :=
  n * 1000000000

abbrev Entry : Type :=
  Str × BuildSlotLease

-- The lease files of a slot by their names.
abbrev Files : Type :=
  Table (Prod.fst : Entry → Str)

def replaced : List Char :=
  ['/', '\\', ':', '*', '?', '"', '<', '>', '|', ' ']

def safeComponent (value : Str) : Str :=
  let safe := (trim value).map fun c => if c ∈ replaced then '_' else c
  if safe = [] ∨ safe = ['.'] ∨ safe = ['.', '.'] then "unknown".toList else safe

def holderIdentity (agent : Str) : Option Str → Str
  | none        => agent
  | some branch => agent ++ ":::".toList ++ branch

-- The first 16 hexadecimal digits of the SHA-256 digest.
structure ShortHash where
  hash   : Str → Str
  length : ∀ s, (hash s).length = 16

def leasePathForHolder (h : ShortHash) (agent : Str) (branch : Option Str) : Str :=
  safeComponent agent ++ "--".toList ++ h.hash (holderIdentity agent branch) ++ ".json".toList

def legacyLeasePathForHolder (agent : Str) (branch : Option Str) : Str :=
  safeComponent (holderIdentity agent branch) ++ ".json".toList

def leaseMatchesHolder (lease : BuildSlotLease) (agent : Str) (branch : Option Str) : Bool :=
  lease.agent = agent && lease.branch = branch

-- The entries are in the order in which the directory is read. The lease of the branch ends the
-- search, and otherwise a single lease of the agent is found.
def findAgentLease (agent : Str) (branch : Option Str) : List Entry → (sameAgentPaths : List Str) →
    Option Str
  | [], [path]                    => some path
  | [], _                         => none
  | (path, lease) :: entries, paths =>
    if lease.agent ≠ agent then
      findAgentLease agent branch entries paths
    else if lease.branch = branch then
      some path
    else
      findAgentLease agent branch entries (paths ++ [path])

def existingAgentLeasePath (entries : List Entry) (agent : Str) (branch : Option Str) :
    Option Str :=
  findAgentLease agent branch entries []

def resolveHolderLeasePath (h : ShortHash) (files : Files) (entries : List Entry) (agent : Str)
    (branch : Option Str) : Str :=
  let preferred := leasePathForHolder h agent branch
  let legacy := legacyLeasePathForHolder agent branch
  if (files.get? preferred).isSome then
    preferred
  else if (files.get? legacy).isSome then
    legacy
  else
    (existingAgentLeasePath entries agent branch).getD preferred

namespace BuildSlotLease

def unexpired (lease : BuildSlotLease) (now : Int) : Bool :=
  parseable lease.expiresTs && now < lease.expiresTs

-- Whether a lease is in the way of a request by the agent.
def conflictsWith (lease : BuildSlotLease) (agent : Str) (requestExclusive : Bool) : Bool :=
  lease.releasedTs.isNone && lease.agent ≠ agent && (requestExclusive || lease.exclusive)

end BuildSlotLease

def readActiveLeases (entries : List Entry) (now : Int) : List BuildSlotLease :=
  entries.map Prod.snd |>.filter (·.unexpired now)

def collectSlotConflicts (active : List BuildSlotLease) (agent : Str) (requestExclusive : Bool) :
    List BuildSlotLease :=
  active.filter (·.conflictsWith agent requestExclusive)

def clampSeconds (default : Int) : Option Int → Int
  | none   => default
  | some n => max 60 (min n 31536000)

def ttl (ttlSeconds : Option Int) : Int :=
  clampSeconds 3600 ttlSeconds

def extend (extendSeconds : Option Int) : Int :=
  clampSeconds 1800 extendSeconds

def computeRenewedExpiry (now currentExpiresTs extendSeconds : Int) : Int :=
  let currentExpiry := if parseable currentExpiresTs then currentExpiresTs else now
  max now currentExpiry + seconds extendSeconds

def grantedLease (slot agent : Str) (branch : Option Str) (now : Int) (ttlSeconds : Option Int)
    (exclusive : Option Bool) : BuildSlotLease where
  slot       := slot
  agent      := agent
  branch     := branch
  exclusive  := exclusive.getD true
  acquiredTs := now
  expiresTs  := now + seconds (ttl ttlSeconds)
  releasedTs := none

def renewedLease (lease : BuildSlotLease) (now : Int) (extendSeconds : Option Int) :
    BuildSlotLease :=
  { lease with expiresTs := computeRenewedExpiry now lease.expiresTs (extend extendSeconds) }

def releasedLease (lease : BuildSlotLease) (now : Int) : BuildSlotLease :=
  { lease with releasedTs := some now }

def renewable (active : List BuildSlotLease) (agent : Str) (branch : Option Str) :
    Option BuildSlotLease :=
  active.find? fun lease => leaseMatchesHolder lease agent branch && lease.releasedTs.isNone

def releasable (active : List BuildSlotLease) (agent : Str) (branch : Option Str) :
    Option BuildSlotLease :=
  active.find? (leaseMatchesHolder · agent branch)

inductive Request
  | acquire (slot : Str) (ttlSeconds : Option Int) (exclusive : Option Bool)
  | renew (extendSeconds : Option Int)
  | release

inductive Response
  | acquire (granted : BuildSlotLease) (conflicts : List BuildSlotLease)
  | renew (renewed : Bool) (expiresTs : Option Int)
  | release (released : Bool) (releasedAt : Option Int)
  deriving DecidableEq

-- A call with what it finds: the time, the branch of the repository, and the order of the lease
-- files in the directory when the leases are read and when the path is resolved.
structure Call where
  agent    : Str
  request  : Request
  now      : Int
  branch   : Option Str
  listing  : List Entry
  listing' : List Entry

structure State where
  files : Files
  clock : Int

namespace State

def empty (clock : Int) : State where
  files := .empty
  clock := clock

variable (h : ShortHash)

def write (s : State) (c : Call) (agent : Str) (branch : Option Str) (lease : BuildSlotLease) :
    Files :=
  s.files.put (resolveHolderLeasePath h s.files c.listing' agent branch, lease)

def acquireBuildSlot (s : State) (c : Call) (slot : Str) (ttlSeconds : Option Int)
    (exclusive : Option Bool) : Files × Response :=
  let active := readActiveLeases c.listing c.now
  let granted := grantedLease slot c.agent c.branch c.now ttlSeconds exclusive
  let conflicts := collectSlotConflicts active c.agent (exclusive.getD true)
  (s.write h c c.agent c.branch granted, .acquire granted conflicts)

def renewBuildSlot (s : State) (c : Call) (extendSeconds : Option Int) : Files × Response :=
  match renewable (readActiveLeases c.listing c.now) c.agent c.branch with
  | none         => (s.files, .renew false none)
  | some current =>
    let renewed := renewedLease current c.now extendSeconds
    (s.write h c current.agent current.branch renewed, .renew true renewed.expiresTs)

def releaseBuildSlot (s : State) (c : Call) : Files × Response :=
  match releasable (readActiveLeases c.listing c.now) c.agent c.branch with
  | none       => (s.files, .release false none)
  | some lease =>
    match lease.releasedTs with
    | some existingRelease => (s.files, .release true existingRelease)
    | none                 =>
      (s.write h c lease.agent lease.branch (releasedLease lease c.now), .release true c.now)

def call (s : State) (c : Call) : Files × Response :=
  match c.request with
  | .acquire slot ttlSeconds exclusive => s.acquireBuildSlot h c slot ttlSeconds exclusive
  | .renew extendSeconds               => s.renewBuildSlot h c extendSeconds
  | .release                           => s.releaseBuildSlot h c

def next (s : State) (c : Call) : State where
  files := (s.call h c).1
  clock := c.now

end State

def step (h : ShortHash) (s : State) (c : Call) : Option State :=
  if s.clock ≤ c.now ∧ c.listing.Perm s.files.rows ∧ c.listing'.Perm s.files.rows then
    some (s.next h c)
  else
    none

namespace BuildSlotLease

structure Held (lease : BuildSlotLease) (now : Int) : Prop where
  unexpired  : lease.unexpired now
  unreleased : lease.releasedTs = none

instance {lease : BuildSlotLease} {now : Int} : Decidable (lease.Held now) :=
  decidable_of_iff (lease.unexpired now ∧ lease.releasedTs = none)
    ⟨fun ⟨hu, hr⟩ => ⟨hu, hr⟩, fun ⟨hu, hr⟩ => ⟨hu, hr⟩⟩

end BuildSlotLease

def Call.identity (c : Call) : Str :=
  holderIdentity c.agent c.branch

namespace State

def Single (s : State) : Prop :=
  ∀ f ∈ s.files.rows, ∀ f' ∈ s.files.rows,
    f.2.agent = f'.2.agent → f.2.Held s.clock → f'.2.Held s.clock → f = f'

-- The leases that the agent of a call has when it makes the call.
def Own (s : State) (c : Call) (f : Entry) : Prop :=
  f ∈ s.files.rows ∧ f.2.agent = c.agent ∧ f.2.Held c.now

instance {s : State} {c : Call} {f : Entry} : Decidable (s.Own c f) :=
  inferInstanceAs (Decidable (_ ∧ _ ∧ _))

end State

def Request.Answered (s s' : State) (c : Call) (response : Response) : Request → Prop
  | .acquire .. => True
  | .renew _    => ∀ f, s.Own c f → ∃ expiresTs, f.2.expiresTs < expiresTs ∧
    response = .renew true (some expiresTs) ∧
    (f.1, { f.2 with expiresTs := expiresTs }) ∈ s'.files.rows
  | .release    => (∃ f, s.Own c f) →
    (∃ releasedAt, response = .release true releasedAt) ∧ ∀ f, ¬s'.Own c f

structure CallHolds (h : ShortHash) (s : State) (c : Call) : Prop where
  single   : (s.next h c).Single
  answered : c.request.Answered s (s.next h c) c (s.call h c).2
  others   : ∀ f, f.2.agent ≠ c.agent → (f ∈ (s.next h c).files.rows ↔ f ∈ s.files.rows)

-- Whether a call writes a lease.
def Request.Writes (s : State) (c : Call) : Request → Prop
  | .acquire .. => True
  | _           => ∃ f, s.Own c f

-- A renewal or release is made on the branch of the agent's lease, and the legacy name is not the
-- one of a lease of another agent where it is used.
structure Meets (h : ShortHash) (s : State) (c : Call) : Prop where
  branch : (∀ slot ttlSeconds exclusive, c.request ≠ .acquire slot ttlSeconds exclusive) →
    ∀ f, s.Own c f → f.2.branch = c.branch
  legacy : c.request.Writes s c → s.files.get? (leasePathForHolder h c.agent c.branch) = none →
    ∀ f ∈ s.files.get? (legacyLeasePathForHolder c.agent c.branch), f.2.agent = c.agent

-- Every agent has at most one lease file, and its name is made from an identity of the agent.
structure Invariant (h : ShortHash) (identities : Set Str) (s : State) : Prop where
  named  : ∀ f ∈ s.files.rows, ∃ branch, f.1 = leasePathForHolder h f.2.agent branch ∧
    holderIdentity f.2.agent branch ∈ identities
  single : ∀ f ∈ s.files.rows, ∀ f' ∈ s.files.rows, f.2.agent = f'.2.agent → f = f'

end BuildSlots
