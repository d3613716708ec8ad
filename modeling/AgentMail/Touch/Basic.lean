import AgentMail.Lib.Chunks
import AgentMail.Lib.MaxMap
import AgentMail.Lib.Run
import Mathlib.Algebra.Group.Int.Defs
import Mathlib.Algebra.Group.Nat.Defs
import Mathlib.Logic.Function.Basic

namespace Touch

def numTouchShards : Nat :=
  16

-- The fingerprint of a database, and an agent in it.
abbrev Key := Nat × Int

def shardIndex (key : Key) : Nat :=
  (key.1 ^^^ (key.2 % 2 ^ 64).toNat) % numTouchShards

-- A call in front of its next atomic step. A flush that has failed still has to enqueue the given
-- entries again.
inductive Phase
  | idle
  | enqueue (scope : Nat) (agentId ts : Int)
  | signal (scope : Nat) (todo : List (Int × Int))
  | flush (scope : Nat)
  | clear (scope : Nat)
  | scan (scope shard : Nat) (merged : MaxMap Int) (remaining : Bool)
  | restore (scope : Nat) (merged : MaxMap Int) (remaining : Bool)
  | write (scope : Nat) (merged : MaxMap Int)
  | requeue (scope : Nat) (todo : List (Int × Int))

-- The queue with its flag, the column `last_active_ts` of the databases, the calls, and all
-- timestamps that have been enqueued.
structure System (ι : Type) where
  shards     : Nat → MaxMap Key
  hasPending : Bool
  db         : Key → Option Int
  threads    : ι → Phase
  enqueued   : List (Key × Int)

inductive Event (ι : Type)
  | enqueue (i : ι) (scope : Nat) (agentId ts : Int)
  | flush (i : ι) (scope : Nat)
  | advance (i : ι)
  | commit (i : ι)
  | fail (i : ι)

-- `UPDATE agents SET last_active_ts = MAX(last_active_ts, ..) WHERE id IN (..)`
def updateChunk (scope : Nat) (db : Key → Option Int) (chunk : List (Int × Int)) : Key →
    Option Int :=
  fun key => (db key).map fun ts =>
    match if key.1 = scope then chunk.find? (·.1 = key.2) else none with
    | some e => max ts e.2
    | none   => ts

def updateAgents (scope : Nat) (entries : List (Int × Int)) (db : Key → Option Int) :
    Key → Option Int :=
  (chunks 400 entries).foldl (updateChunk scope) db

namespace System

variable {ι : Type} [DecidableEq ι]

def init (db : Key → Option Int) : System ι where
  shards     := fun _ => .empty
  hasPending := false
  db         := db
  threads    := fun _ => .idle
  enqueued   := []

def goto (s : System ι) (i : ι) (phase : Phase) : System ι :=
  { s with threads := Function.update s.threads i phase }

def insert (s : System ι) (key : Key) (ts : Int) : System ι :=
  { s with
    shards := Function.update s.shards (shardIndex key) ((s.shards (shardIndex key)).keep key ts) }

-- The entries of a database are taken out of a shard.
def take (s : System ι) (scope shard : Nat) : System ι :=
  { s with shards := Function.update s.shards shard ((s.shards shard).delete (·.1.1 = scope)) }

def merge (scope : Nat) (shard : MaxMap Key) (merged : MaxMap Int) : MaxMap Int :=
  (shard.rows.filter (·.1.1 = scope)).foldl (fun m e => m.keep e.1.2 e.2) merged

def advance (s : System ι) (i : ι) : Phase → Option (System ι)
  | .idle                     => none
  | .enqueue scope agentId ts =>
    some ({ s.insert (scope, agentId) ts with
      enqueued := s.enqueued ++ [((scope, agentId), ts)] }.goto i (.signal scope []))
  | .signal scope todo        => some ({ s with hasPending := true }.goto i (.requeue scope todo))
  | .requeue _ []             => some (s.goto i .idle)
  | .requeue scope ((agentId, ts) :: todo) =>
    some ((s.insert (scope, agentId) ts).goto i (.signal scope todo))
  | .flush scope              => some (s.goto i (if s.hasPending then .clear scope else .idle))
  | .clear scope              =>
    some ({ s with hasPending := false }.goto i (.scan scope 0 .empty false))
  | .scan scope shard merged remaining =>
    let merged := merge scope (s.shards shard) merged
    let s      := s.take scope shard
    let remaining := remaining || !(s.shards shard).rows.isEmpty
    some (s.goto i (if shard + 1 < numTouchShards then .scan scope (shard + 1) merged remaining
      else .restore scope merged remaining))
  | .restore scope merged remaining =>
    some ({ s with hasPending := s.hasPending || remaining }.goto i
      (if merged.rows.isEmpty then .idle else .write scope merged))
  | .write _ _                => none

def step (s : System ι) : Event ι → Option (System ι)
  | .enqueue i scope agentId ts =>
    match s.threads i with
    | .idle => some (s.goto i (.enqueue scope agentId ts))
    | _     => none
  | .flush i scope =>
    match s.threads i with
    | .idle => some (s.goto i (.flush scope))
    | _     => none
  | .advance i => s.advance i (s.threads i)
  | .commit i  =>
    match s.threads i with
    | .write scope merged =>
      some ({ s with db := updateAgents scope merged.rows s.db }.goto i .idle)
    | _ => none
  | .fail i    =>
    match s.threads i with
    | .write scope merged => some (s.goto i (.requeue scope merged.rows))
    | _                   => none

end System

-- The entries that a call holds.
def Phase.held : Phase → List (Key × Int)
  | idle                      => []
  | enqueue _ _ _             => []
  | signal scope todo         => todo.map fun e => ((scope, e.1), e.2)
  | flush _                   => []
  | clear _                   => []
  | scan scope _ merged _     => merged.rows.map fun e => ((scope, e.1), e.2)
  | restore scope merged _    => merged.rows.map fun e => ((scope, e.1), e.2)
  | write scope merged        => merged.rows.map fun e => ((scope, e.1), e.2)
  | requeue scope todo        => todo.map fun e => ((scope, e.1), e.2)

namespace System

variable {ι : Type}

-- A timestamp has been written, or it is in the queue, or some call holds it, or a larger one.
def Kept (s : System ι) (key : Key) (ts : Int) : Prop :=
  (∀ x, s.db key = some x → ts ≤ x) ∨ (s.shards (shardIndex key)).AtLeast key ts ∨
    ∃ i, ∃ e ∈ (s.threads i).held, e.1 = key ∧ ts ≤ e.2

-- When no call is in progress, the flag is set unless all shards are empty.
def Signalled (s : System ι) : Prop :=
  (∀ i, s.threads i = .idle) → (∃ j < numTouchShards, (s.shards j).rows ≠ []) → s.hasPending

end System
end Touch
