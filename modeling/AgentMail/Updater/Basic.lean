import AgentMail.Lib.Json
import AgentMail.Lib.Run
import AgentMail.Lib.Table
import AgentMail.Pattern.Basic

open Pattern (Str)

namespace Updater

inductive DocKind
  | message
  | agent
  | project
  | thread
  deriving DecidableEq

structure Document where
  id        : Int
  kind      : DocKind
  body      : Str
  title     : Str
  projectId : Option Int
  createdTs : Int
  metadata  : List (Str × Json)

inductive DocChange
  | upsert (doc : Document)
  | delete (id : Int) (kind : DocKind)

abbrev DocKey : Type :=
  DocKind × Int

namespace DocChange

def docId : DocChange → Int
  | upsert doc  => doc.id
  | delete id _ => id

def docKind : DocChange → DocKind
  | upsert doc    => doc.kind
  | delete _ kind => kind

def key (change : DocChange) : DocKey :=
  (change.docKind, change.docId)

-- What the index has under the key after the change.
def effect : DocChange → Option Document
  | upsert doc => some doc
  | delete _ _ => none

end DocChange

abbrev Index : Type :=
  DocKey → Option Document

def Index.apply (index : Index) (change : DocChange) : Index :=
  fun key => if change.key = key then change.effect else index key

def Index.applyAll (index : Index) (changes : List DocChange) : Index :=
  changes.foldl .apply index

-- The positions of the keys in the result, and the result.
def deduplicateStep (acc : List (DocKey × Nat) × List DocChange) (change : DocChange) :
    List (DocKey × Nat) × List DocChange :=
  match acc.1.lookup change.key with
  | some idx => (acc.1, acc.2.set idx change)
  | none     => ((change.key, acc.2.length) :: acc.1, acc.2 ++ [change])

def deduplicateChanges (changes : List DocChange) : List DocChange :=
  (changes.foldl deduplicateStep ([], [])).2

-- The accepted changes are numbered.
structure Entry where
  seq    : Nat
  change : DocChange

def Entry.key (e : Entry) : DocKey :=
  e.change.key

structure PendingState where
  changes      : List Entry
  retryPending : Bool
  totalApplied : Nat
  totalDropped : Nat
  flushCount   : Nat

-- A flush in front of its next atomic step: the call of the backend, one of the two ways to put
-- changes back, and the update of the statistics.
inductive Flush
  | update (batch : List Entry)
  | restore (batch : List Entry)
  | retain (batch : List Entry) (applied : Nat)
  | finish (applied : Nat)

-- The changes that have been drained and neither applied nor put back.
def Flush.held : Flush → List Entry
  | update batch         => batch
  | restore batch        => batch
  | retain batch applied => batch.drop applied
  | finish _             => []

-- The state with the running flushes by their threads, and the history of the changes.
structure State (ι : Type) where
  backpressureThreshold : Nat
  pending               : PendingState
  flushes               : Table (Prod.fst : ι × Flush → ι)
  index                 : Index
  accepted              : List Entry
  applied               : List Entry

inductive Event (ι : Type)
  | enqueue (change : DocChange)
  | drain (t : ι)
  | update (t : ι) (result : Option Nat)
  | putBack (t : ι)
  | finish (t : ι)

namespace State

variable {ι : Type}

def new (backpressureThreshold : Nat) (index : Index) : State ι where
  backpressureThreshold := backpressureThreshold
  pending               := ⟨[], false, 0, 0, 0⟩
  flushes               := .empty
  index                 := index
  accepted              := []
  applied               := []

def held (s : State ι) : List Entry :=
  s.flushes.rows.flatMap (·.2.held)

def enqueue (s : State ι) (change : DocChange) : State ι :=
  if s.backpressureThreshold ≤ s.pending.changes.length then
    { s with pending.totalDropped := s.pending.totalDropped + 1 }
  else
    let e := ⟨s.accepted.length, change⟩
    { s with pending.changes := s.pending.changes ++ [e], accepted := s.accepted ++ [e] }

variable [DecidableEq ι]

def leave (s : State ι) (t : ι) : State ι :=
  { s with flushes := s.flushes.delete (·.1 = t) }

def enter (s : State ι) (t : ι) (flush : Flush) : State ι :=
  let s := s.leave t
  { s with flushes := s.flushes.insertOrIgnore (t, flush) }

-- A flush that finds no changes returns at once.
def drain (s : State ι) (t : ι) : State ι :=
  let batch := s.pending.changes
  let s := { s with pending.retryPending := false, pending.changes := [] }
  if batch.isEmpty then s else s.enter t (.update batch)

-- The backend fails and applies nothing, or it applies some changes and reports how many.
def update (s : State ι) (t : ι) (batch : List Entry) : Option Nat → State ι
  | none         => s.enter t (.restore batch)
  | some applied =>
    let applied := min applied batch.length
    let changes := batch.take applied
    let s := { s with index := s.index.applyAll (changes.map Entry.change), applied := s.applied ++
      changes }
    s.enter t (if applied < batch.length then .retain batch applied else .finish applied)

def restore (s : State ι) (t : ι) (batch : List Entry) : State ι :=
  { s with pending.changes := batch ++ s.pending.changes }.leave t

def retain (s : State ι) (t : ι) (batch : List Entry) (applied : Nat) : State ι :=
  { s with pending.changes := batch.drop applied ++
    s.pending.changes, pending.retryPending := true }.enter t
    (.finish applied)

def finish (s : State ι) (t : ι) (applied : Nat) : State ι :=
  { s with
    pending.retryPending := s.pending.retryPending && !s.pending.changes.isEmpty
    pending.totalApplied := s.pending.totalApplied + applied
    pending.flushCount   := s.pending.flushCount + 1
  }.leave t

end State

def step {ι : Type} [DecidableEq ι] (s : State ι) : Event ι → Option (State ι)
  | .enqueue change => some (s.enqueue change)
  | .drain t =>
    match s.flushes.get? t with
    | none   => some (s.drain t)
    | some _ => none
  | .update t result =>
    match s.flushes.get? t with
    | some (_, .update batch) => some (s.update t batch result)
    | _                       => none
  | .putBack t =>
    match s.flushes.get? t with
    | some (_, .restore batch)        => some (s.restore t batch)
    | some (_, .retain batch applied) => some (s.retain t batch applied)
    | _                               => none
  | .finish t =>
    match s.flushes.get? t with
    | some (_, .finish applied) => some (s.finish t applied)
    | _                         => none

variable {ι : Type}

namespace State

-- Every accepted change has been applied once, or it is pending, or a running flush holds it.
def Conserved (s : State ι) : Prop :=
  (s.applied ++ s.held ++ s.pending.changes).Perm s.accepted ∧ (s.accepted.map (·.seq)).Nodup

def InOrder (s : State ι) : Prop :=
  ∀ key, (s.applied.filter (·.key = key)).Pairwise fun e e' => e.seq < e'.seq

-- The index holds what the last accepted changes of the documents leave, and is as it was for the
-- others.
def Settled (index : Index) (s : State ι) : Prop :=
  ∀ key, s.index key =
    ((s.accepted.filter (·.key = key)).getLast?.elim (index key) (·.change.effect))

-- No running flush holds a change of a document that has a pending one.
def Apart (s : State ι) : Prop :=
  ∀ e ∈ s.pending.changes, ∀ e' ∈ s.held, e.key ≠ e'.key

instance {s : State ι} : Decidable s.Apart :=
  inferInstanceAs (Decidable (∀ e ∈ s.pending.changes, ∀ e' ∈ s.held, e.key ≠ e'.key))

end State

def Meets (s : State ι) : Event ι → Prop
  | .drain _ => s.Apart
  | _        => True

instance decidableMeets {s : State ι} : ∀ e, Decidable (Meets s e)
  | .drain _   => inferInstanceAs (Decidable s.Apart)
  | .enqueue _ => isTrue trivial
  | .update .. => isTrue trivial
  | .putBack _ => isTrue trivial
  | .finish _  => isTrue trivial

end Updater
