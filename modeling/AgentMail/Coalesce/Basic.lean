import Mathlib.Data.Fintype.Basic
import Mathlib.Logic.Function.Basic
import AgentMail.Lib.Run
import AgentMail.Lib.Table

namespace Coalesce

-- What a closure does.
inductive Result (V E : Type)
  | ok (value : V)
  | err (error : E)
  | panic (payload : Option String)
  deriving DecidableEq

def panicPayloadMessage : Option String → String
  | some msg => "leader panicked: " ++ msg
  | none     => "leader panicked"

inductive SlotState (V : Type)
  | pending
  | ready (value : V)
  | failed (msg : String)
  deriving DecidableEq

-- A slot with its number of references, and the key for which it has been made.
structure Slot (K V : Type) where
  key         : K
  state       : SlotState V
  strongCount : Nat

structure Config (K E : Type) where
  shardIndex         : K → Nat
  maxEntriesPerShard : Nat
  display            : E → String

-- `complete_ok` or `complete_err`
def Config.slotState {K V E : Type} (cfg : Config K E) : Result V E → SlotState V
  | .ok value      => .ready value
  | .err error     => .failed (cfg.display error)
  | .panic payload => .failed (panicPayloadMessage payload)

-- What a call returns. A value that has been joined comes from a slot, which may still have been
-- pending when the call has looked it up.
inductive Outcome (V E : Type)
  | executed (value : V)
  | joined (value : V) (slot : Nat) (wasPending : Bool)
  | err (error : E)
  | panic (payload : Option String)
  deriving DecidableEq

def Result.outcome {V E : Type} : Result V E → Outcome V E
  | ok value      => .executed value
  | err error     => .err error
  | panic payload => .panic payload

-- A call of `execute_or_join` in front of its next atomic step.
inductive Phase (K V E : Type)
  | idle
  | lookup (key : K)
  | lead (key : K) (slot : Nat)
  | complete (key : K) (slot : Nat) (result : Result V E)
  | remove (key : K) (slot : Nat) (result : Result V E)
  | wait (key : K) (slot : Nat) (wasPending : Bool)
  | fallback (key : K) (slot : Nat)
  deriving DecidableEq

namespace Phase

variable {K V E : Type}

-- The entry of a leader that has not run its removal step.
def leads : Phase K V E → Option (K × Nat)
  | lead key slot       => some (key, slot)
  | complete key slot _ => some (key, slot)
  | remove key slot _   => some (key, slot)
  | _                   => none

-- The slot that a leader has completed before its removal step.
def completed : Phase K V E → Option Nat
  | remove _ slot _ => some slot
  | _               => none

def looksUp : Phase K V E → Option K
  | lookup key => some key
  | _          => none

end Phase

abbrev Shard (K : Type) : Type :=
  Table (Prod.fst : K × Nat → K)

-- The shards, all slots that have been made, the calls, the executions by leaders, and what has
-- been returned.
structure System (ι K V E : Type) where
  shards     : Nat → Shard K
  slots      : List (Slot K V)
  calls      : ι → Phase K V E
  executions : List (Nat × K × Result V E)
  returned   : List (K × Outcome V E)

-- The entry to be evicted depends on the iteration order of a hash map.
inductive Event (ι K V E : Type)
  | call (i : ι) (key : K)
  | lookup (i : ι) (victim : Option (K × Nat))
  | run (i : ι) (result : Result V E)
  | complete (i : ι)
  | remove (i : ι)
  | wake (i : ι)
  | timeout (i : ι)

namespace System

variable {ι K V E : Type} [DecidableEq ι] [DecidableEq K]

def init : System ι K V E where
  shards     := fun _ => .empty
  slots      := []
  calls      := fun _ => .idle
  executions := []
  returned   := []

def goto (s : System ι K V E) (i : ι) (phase : Phase K V E) : System ι K V E :=
  { s with calls := Function.update s.calls i phase }

def ret (s : System ι K V E) (i : ι) (key : K) (outcome : Outcome V E) : System ι K V E :=
  { s with returned := s.returned ++ [(key, outcome)] }.goto i .idle

def addRef (s : System ι K V E) (slot : Nat) : System ι K V E :=
  { s with slots := s.slots.modify slot fun x => { x with strongCount := x.strongCount + 1 } }

def dropRef (s : System ι K V E) (slot : Nat) : System ι K V E :=
  { s with slots := s.slots.modify slot fun x => { x with strongCount := x.strongCount - 1 } }

def stateOf (s : System ι K V E) (slot : Nat) : Option (SlotState V) :=
  s.slots[slot]?.map Slot.state

def removeEntry (s : System ι K V E) (shard : Nat) (e : K × Nat) : System ι K V E :=
  { s with shards := Function.update s.shards shard ((s.shards shard).delete (·.1 = e.1)) }.dropRef
    e.2

def unshared (s : System ι K V E) (e : K × Nat) : Bool :=
  s.slots[e.2]?.map Slot.strongCount == some 2

-- An entry without joiners is preferred.
def evict (s : System ι K V E) (shard : Nat) : Option (K × Nat) → Option (System ι K V E)
  | none   => if (s.shards shard).rows = [] then some s else none
  | some e =>
    if e ∈ (s.shards shard).rows ∧
      (s.unshared e ∨ ∀ e' ∈ (s.shards shard).rows, ¬s.unshared e') then
      some (s.removeEntry shard e)
    else none

def makeRoom (cfg : Config K E) (s : System ι K V E) (shard : Nat) (victim : Option (K × Nat)) :
    Option (System ι K V E) :=
  if (s.shards shard).rows.length ≥ cfg.maxEntriesPerShard then s.evict shard victim else some s

def insertSlot (s : System ι K V E) (shard : Nat) (key : K) : System ι K V E :=
  { s with
    shards := Function.update s.shards shard
      ((s.shards shard).insertOrIgnore (key, s.slots.length))
    slots  := s.slots ++ [⟨key, .pending, 2⟩] }

def lookup (cfg : Config K E) (s : System ι K V E) (i : ι) (key : K) (victim : Option (K × Nat)) :
    Option (System ι K V E) :=
  let shard := cfg.shardIndex key
  match (s.shards shard).get? key with
  | some e => some ((s.addRef e.2).goto i (.wait key e.2 (s.stateOf e.2 matches some .pending)))
  | none   => (s.makeRoom cfg shard victim).map fun s =>
    (s.insertSlot shard key).goto i (.lead key s.slots.length)

-- The entry is only removed if it has not been replaced.
def removeOwn (cfg : Config K E) (s : System ι K V E) (key : K) (slot : Nat) : System ι K V E :=
  let shard := cfg.shardIndex key
  if (s.shards shard).get? key = some (key, slot) then s.removeEntry shard (key, slot) else s

def step (cfg : Config K E) (s : System ι K V E) : Event ι K V E → Option (System ι K V E)
  | .call i key =>
    match s.calls i with
    | .idle => some (s.goto i (.lookup key))
    | _     => none
  | .lookup i victim =>
    match s.calls i with
    | .lookup key => s.lookup cfg i key victim
    | _           => none
  | .run i result =>
    match s.calls i with
    | .lead key slot     =>
      some ({ s with executions := s.executions ++ [(slot, key, result)] }.goto i
        (.complete key slot result))
    | .fallback key slot => some ((s.dropRef slot).ret i key result.outcome)
    | _                  => none
  | .complete i =>
    match s.calls i with
    | .complete key slot result =>
      some ({ s with slots := s.slots.modify slot fun x => { x with
        state := cfg.slotState result } }.goto i
        (.remove key slot result))
    | _ => none
  | .remove i =>
    match s.calls i with
    | .remove key slot result =>
      some (((s.removeOwn cfg key slot).dropRef slot).ret i key result.outcome)
    | _ => none
  | .wake i =>
    match s.calls i with
    | .wait key slot wasPending =>
      match s.stateOf slot with
      | some (.ready value) => some ((s.dropRef slot).ret i key (.joined value slot wasPending))
      | some (.failed _)    => some (s.goto i (.fallback key slot))
      | _                   => none
    | _ => none
  | .timeout i =>
    match s.calls i with
    | .wait key slot _ =>
      match s.stateOf slot with
      | some .pending => some (s.goto i (.fallback key slot))
      | _             => none
    | _ => none

-- No entry that a call finds belongs to a leader that has completed its slot.
def InFlight (cfg : Config K E) (s : System ι K V E) : Event ι K V E → Prop
  | .lookup i _ =>
    ∀ key ∈ (s.calls i).looksUp, ∀ e ∈ (s.shards (cfg.shardIndex key)).get? key,
      ∀ j, (s.calls j).completed ≠ some e.2
  | _ => True

instance [Fintype ι] (cfg : Config K E) (s : System ι K V E) : ∀ e, Decidable (s.InFlight cfg e)
  | .lookup i _   => inferInstanceAs (Decidable (∀ key ∈ (s.calls i).looksUp,
      ∀ e ∈ (s.shards (cfg.shardIndex key)).get? key, ∀ j, (s.calls j).completed ≠ some e.2))
  | .call _ _     => isTrue trivial
  | .run _ _      => isTrue trivial
  | .complete _   => isTrue trivial
  | .remove _     => isTrue trivial
  | .wake _       => isTrue trivial
  | .timeout _    => isTrue trivial

end System

namespace System

variable {ι K V E : Type}

-- A value that has been joined comes from an execution for the same key, which had not completed
-- when its slot has been looked up.
def JoinedInFlight (s : System ι K V E) : Prop :=
  ∀ key value slot (wasPending : Bool), (key, .joined value slot wasPending) ∈ s.returned →
    wasPending ∧ (slot, key, .ok value) ∈ s.executions

def Owned (s : System ι K V E) : Prop :=
  ∀ shard, ∀ e ∈ (s.shards shard).rows, ∃ i, (s.calls i).leads = some e

def Bounded (cfg : Config K E) (s : System ι K V E) : Prop :=
  ∀ shard, (s.shards shard).rows.length ≤ max cfg.maxEntriesPerShard 1

def Drained (s : System ι K V E) : Prop :=
  (∀ i, s.calls i = .idle) → ∀ shard, (s.shards shard).rows = []

end System
end Coalesce
