import Mathlib.Logic.Function.Basic
import Mathlib.Tactic.Common
import AgentMail.Lib.Run

namespace WriteBehind

def wbqChannelCapacity : Nat :=
  8192

def wbqDrainBatchCap : Nat :=
  256

-- `DiskPressure::Critical.as_u64()`
def diskPressureCritical : Nat :=
  2

inductive EnqueueResult
  | enqueued
  | queueUnavailable
  | skippedDiskCritical
  deriving DecidableEq

-- The calls of a thread are numbered.
structure Call (ι : Type) where
  caller : ι
  seq    : Nat
  deriving DecidableEq

def Call.Before {ι : Type} (a b : Call ι) : Prop :=
  a.caller = b.caller → a.seq < b.seq

structure Envelope (ι ω : Type) where
  call : Call ι
  op   : ω

-- A flush has the channel on which it is to be acknowledged, which its call has created.
inductive Msg (ι ω : Type)
  | op (x : Envelope ι ω)
  | flush (done : Call ι)
  | shutdown

namespace Msg

variable {ι ω : Type}

def op? : Msg ι ω → Option (Envelope ι ω)
  | op x => some x
  | _    => none

def call? : Msg ι ω → Option (Call ι)
  | op x       => some x.call
  | flush done => some done
  | shutdown   => none

end Msg

-- An operation that has been executed, or skipped as there was no space left on the disk.
structure Execution (ι ω : Type) where
  envelope : Envelope ι ω
  skipped  : Bool

-- A drain thread in front of its next atomic step. It is either in its loop, or it iterates over
-- what is left in the channel, or it drops the receiver.
inductive Drain (ι ω : Type)
  | recv
  | timeout
  | fill (batch : List (Envelope ι ω))
  | count (batch : List (Envelope ι ω))
  | execute (batch : List (Envelope ι ω))
  | ack
  | iter
  | iterCount (x : Envelope ι ω)
  | iterExecute (x : Envelope ι ω)
  | iterAck (done : Call ι)
  | drop
  | finished

namespace Drain

variable {ι ω : Type}

def isFinished : Drain ι ω → Bool
  | finished => true
  | _        => false

def isDrop : Drain ι ω → Bool
  | drop => true
  | _    => false

-- Operations that have been received and have not been executed.
def held : Drain ι ω → List (Envelope ι ω)
  | fill batch    => batch
  | count batch   => batch
  | execute batch => batch
  | iterCount x   => [x]
  | iterExecute x => [x]
  | _             => []

-- Operations that have been received and have not been subtracted from the depth.
def uncounted : Drain ι ω → List (Envelope ι ω)
  | fill batch  => batch
  | count batch => batch
  | iterCount x => [x]
  | _           => []

def acks : Drain ι ω → Option (Call ι)
  | iterAck done => some done
  | _            => none

-- How much the next step subtracts from the depth.
def decrement : Drain ι ω → Nat
  | count batch => batch.length
  | iterCount _ => 1
  | _           => 0

end Drain

-- A channel with the drain thread that receives from it.
structure Channel (ι ω : Type) where
  queue        : List (Msg ι ω)
  drain        : Drain ι ω
  flushWaiters : List (Call ι)
  shuttingDown : Bool

-- The depth, and the history of all channels: what has been sent, executed and acknowledged.
structure Ledger (ι ω : Type) where
  opDepth  : Nat
  sent     : List (Msg ι ω)
  executed : List (Execution ι ω)
  acked    : List (Call ι)

namespace Ledger

variable {ι ω : Type}

def new : Ledger ι ω where
  opDepth  := 0
  sent     := []
  executed := []
  acked    := []

def accepted (l : Ledger ι ω) : List (Envelope ι ω) :=
  l.sent.filterMap Msg.op?

def executedOps (l : Ledger ι ω) : List (Envelope ι ω) :=
  l.executed.map Execution.envelope

def calls (l : Ledger ι ω) : List (Call ι) :=
  l.sent.filterMap Msg.call?

def send (l : Ledger ι ω) (m : Msg ι ω) : Ledger ι ω :=
  { l with sent := l.sent ++ [m] }

def execute (l : Ledger ι ω) (x : Envelope ι ω) (skipped : Bool) : Ledger ι ω :=
  { l with executed := l.executed ++ [⟨x, skipped⟩] }

def ack (l : Ledger ι ω) (done : Call ι) : Ledger ι ω :=
  { l with acked := l.acked ++ [done] }

-- `wbq_record_enqueue_success`
def record (l : Ledger ι ω) : Ledger ι ω :=
  { l with opDepth := l.opDepth + 1 }

def subtract (l : Ledger ι ω) (n : Nat) : Ledger ι ω :=
  { l with opDepth := l.opDepth - n }

end Ledger

namespace Channel

variable {ι ω : Type}

def new : Channel ι ω where
  queue        := []
  drain        := .recv
  flushWaiters := []
  shuttingDown := false

-- There is no receiver.
def closed : Channel ι ω where
  queue        := []
  drain        := .finished
  flushWaiters := []
  shuttingDown := false

def ops (ch : Channel ι ω) : List (Envelope ι ω) :=
  ch.queue.filterMap Msg.op?

def pending (ch : Channel ι ω) : List (Envelope ι ω) :=
  ch.drain.held ++ ch.ops

def push (ch : Channel ι ω) (m : Msg ι ω) : Channel ι ω :=
  { ch with queue := ch.queue ++ [m] }

-- A message that is received in the loop of the drain thread is put into a batch or remembered.
def receive (ch : Channel ι ω) (batch : List (Envelope ι ω)) (queue : List (Msg ι ω)) :
    Msg ι ω → Channel ι ω
  | .op x       => { ch with queue, drain := .fill (batch ++ [x]) }
  | .flush done =>
    { ch with queue, drain := .fill batch, flushWaiters := ch.flushWaiters ++ [done] }
  | .shutdown   => { ch with queue, drain := .fill batch, shuttingDown := true }

-- `wbq_drain_loop`. The receiver finds out when there are no senders left.
def step (ch : Channel ι ω) (l : Ledger ι ω) (senders : Nat) (critical : Bool) :
    Option (Channel ι ω × Ledger ι ω) :=
  match ch.drain with
  | .recv =>
    match ch.queue with
    | m :: queue => some (ch.receive [] queue m, l)
    | []         =>
      if senders = 0 then some ({ ch with drain := .iter }, l)
        else some ({ ch with drain := .timeout }, l)
  | .timeout =>
    match ch.flushWaiters with
    | done :: waiters => some ({ ch with flushWaiters := waiters }, l.ack done)
    | []              => some ({ ch with drain := .recv }, l)
  | .fill batch =>
    match ch.queue with
    | m :: queue =>
      if batch.length < wbqDrainBatchCap then some (ch.receive batch queue m, l)
      else some ({ ch with drain := .count batch }, l)
    | []         => some ({ ch with drain := .count batch }, l)
  | .count batch => some ({ ch with drain := .execute batch }, l.subtract batch.length)
  | .execute (x :: batch) => some ({ ch with drain := .execute batch }, l.execute x critical)
  | .execute [] => some ({ ch with drain := .ack }, l)
  | .ack =>
    match ch.flushWaiters with
    | done :: waiters => some ({ ch with flushWaiters := waiters }, l.ack done)
    | []              =>
      if ch.shuttingDown then some ({ ch with drain := .iter }, l)
        else some ({ ch with drain := .recv }, l)
  | .iter =>
    match ch.queue with
    | .op x :: queue       => some ({ ch with queue, drain := .iterCount x }, l)
    | .flush done :: queue => some ({ ch with queue, drain := .iterAck done }, l)
    | .shutdown :: queue   => some ({ ch with queue }, l)
    | []                   => some ({ ch with drain := .drop }, l)
  | .iterCount x => some ({ ch with drain := .iterExecute x }, l.subtract 1)
  | .iterExecute x => some ({ ch with drain := .iter }, l.execute x critical)
  | .iterAck done => some ({ ch with drain := .iter }, l.ack done)
  | .drop => some ({ ch with queue := [], drain := .finished }, l)
  | .finished => none

end Channel

structure Request (ω : Type) where
  op           : ω
  diskPressure : Nat

-- A thread in front of its next atomic step in `wbq_start_inner` (with what is to be enqueued
-- then), in `wbq_enqueue`, in `wbq_flush` (which may be the first part of a shutdown) or in
-- `wbq_shutdown`.
inductive Phase (ω : Type)
  | idle
  | lock (r : Option (Request ω))
  | check (r : Option (Request ω))
  | spawn (r : Option (Request ω))
  | publish (r : Option (Request ω)) (c : Nat)
  | register (r : Option (Request ω)) (c : Nat)
  | clone (r : Request ω)
  | send (c : Nat) (op : ω) (retrying : Bool)
  | record (c : Nat)
  | flushClone (stop : Bool)
  | flushSend (stop : Bool) (c : Nat)
  | flushWait (stop : Bool) (c : Nat)
  | stopLock
  | stopSend (c : Nat)
  | stopClear
  | stopTake
  | stopJoin (c : Nat)

namespace Phase

variable {ω : Type}

def afterStart : Option (Request ω) → Phase ω
  | none   => idle
  | some r => clone r

-- The thread holds the lock `lifecycle`.
def isCritical : Phase ω → Bool
  | check _        => true
  | spawn _        => true
  | publish _ _    => true
  | register _ _   => true
  | flushClone stop  => stop
  | flushSend stop _ => stop
  | flushWait stop _ => stop
  | stopSend _     => true
  | stopClear      => true
  | stopTake       => true
  | stopJoin _     => true
  | _              => false

-- The channel whose drain thread is known only to the thread.
def keeps : Phase ω → Option Nat
  | publish _ c  => some c
  | register _ c => some c
  | stopJoin c   => some c
  | _            => none

-- The channel to which the thread is about to send an operation.
def sends : Phase ω → Option Nat
  | send c _ _ => some c
  | _          => none

-- The message of the call may still be sent.
def isUnsent : Phase ω → Bool
  | lock _        => true
  | check _       => true
  | spawn _       => true
  | publish _ _   => true
  | register _ _  => true
  | clone _       => true
  | send _ _ _    => true
  | flushClone _  => true
  | flushSend _ _ => true
  | stopLock      => true
  | _             => false

-- The thread has sent an operation that it has not counted.
def isRecord : Phase ω → Bool
  | record _ => true
  | _        => false

end Phase

inductive Event (ι ω : Type)
  | start (i : ι)
  | enqueue (i : ι) (r : Request ω)
  | flush (i : ι)
  | shutdown (i : ι)
  | advance (i : ι) (expired : Bool)
  | drain (c : Nat) (critical : Bool)

def Event.isDrain {ι ω : Type} : Event ι ω → Bool
  | drain _ _ => true
  | _         => false

-- Channels are numbered in the order in which they have been created.
structure System (ι ω : Type) where
  threads     : ι → Phase ω
  calls       : ι → Nat
  results     : ι → Nat → Option EnqueueResult
  lifecycle   : Option ι
  sender      : Option Nat
  drainHandle : Option Nat
  senders     : Nat → Nat
  channels    : Nat → Channel ι ω
  spawned     : Nat
  ledger      : Ledger ι ω

namespace System

variable {ι ω : Type}

def init : System ι ω where
  threads     := fun _ => .idle
  calls       := fun _ => 0
  results     := fun _ _ => none
  lifecycle   := none
  sender      := none
  drainHandle := none
  senders     := fun _ => 0
  channels    := fun _ => .closed
  spawned     := 0
  ledger      := .new

def addSender (s : System ι ω) (c : Nat) : System ι ω :=
  { s with senders := Function.update s.senders c (s.senders c + 1) }

def dropSender (s : System ι ω) (c : Nat) : System ι ω :=
  { s with senders := Function.update s.senders c (s.senders c - 1) }

def setSender (s : System ι ω) (sender : Option Nat) : System ι ω :=
  match s.sender with
  | none   => { s with sender }
  | some c => { s.dropSender c with sender }

def setChannel (s : System ι ω) (c : Nat) (ch : Channel ι ω) : System ι ω :=
  { s with channels := Function.update s.channels c ch }

def addChannel (s : System ι ω) : System ι ω :=
  { s.setChannel s.spawned .new with
    senders := Function.update s.senders s.spawned 1
    spawned := s.spawned + 1 }

def push (s : System ι ω) (c : Nat) (m : Msg ι ω) : System ι ω :=
  { s.setChannel c ((s.channels c).push m) with ledger := s.ledger.send m }

variable [DecidableEq ι]

def goto (s : System ι ω) (i : ι) (p : Phase ω) : System ι ω :=
  { s with threads := Function.update s.threads i p }

def finish (s : System ι ω) (i : ι) (r : EnqueueResult) : System ι ω :=
  { s with
    threads := Function.update s.threads i .idle
    results := Function.update s.results i (Function.update (s.results i) (s.calls i) (some r)) }

def unlock (s : System ι ω) : System ι ω :=
  { s with lifecycle := none }

def lock (s : System ι ω) (i : ι) (p : Phase ω) : Option (System ι ω) :=
  match s.lifecycle with
  | none   => some ({ s with lifecycle := some i }.goto i p)
  | some _ => none

-- After the deadline, `wbq_enqueue` gives up when the channel is full.
def advance (s : System ι ω) (i : ι) (expired : Bool) : Phase ω → Option (System ι ω)
  | .idle => none
  | .lock r => s.lock i (.check r)
  | .check r =>
    match s.drainHandle with
    | none   => some (s.goto i (.spawn r))
    | some c =>
      if (s.channels c).drain.isFinished then
        some ({ s with drainHandle := none }.goto i (.spawn r))
      else some (s.unlock.goto i (.afterStart r))
  | .spawn r => some (s.addChannel.goto i (.publish r s.spawned))
  | .publish r c => some ((s.setSender (some c)).goto i (.register r c))
  | .register r c => some ({ s.unlock with drainHandle := some c }.goto i (.afterStart r))
  | .clone r =>
    match s.sender with
    | none   => some (s.finish i .queueUnavailable)
    | some c =>
      if r.diskPressure ≥ diskPressureCritical then some (s.finish i .skippedDiskCritical)
      else some ((s.addSender c).goto i (.send c r.op false))
  | .send c op retrying =>
    if (s.channels c).drain.isFinished then some ((s.dropSender c).finish i .queueUnavailable)
    else if (s.channels c).queue.length < wbqChannelCapacity then
      some ((s.push c (.op ⟨⟨i, s.calls i⟩, op⟩)).goto i (.record c))
    else if retrying ∧ expired then some ((s.dropSender c).finish i .queueUnavailable)
    else some (s.goto i (.send c op true))
  | .record c => some (({ s with ledger := s.ledger.record }.dropSender c).finish i .enqueued)
  | .flushClone stop =>
    match s.sender with
    | none   => some (s.goto i (if stop then .stopClear else .idle))
    | some c => some ((s.addSender c).goto i (.flushSend stop c))
  | .flushSend stop c =>
    if (s.channels c).drain.isFinished then
      if stop then some (s.goto i (.stopSend c)) else some ((s.dropSender c).goto i .idle)
    else if (s.channels c).queue.length < wbqChannelCapacity then
      some ((s.push c (.flush ⟨i, s.calls i⟩)).goto i (.flushWait stop c))
    else none
  | .flushWait stop c =>
    if (s.channels c).drain.isFinished ∨ ⟨i, s.calls i⟩ ∈ s.ledger.acked ∨ expired then
      if stop then some (s.goto i (.stopSend c)) else some ((s.dropSender c).goto i .idle)
    else none
  | .stopLock => s.lock i (.flushClone true)
  | .stopSend c =>
    if (s.channels c).drain.isFinished then some ((s.dropSender c).goto i .stopClear)
    else if (s.channels c).queue.length < wbqChannelCapacity then
      some (((s.push c .shutdown).dropSender c).goto i .stopClear)
    else none
  | .stopClear => some ((s.setSender none).goto i .stopTake)
  | .stopTake =>
    match s.drainHandle with
    | none   => some (s.unlock.goto i .idle)
    | some c => some ({ s with drainHandle := none }.goto i (.stopJoin c))
  | .stopJoin c => if (s.channels c).drain.isFinished then some (s.unlock.goto i .idle) else none

def call (s : System ι ω) (i : ι) (p : Phase ω) : Option (System ι ω) :=
  match s.threads i with
  | .idle => some ({ s with calls := Function.update s.calls i (s.calls i + 1) }.goto i p)
  | _     => none

def step (s : System ι ω) : Event ι ω → Option (System ι ω)
  | .start i => s.call i (.lock none)
  | .enqueue i r => s.call i (.lock (some r))
  | .flush i => s.call i (.flushClone false)
  | .shutdown i => s.call i .stopLock
  | .advance i expired => s.advance i expired (s.threads i)
  | .drain c critical =>
    match (s.channels c).step s.ledger (s.senders c) critical with
    | none         => none
    | some (ch, l) => some { s.setChannel c ch with ledger := l }

-- The channel that has been created last.
def current (s : System ι ω) : Channel ι ω :=
  s.channels (s.spawned - 1)

-- Every operation for which a call has returned `Enqueued` is executed once, or it will be, and
-- those of one thread are executed in their order. Acknowledged flushes are barriers, and the drain
-- thread can execute what is pending on its own.
structure Delivers (s : System ι ω) : Prop where
  conserved : s.ledger.accepted = s.ledger.executedOps ++ s.current.pending
  once      : ∀ i n, s.results i n = some .enqueued →
    ((s.ledger.executedOps ++ s.current.pending).map Envelope.call).count ⟨i, n⟩ = 1
  refused   : ∀ i n r, s.results i n = some r → r ≠ .enqueued →
    ⟨i, n⟩ ∉ s.ledger.accepted.map Envelope.call
  ordered   : (s.ledger.executedOps.map Envelope.call).Pairwise Call.Before
  barrier   : ∀ done ∈ s.ledger.acked, ∀ pre post, s.ledger.sent = pre ++ .flush done :: post →
    ∀ x ∈ pre.filterMap Msg.op?, x ∈ s.ledger.executedOps
  drains    : ∃ es s', (∀ e ∈ es, e.isDrain) ∧ run step s es = some s' ∧
    s'.ledger.executedOps = s.ledger.accepted

-- When no thread is about to count an operation and there is no batch that has not been subtracted,
-- the depth is the number of operations in the channel.
def Gauged (s : System ι ω) : Prop :=
  (∀ i, (s.threads i).isRecord = false) → s.current.drain.uncounted = [] →
    s.ledger.opDepth = s.current.ops.length

-- No operation is sent to a channel that has been found empty for the last time, but that still has
-- a receiver.
def Timely (s : System ι ω) : Event ι ω → Prop
  | .advance i _ => ∀ c ∈ (s.threads i).sends, (s.channels c).drain.isDrop = false
  | _            => True

-- The depth is not smaller than what is subtracted from it.
def Counted (s : System ι ω) : Event ι ω → Prop
  | .drain c _ => (s.channels c).drain.decrement ≤ s.ledger.opDepth
  | _          => True

instance (s : System ι ω) : ∀ e, Decidable (s.Timely e)
  | .advance i _ => inferInstanceAs (Decidable
      (∀ c ∈ (s.threads i).sends, (s.channels c).drain.isDrop = false))
  | .start _     => isTrue trivial
  | .enqueue _ _ => isTrue trivial
  | .flush _     => isTrue trivial
  | .shutdown _  => isTrue trivial
  | .drain _ _   => isTrue trivial

instance (s : System ι ω) : ∀ e, Decidable (s.Counted e)
  | .drain c _   => inferInstanceAs (Decidable ((s.channels c).drain.decrement ≤ s.ledger.opDepth))
  | .start _     => isTrue trivial
  | .enqueue _ _ => isTrue trivial
  | .flush _     => isTrue trivial
  | .shutdown _  => isTrue trivial
  | .advance _ _ => isTrue trivial

end System
end WriteBehind
