import AgentMail.Lib.Saturating

namespace EventRing

def lowSeverityEvictScanLimit : Nat := 64

inductive EventSeverity
  | trace
  | debug
  | info
  | warn
  | error
  deriving DecidableEq

namespace EventSeverity

def rank : EventSeverity → Nat
  | trace => 0
  | debug => 1
  | info  => 2
  | warn  => 3
  | error => 4

-- The derived order of the variants.
instance : LT EventSeverity where
  lt s s' := s.rank < s'.rank

instance : LE EventSeverity where
  le s s' := s.rank ≤ s'.rank

instance {s s' : EventSeverity} : Decidable (s < s') :=
  inferInstanceAs (Decidable (s.rank < s'.rank))

instance {s s' : EventSeverity} : Decidable (s ≤ s') :=
  inferInstanceAs (Decidable (s.rank ≤ s'.rank))

theorem not_lt {s s' : EventSeverity} : ¬s < s' ↔ s' ≤ s :=
  Nat.not_lt

end EventSeverity

inductive MailEventKind
  | toolCallStart
  | toolCallEnd
  | messageSent
  | messageReceived
  | reservationGranted
  | reservationReleased
  | agentRegistered
  | httpRequest (status : Nat)
  | healthPulse
  | serverStarted
  | serverShutdown
  deriving DecidableEq

structure MailEvent where
  seq             : Nat
  timestampMicros : Int
  kind            : MailEventKind
  deriving DecidableEq

namespace MailEvent

variable (event : MailEvent)

def severity : EventSeverity :=
  match event.kind with
  | .toolCallStart             => .trace
  | .healthPulse | .toolCallEnd => .debug
  | .messageSent | .messageReceived | .reservationGranted | .reservationReleased | .agentRegistered
  | .serverStarted             => .info
  | .httpRequest status        => if status ≥ 500 then .error else if status ≥ 400 then .warn
    else .debug
  | .serverShutdown            => .warn

def setSeq (seq : Nat) : MailEvent :=
  { event with seq }

def setTimestampIfUnset (timestampMicros : Int) : MailEvent :=
  if event.timestampMicros > 0 then event else { event with timestampMicros }

end MailEvent

structure BackpressurePolicy where
  thresholdPct : Nat
  sampleRate   : Nat

structure EventRingStats where
  capacity        : Nat
  len             : Nat
  totalPushed     : Nat
  droppedOverflow : Nat
  contentionDrops : Nat
  sampledDrops    : Nat
  nextSeq         : Nat

structure EventRingBuffer where
  events          : List MailEvent
  capacity        : Nat
  nextSeq         : Nat
  totalPushed     : Nat
  contentionDrops : Nat
  sampledDrops    : Nat
  sampleCounter   : Nat
  policy          : BackpressurePolicy

namespace EventRingBuffer

def withCapacityAndPolicy (capacity : Nat) (policy : BackpressurePolicy) : EventRingBuffer where
  events          := []
  capacity        := max capacity 1
  nextSeq         := 1
  totalPushed     := 0
  contentionDrops := 0
  sampledDrops    := 0
  sampleCounter   := 0
  policy          := ⟨min policy.thresholdPct 100, max policy.sampleRate 1⟩

variable (ring : EventRingBuffer)

-- The oldest event of low severity among the first, and the oldest of all if there is none.
def dropIdx : Nat :=
  let scanLimit := min ring.events.length lowSeverityEvictScanLimit
  ((ring.events.take scanLimit).findIdx? (·.severity < .info)).getD 0

def evict : List MailEvent :=
  if ring.events.length ≥ ring.capacity then
    if ring.dropIdx = 0 then ring.events.tail else ring.events.eraseIdx ring.dropIdx
  else
    ring.events

def pushInner (event : MailEvent) (nowMicros : Int) : Nat × EventRingBuffer :=
  let seq := ring.nextSeq
  let event := (event.setSeq seq).setTimestampIfUnset nowMicros
  let ring := {
    ring with
    nextSeq     := U64.saturate (ring.nextSeq + 1)
    events      := ring.evict ++ [event]
    totalPushed := U64.saturate (ring.totalPushed + 1)
  }
  (seq, ring)

def push (event : MailEvent) (nowMicros : Int) : Nat × EventRingBuffer :=
  ring.pushInner event nowMicros

def fillPct : Nat :=
  if ring.capacity = 0 then 100
    else min (U64.saturate (ring.events.length * 100) / ring.capacity) 100

-- `fetch_add` wraps around.
def shouldSample (event : MailEvent) : Bool × EventRingBuffer :=
  if ring.fillPct < ring.policy.thresholdPct then
    (false, ring)
  else if event.severity ≥ .info then
    (false, ring)
  else
    let counter := ring.sampleCounter
    (¬ring.policy.sampleRate ∣ counter, { ring with sampleCounter := (counter + 1) % 2 ^ 64 })

def tryPush (event : MailEvent) (nowMicros : Int) (contended : Bool) :
    Except MailEvent Nat × EventRingBuffer :=
  if contended then
    (.error event, { ring with contentionDrops := (ring.contentionDrops + 1) % 2 ^ 64 })
  else
    match ring.shouldSample event with
    | (true, ring)  =>
      (.error event, { ring with sampledDrops := (ring.sampledDrops + 1) % 2 ^ 64 })
    | (false, ring) => (ring.pushInner event nowMicros).map .ok id

def collectEventsSinceSeq (seq : Nat) : List MailEvent → List MailEvent → List MailEvent
  | out, []             => out.reverse
  | out, event :: older =>
    if event.seq ≤ seq then out.reverse else collectEventsSinceSeq seq (out ++ [event]) older

def eventsSinceSeq (seq : Nat) : List MailEvent :=
  collectEventsSinceSeq seq [] ring.events.reverse

-- Newest to oldest, with the oldest `limit` of those seen so far.
def selectRev (seq limit : Nat) : List MailEvent → List MailEvent → List MailEvent
  | selected, []             => selected
  | selected, event :: older =>
    if event.seq ≤ seq then
      selected
    else
      selectRev seq limit ((if selected.length = limit then selected.tail else selected) ++ [event])
        older

def collectEventsSinceSeqLimited (events : List MailEvent) (seq limit : Nat) : List MailEvent :=
  if events.getLast?.all (·.seq ≤ seq) then
    []
  else
    (selectRev seq limit [] events.reverse).reverse

def eventsSinceSeqLimited (seq limit : Nat) : List MailEvent :=
  if limit = 0 then [] else collectEventsSinceSeqLimited ring.events seq limit

def stats : EventRingStats where
  capacity        := ring.capacity
  len             := ring.events.length
  totalPushed     := ring.totalPushed
  droppedOverflow := ring.totalPushed - ring.events.length
  contentionDrops := ring.contentionDrops
  sampledDrops    := ring.sampledDrops
  nextSeq         := ring.nextSeq

end EventRingBuffer

inductive Call
  | push (event : MailEvent) (nowMicros : Int)
  | tryPush (event : MailEvent) (nowMicros : Int) (contended : Bool)
  | poll (limit : Nat)

-- A ring, what the calls have returned, and a poller that asks for what follows the last event it
-- has received.
structure Session where
  ring     : EventRingBuffer
  pushed   : List Nat
  evicted  : List MailEvent
  cursor   : Nat
  received : List MailEvent

namespace Session

def start (capacity : Nat) (policy : BackpressurePolicy) (cursor : Nat) : Session where
  ring     := .withCapacityAndPolicy capacity policy
  pushed   := []
  evicted  := []
  cursor   := cursor
  received := []

variable (s : Session)

-- `seq?` has been returned, and the events that `ring` has lost are evicted.
def moveTo (seq? : Option Nat) (ring : EventRingBuffer) : Session :=
  {
    s with
    ring
    pushed  := s.pushed ++ seq?.toList
    evicted := s.evicted ++ s.ring.events.filter (· ∉ ring.events)
  }

def receive (events : List MailEvent) : Session :=
  {
    s with
    cursor   := (events.getLast?.map (·.seq)).getD s.cursor
    received := s.received ++ events
  }

def step : Call → Session
  | .push event nowMicros              =>
    let (seq, ring) := s.ring.push event nowMicros; s.moveTo seq ring
  | .tryPush event nowMicros contended =>
    let (result, ring) := s.ring.tryPush event nowMicros contended
    s.moveTo result.toOption ring
  | .poll limit                        => s.receive (s.ring.eventsSinceSeqLimited s.cursor limit)

def after (calls : List Call) : Session :=
  calls.foldl step s

structure Orderly (first : Nat) : Prop where
  sorted     : (s.ring.events.map (·.seq)).Pairwise (· < ·)
  bounded    : s.ring.stats.len ≤ s.ring.stats.capacity
  dropped    : s.ring.stats.droppedOverflow = s.evicted.length
  since      : ∀ seq, s.ring.eventsSinceSeq seq = s.ring.events.filter (seq < ·.seq)
  limited    : ∀ seq limit,
    s.ring.eventsSinceSeqLimited seq limit = (s.ring.events.filter (seq < ·.seq)).take limit
  increasing : (first :: s.received.map (·.seq)).Pairwise (· < ·)
  -- What a poll passes over has been evicted before it.
  missed     : ∀ limit, ∀ seq ∈ s.pushed, s.cursor < seq → seq ≤ (s.step (.poll limit)).cursor →
    seq ∈ (s.ring.eventsSinceSeqLimited s.cursor limit).map (·.seq) ∨ seq ∈ s.evicted.map (·.seq)
  covered    : ∀ seq ∈ s.pushed, first < seq → seq ≤ s.cursor →
    seq ∈ s.received.map (·.seq) ∨ seq ∈ s.evicted.map (·.seq)
  spared     : ∀ call, ∀ event ∈ s.ring.events,
    event ∉ (s.step call).ring.events → .info ≤ event.severity →
    ∀ older ∈ s.ring.events.take lowSeverityEvictScanLimit, ¬older.severity < .info

end Session

end EventRing
