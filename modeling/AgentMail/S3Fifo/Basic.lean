import AgentMail.Lib.Tombstone

open Function (update)

namespace S3Fifo

variable {κ υ : Type} [DecidableEq κ]

inductive Kind
  | small
  | main
  | ghost
  deriving DecidableEq

-- An entry of the index. The sequence number ties the node to its entry in the queue of its kind.
inductive Node (υ : Type)
  | small (value : υ) (freq seq : Nat)
  | main  (value : υ) (freq seq : Nat)
  | ghost (seq : Nat)
  deriving DecidableEq

namespace Node

def kind : Node υ → Kind
  | small .. => .small
  | main ..  => .main
  | ghost _  => .ghost

def seq : Node υ → Nat
  | small _ _ s | main _ _ s | ghost s => s

def freq : Node υ → Nat
  | small _ f _ | main _ f _ => f
  | ghost _                  => 0

-- Ghosts are metadata only, they are not visible to callers.
def value? : Node υ → Option υ
  | small v _ _ | main v _ _ => some v
  | ghost _                  => none

-- What a hit does to a node: `write` goes through the returned reference, and the 2-bit frequency
-- counter saturates at 3.
def hit (write : υ → υ) : Node υ → Node υ
  | small v f s => small (write v) (min (f + 1) 3) s
  | main v f s  => main (write v) (min (f + 1) 3) s
  | ghost s     => ghost s

end Node

-- The sequence number under which a key is currently queued in the queue of the given kind.
def stamp (index : κ → Option (Node υ)) (kind : Kind) (key : κ) : Option Nat :=
  (index key).bind fun n => if n.kind = kind then some n.seq else none

-- `VecDeque`s are lists with the front as head, and the `HashMap` is the function it represents.
-- The generator of sequence numbers is unbounded.
structure S3FifoCache (κ υ : Type) where
  small          : List (κ × Nat)
  main           : List (κ × Nat)
  ghost          : List (κ × Nat)
  index          : κ → Option (Node υ)
  smallCapacity  : Nat
  mainCapacity   : Nat
  ghostCapacity  : Nat
  seqGen         : Nat
  smallLiveCount : Nat
  mainLiveCount  : Nat
  ghostLiveCount : Nat

def S3FifoCache.queue (c : S3FifoCache κ υ) : Kind → List (κ × Nat)
  | .small => c.small
  | .main  => c.main
  | .ghost => c.ghost

-- `n -= 1` on a `usize`, where `none` is the overflow.
def decr : Nat → Option Nat
  | 0     => none
  | n + 1 => some n

def usizeMax : Nat := 2 ^ 64 - 1

def saturatingMul (m n : Nat) : Nat :=
  min (m * n) usizeMax

namespace S3FifoCache

-- The `assert!` on the capacity is the `none` case.
def new (capacity : Nat) : Option (S3FifoCache κ υ) :=
  if 0 < capacity then
    let smallCap := max (capacity / 10) 1
    some {
      small := [], main := [], ghost := []
      index := fun _ => none
      smallCapacity := smallCap
      mainCapacity := capacity - smallCap
      ghostCapacity := capacity
      seqGen := 0
      smallLiveCount := 0, mainLiveCount := 0, ghostLiveCount := 0
    }
  else
    none

-- Tombstones are compacted once the queue has outgrown its capacity. This is the common start of
-- the three eviction routines.
def compact (c : S3FifoCache κ υ) (kind : Kind) (capacity : Nat) (queue : List (κ × Nat)) :
    List (κ × Nat) :=
  if queue.length > max (saturatingMul capacity 4) 4 then
    queue.filter fun e => stamp c.index kind e.1 = some e.2
  else
    queue

def peek (c : S3FifoCache κ υ) (key : κ) : Option υ :=
  (c.index key).bind Node.value?

def containsKey (c : S3FifoCache κ υ) (key : κ) : Bool :=
  (c.peek key).isSome

-- The second component is the cache after `write` has gone through the returned reference.
def getMut (c : S3FifoCache κ υ) (key : κ) (write : υ → υ) : Option υ × S3FifoCache κ υ :=
  match c.index key with
  | some n =>
    match n.value? with
    | some v => (some v, { c with index := update c.index key (n.hit write) })
    | none   => (none, c)
  | none => (none, c)

def get (c : S3FifoCache κ υ) (key : κ) : Option υ × S3FifoCache κ υ :=
  c.getMut key id

-- The loop only pops from `ghost`, so it recurses over that queue.
def evictGhostLoop : List (κ × Nat) → S3FifoCache κ υ → Option (S3FifoCache κ υ)
  | [], c => some { c with ghost := [] }
  | (key, expectedSeq) :: rest, c =>
    if c.ghostLiveCount ≥ c.ghostCapacity then
      if stamp c.index .ghost key = some expectedSeq then do
        let live ← decr c.ghostLiveCount
        evictGhostLoop rest { c with index := update c.index key none, ghostLiveCount := live }
      else
        evictGhostLoop rest c
    else
      some { c with ghost := (key, expectedSeq) :: rest }

def evictGhostIfFull (c : S3FifoCache κ υ) : Option (S3FifoCache κ υ) :=
  evictGhostLoop (c.compact .ghost c.ghostCapacity c.ghost) c

-- Without a Main queue every live entry is dropped.
def drainMainLoop : List (κ × Nat) → S3FifoCache κ υ → Option (S3FifoCache κ υ)
  | [], c => some { c with main := [] }
  | (key, expectedSeq) :: rest, c =>
    if stamp c.index .main key = some expectedSeq then do
      let live ← decr c.mainLiveCount
      drainMainLoop rest { c with index := update c.index key none, mainLiveCount := live }
    else
      drainMainLoop rest c

-- Entries that have been accessed are queued again, so the recursion is over the budget.
def evictMainLoop : Nat → S3FifoCache κ υ → Option (S3FifoCache κ υ)
  | 0, c => some c
  | budget + 1, c =>
    if c.mainLiveCount ≥ c.mainCapacity then
      match c.main with
      | [] => some c
      | (key, expectedSeq) :: rest =>
        match c.index key with
        | some (.main value freq seq) =>
          if seq = expectedSeq then do
            let live ← decr c.mainLiveCount
            if freq ≥ 1 then
              let newSeq := c.seqGen + 1
              evictMainLoop budget { c with
                seqGen := newSeq
                main := rest ++ [(key, newSeq)]
                index := update c.index key (some <| .main value (freq - 1) newSeq)
                mainLiveCount := live + 1
              }
            else
              evictMainLoop budget { c with
                main := rest
                index := update c.index key none
                mainLiveCount := live
              }
          else
            evictMainLoop budget { c with main := rest }
        | _ => evictMainLoop budget { c with main := rest }
    else
      some c

def evictMainIfFull (c : S3FifoCache κ υ) : Option (S3FifoCache κ υ) :=
  let main := c.compact .main c.mainCapacity c.main
  if c.mainCapacity = 0 then
    drainMainLoop main c
  else
    evictMainLoop (main.length * 4 + 1) { c with main := main }

def pushGhost (c : S3FifoCache κ υ) (key : κ) (seq : Nat) : S3FifoCache κ υ :=
  { c with
    ghost := c.ghost ++ [(key, seq)]
    index := update c.index key (some <| .ghost seq)
    ghostLiveCount := c.ghostLiveCount + 1 }

def pushMain (c : S3FifoCache κ υ) (key : κ) (value : υ) (seq : Nat) : S3FifoCache κ υ :=
  { c with
    main := c.main ++ [(key, seq)]
    index := update c.index key (some <| .main value 0 seq)
    mainLiveCount := c.mainLiveCount + 1 }

def pushSmall (c : S3FifoCache κ υ) (key : κ) (value : υ) (seq : Nat) : S3FifoCache κ υ :=
  { c with
    small := c.small ++ [(key, seq)]
    index := update c.index key (some <| .small value 0 seq)
    smallLiveCount := c.smallLiveCount + 1 }

-- Where an entry goes that has just left Small.
def leaveSmall (c : S3FifoCache κ υ) (key : κ) (value : υ) (freq : Nat) :
    Option (S3FifoCache κ υ) := do
  let newSeq := c.seqGen + 1
  let c := { c with seqGen := newSeq }
  if freq ≥ 1 then
    if c.mainCapacity = 0 then
      return (← c.evictGhostIfFull).pushGhost key newSeq
    else
      return (← c.evictMainIfFull).pushMain key value newSeq
  else
    return (← c.evictGhostIfFull).pushGhost key newSeq

-- As for Ghost, the loop only pops from `small`.
def evictSmallLoop : List (κ × Nat) → S3FifoCache κ υ → Option (S3FifoCache κ υ)
  | [], c => some { c with small := [] }
  | (key, expectedSeq) :: rest, c =>
    if c.smallLiveCount ≥ c.smallCapacity then
      match c.index key with
      | some (.small value freq seq) =>
        if seq = expectedSeq then do
          let live ← decr c.smallLiveCount
          let c := { c with
            small := rest, index := update c.index key none, smallLiveCount := live }
          evictSmallLoop rest (← c.leaveSmall key value freq)
        else
          evictSmallLoop rest c
      | _ => evictSmallLoop rest c
    else
      some { c with small := (key, expectedSeq) :: rest }

def evictSmallIfFull (c : S3FifoCache κ υ) : Option (S3FifoCache κ υ) :=
  evictSmallLoop (c.compact .small c.smallCapacity c.small) c

def insert (c : S3FifoCache κ υ) (key : κ) (value : υ) : Option (S3FifoCache κ υ) := do
  let seq := c.seqGen + 1
  let c := { c with seqGen := seq }
  match c.index key with
  | some (.ghost _) =>
    -- The node stays in the index while the eviction runs, although it is no longer counted.
    let c := { c with ghostLiveCount := ← decr c.ghostLiveCount }
    if c.mainCapacity = 0 then
      return (← c.evictSmallIfFull).pushSmall key value seq
    else
      return (← c.evictMainIfFull).pushMain key value seq
  | some n =>
    return { c with index := update c.index key (n.hit fun _ => value) }
  | none =>
    return (← c.evictSmallIfFull).pushSmall key value seq

def len (c : S3FifoCache κ υ) : Nat :=
  c.smallLiveCount + c.mainLiveCount

def capacity (c : S3FifoCache κ υ) : Nat :=
  c.smallCapacity + c.mainCapacity

def remove (c : S3FifoCache κ υ) (key : κ) : Option (Option υ × S3FifoCache κ υ) :=
  let index := update c.index key none
  match c.index key with
  | some (.small value _ _) => do
    return (some value, { c with index, smallLiveCount := ← decr c.smallLiveCount })
  | some (.main value _ _) => do
    return (some value, { c with index, mainLiveCount := ← decr c.mainLiveCount })
  | some (.ghost _) => do
    return (none, { c with index, ghostLiveCount := ← decr c.ghostLiveCount })
  | none => some (none, { c with index })

def clear (c : S3FifoCache κ υ) : S3FifoCache κ υ :=
  { c with
    small := [], main := [], ghost := []
    index := fun _ => none
    smallLiveCount := 0, mainLiveCount := 0, ghostLiveCount := 0 }

end S3FifoCache

inductive Op (κ υ : Type)
  | insert (key : κ) (value : υ)
  | get    (key : κ)
  | getMut (key : κ) (write : υ → υ)
  | peek   (key : κ)
  | remove (key : κ)
  | clear

-- One call on the cache, with the value that it hands to the caller.
def Op.exec (c : S3FifoCache κ υ) : Op κ υ → Option (Option υ × S3FifoCache κ υ)
  | insert key value => do return (none, ← c.insert key value)
  | get key          => some (c.get key)
  | getMut key write => some (c.getMut key write)
  | peek key         => some (c.peek key, c)
  | remove key       => c.remove key
  | clear            => some (none, c.clear)

def S3FifoCache.run (c : S3FifoCache κ υ) (ops : List (Op κ υ)) : Option (S3FifoCache κ υ) :=
  ops.foldlM (fun c op => (op.exec c).map Prod.snd) c

-- The caller's view of a cache, which knows nothing about queues: for each key the last value that
-- was written and not removed since, and whether the cached entry has been accessed since it was
-- admitted.
structure History (κ υ : Type) where
  lastWrite : κ → Option υ
  accessed  : κ → Bool

namespace History

def empty : History κ υ where
  lastWrite _ := none
  accessed _  := false

-- How a call on the cache `c` continues the history. Looking a key up is only an access if the
-- lookup hits, and an `insert` is one if it overwrites. Otherwise it admits a fresh entry.
def record (h : History κ υ) (c : S3FifoCache κ υ) : Op κ υ → History κ υ
  | .insert key value => {
      lastWrite := update h.lastWrite key (some value)
      accessed  := update h.accessed key (c.containsKey key) }
  | .get key =>
    { h with accessed := update h.accessed key (h.accessed key || c.containsKey key) }
  | .getMut key write =>
    match c.peek key with
    | some v => {
        lastWrite := update h.lastWrite key (some <| write v)
        accessed  := update h.accessed key true }
    | none => h
  | .peek _ => h
  | .remove key => {
      lastWrite := update h.lastWrite key none
      accessed  := update h.accessed key false }
  | .clear => empty

end History

-- A run of the cache that keeps its history.
def S3FifoCache.runHistory (c : S3FifoCache κ υ) (h : History κ υ) (ops : List (Op κ υ)) :
    Option (S3FifoCache κ υ × History κ υ) :=
  ops.foldlM (fun (c, h) op => (op.exec c).map fun r => (r.2, h.record c op)) (c, h)

end S3Fifo
