import AgentMail.Lib.MultiMap
import AgentMail.Lib.Run
import AgentMail.Lib.Table
import AgentMail.Pattern.Basic
import Mathlib.Algebra.Group.Int.Defs
import Mathlib.Algebra.Group.Nat.Defs
import Mathlib.Data.Char
import Mathlib.Data.Int.Order.Basic
import Mathlib.Data.List.Lex

open Pattern (Str)

namespace OpenIndex

structure OpenExperienceEntry where
  experienceId          : Nat
  decisionId            : Nat
  subject               : Str
  createdTsMicros       : Int
  effectKind            : Str
  subsystem             : Str
  potentiallyConfounded : Bool
  deriving DecidableEq

abbrev Entries : Type :=
  Table OpenExperienceEntry.experienceId

-- The sets of identifiers are lists. The counters are unbounded.
structure OpenExperienceIndex where
  entries                : Entries
  bySubject              : MultiMap Str Nat
  byCreation             : MultiMap Int Nat
  capacity               : Nat
  resolutionWindowMicros : Int
  totalAdded             : Nat
  totalResolved          : Nat
  totalExpired           : Nat
  totalCensored          : Nat
  totalEvicted           : Nat

structure ResolutionCandidate where
  experienceId    : Nat
  decisionId      : Nat
  createdTsMicros : Int
  effectKind      : Str
  ageMicros       : Int
  deriving DecidableEq

def toAsciiLowercase (s : Str) : Str :=
  s.map Char.toLower

def subjectKey (entry : OpenExperienceEntry) : Str :=
  toAsciiLowercase entry.subject

-- `i64::saturating_sub`
def saturatingSub (a b : Int) : Int :=
  max (-2 ^ 63) (min (2 ^ 63 - 1) (a - b))

-- `insert`, which replaces the entry with the same identifier
def Entries.put (entries : Entries) (entry : OpenExperienceEntry) : Entries :=
  (entries.delete (·.experienceId = entry.experienceId)).insertOrIgnore entry

def Entries.setConfounded (entries : Entries) (p : OpenExperienceEntry → Bool) (flag : Bool) :
    Entries :=
  entries.update p (fun e => { e with potentiallyConfounded := flag }) fun _ => rfl

namespace OpenExperienceIndex

def withCapacity (capacity : Nat) (resolutionWindowMicros : Int) : OpenExperienceIndex where
  entries                := .empty
  bySubject              := .empty
  byCreation             := .empty
  capacity               := max capacity 1
  resolutionWindowMicros := resolutionWindowMicros
  totalAdded             := 0
  totalResolved          := 0
  totalExpired           := 0
  totalCensored          := 0
  totalEvicted           := 0

def len (index : OpenExperienceIndex) : Nat :=
  index.entries.rows.length

-- `HashSet::insert`
def addId (bySubject : MultiMap Str Nat) (key : Str) (id : Nat) : MultiMap Str Nat :=
  if id ∈ bySubject.get key then bySubject else bySubject.push key id

def insertEntry (index : OpenExperienceIndex) (entry : OpenExperienceEntry) (key : Str) :
    OpenExperienceIndex :=
  {
    index with
    bySubject  := addId index.bySubject key entry.experienceId
    byCreation := index.byCreation.push entry.createdTsMicros entry.experienceId
    entries    := index.entries.put entry
    totalAdded := index.totalAdded + 1
  }

def reconcileSubjectConfounding (index : OpenExperienceIndex) (key : Str) : OpenExperienceIndex :=
  match index.bySubject.get? key with
  | some []   => { index with bySubject := index.bySubject.erase key }
  | some [id] => { index with entries := index.entries.setConfounded (·.experienceId = id) false }
  | _         => index

-- What eviction and removal do to the index of subjects.
def removeFromSubject (index : OpenExperienceIndex) (entry : OpenExperienceEntry) (id : Nat) :
    OpenExperienceIndex :=
  let key := subjectKey entry
  reconcileSubjectConfounding { index with
    bySubject := index.bySubject.modify key (·.filter (· ≠ id)) } key

def evictOldest (index : OpenExperienceIndex) : OpenExperienceIndex :=
  match index.byCreation.entries with
  | []                    => index
  | (oldestTs, ids) :: _ =>
    match ids.getLast? with
    | none    => { index with byCreation := index.byCreation.erase oldestTs }
    | some id =>
      let index :=
        { index with
          byCreation := (index.byCreation.modify oldestTs List.dropLast).dropIfEmpty oldestTs }
      match index.entries.get? id with
      | none       => index
      | some entry =>
        let index :=
          removeFromSubject { index with entries := index.entries.delete (·.experienceId = id) }
            entry id
        { index with totalEvicted := index.totalEvicted + 1 }

-- The loop of `add`, which does not end if an eviction removes nothing.
def evictWhileFull (index : OpenExperienceIndex) : Nat → Option OpenExperienceIndex
  | 0        => if index.len ≥ index.capacity then none else some index
  | fuel + 1 => if index.len ≥ index.capacity then index.evictOldest.evictWhileFull fuel
    else some index

def add (fuel : Nat) (index : OpenExperienceIndex) (entry : OpenExperienceEntry) :
    Option OpenExperienceIndex :=
  if (index.entries.get? entry.experienceId).isSome then
    some index
  else do
    let index ← index.evictWhileFull fuel
    let key := subjectKey entry
    match (index.bySubject.get? key).filter (· ≠ []) with
    | some existingIds =>
      let entries := index.entries.setConfounded (·.experienceId ∈ existingIds) true
      return { index with entries }.insertEntry { entry with potentiallyConfounded := true } key
    | none =>
      return index.insertEntry entry key

def remove (index : OpenExperienceIndex) (id : Nat) :
    OpenExperienceIndex × Option OpenExperienceEntry :=
  match index.entries.get? id with
  | none       => (index, none)
  | some entry =>
    let index :=
      removeFromSubject { index with entries := index.entries.delete (·.experienceId = id) } entry
        id
    let byCreation :=
      (index.byCreation.modify entry.createdTsMicros (·.filter (· ≠ id))).dropIfEmpty
        entry.createdTsMicros
    ({ index with byCreation }, some entry)

def markResolved (index : OpenExperienceIndex) (id : Nat) :
    OpenExperienceIndex × Option OpenExperienceEntry :=
  match index.remove id with
  | (index, none)       => (index, none)
  | (index, some entry) => ({ index with totalResolved := index.totalResolved + 1 }, some entry)

def markExpired (index : OpenExperienceIndex) (id : Nat) :
    OpenExperienceIndex × Option OpenExperienceEntry :=
  match index.remove id with
  | (index, none)       => (index, none)
  | (index, some entry) => ({ index with totalExpired := index.totalExpired + 1 }, some entry)

def markCensored (index : OpenExperienceIndex) (id : Nat) :
    OpenExperienceIndex × Option OpenExperienceEntry :=
  match index.remove id with
  | (index, none)       => (index, none)
  | (index, some entry) => ({ index with totalCensored := index.totalCensored + 1 }, some entry)

def forSubject (index : OpenExperienceIndex) (subject : Str) : List OpenExperienceEntry :=
  ((index.bySubject.get? (toAsciiLowercase subject)).getD []).filterMap index.entries.get?

def expiredCandidates (index : OpenExperienceIndex) (nowMicros : Int) : List ResolutionCandidate :=
  let cutoff := saturatingSub nowMicros index.resolutionWindowMicros
  (index.byCreation.entries.takeWhile fun bucket => ¬bucket.1 > cutoff).flatMap fun bucket =>
    bucket.2.filterMap fun id => (index.entries.get? id).map fun entry => {
      experienceId    := entry.experienceId
      decisionId      := entry.decisionId
      createdTsMicros := entry.createdTsMicros
      effectKind      := entry.effectKind
      ageMicros       := saturatingSub nowMicros entry.createdTsMicros
    }

end OpenExperienceIndex

inductive Event
  | add          (entry : OpenExperienceEntry)
  | markResolved (id : Nat)
  | markExpired  (id : Nat)
  | markCensored (id : Nat)

open OpenExperienceIndex in
-- The eviction loop of an addition is cut off after so many rounds.
def step (fuel : Nat) (index : OpenExperienceIndex) : Event → Option OpenExperienceIndex
  | .add entry       => add fuel index entry
  | .markResolved id => some (index.markResolved id).1
  | .markExpired id  => some (index.markExpired id).1
  | .markCensored id => some (index.markCensored id).1

end OpenIndex
