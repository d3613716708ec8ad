import Mathlib.Data.Fintype.Basic
import AgentMail.Lib.LockFile
import AgentMail.Lib.Run

namespace FileLock

-- Who may remove files from the directory of the lock, and whose stale timeout is zero.
structure Config (ι : Type) where
  mayUnlink        : ι → Bool
  staleTimeoutZero : ι → Bool

inductive RemoveResult
  | ok
  | notFound
  | permissionDenied

-- `cleanup_if_stale` in front of its next system call.
inductive Cleanup
  | pathExists
  | openFile
  | tryLock (ino : Nat)
  | verify (ino : Nat)
  | readMetadata (ino : Nat)
  | removePath (ino : Nat)
  | removePathAgain
  | removeMetadata (ino : Option Nat)
  | close (ino : Option Nat)
  deriving DecidableEq

-- A process in front of its next system call. While `acquire` cleans up, it keeps the file open
-- that it could not lock.
inductive Phase
  | idle
  | openFile
  | tryLock (ino : Nat)
  | verify (ino : Nat)
  | writeMetadata (ino : Nat)
  | held (ino : Nat)
  | removeMetadata (ino : Nat)
  | removePath (ino : Nat)
  | close (ino : Nat)
  | cleanup (file : Option Nat) (phase : Cleanup)
  | retry (file : Nat)
  deriving DecidableEq

def Cleanup.locks : Cleanup → Option Nat
  | verify ino         => some ino
  | readMetadata ino   => some ino
  | removePath ino     => some ino
  | removeMetadata ino => ino
  | close ino          => ino
  | _                  => none

def Cleanup.confirmed : Cleanup → Option Nat
  | readMetadata ino => some ino
  | removePath ino   => some ino
  | _                => none

def Cleanup.files : Cleanup → Option Nat
  | tryLock ino => some ino
  | phase       => phase.locks

namespace Phase

-- The inode that the process has locked.
def locks : Phase → Option Nat
  | verify ino         => some ino
  | writeMetadata ino  => some ino
  | held ino           => some ino
  | removeMetadata ino => some ino
  | removePath ino     => some ino
  | close ino          => some ino
  | cleanup _ phase    => phase.locks
  | _                  => none

-- The inode of the path, as far as the process has found out.
def confirmed : Phase → Option Nat
  | writeMetadata ino  => some ino
  | held ino           => some ino
  | removeMetadata ino => some ino
  | removePath ino     => some ino
  | cleanup _ phase    => phase.confirmed
  | _                  => none

-- The inodes that the process has opened.
def files : Phase → List Nat
  | tryLock ino        => [ino]
  | cleanup file phase => file.toList ++ phase.files.toList
  | retry file         => [file]
  | phase              => phase.locks.toList

-- `acquire` has got the lock, and `release` has not given it up.
def holds : Phase → Bool
  | writeMetadata _  => true
  | held _           => true
  | removeMetadata _ => true
  | removePath _     => true
  | _                => false

end Phase

-- The lock file and the owner file of a process.
structure FileSystem (ι : Type) extends LockFile ι where
  owner : Option ι

namespace FileSystem

variable {ι : Type}

def lock (fs : FileSystem ι) (i : ι) (ino : Nat) : FileSystem ι :=
  { fs with toLockFile := fs.toLockFile.lock i ino }

def unlock (fs : FileSystem ι) (ino : Nat) : FileSystem ι :=
  { fs with toLockFile := fs.toLockFile.unlock ino }

def create (fs : FileSystem ι) (ino : Nat) : FileSystem ι :=
  { fs with toLockFile := fs.toLockFile.create ino }

def drop (fs : FileSystem ι) : Option Nat → FileSystem ι
  | some ino => fs.unlock ino
  | none     => fs

def removePath (cfg : Config ι) (i : ι) (fs : FileSystem ι) : RemoveResult × FileSystem ι :=
  if fs.path.isNone then (.notFound, fs)
  else if cfg.mayUnlink i then (.ok, { fs with toLockFile := fs.toLockFile.unlink })
  else (.permissionDenied, fs)

def removeMetadata (cfg : Config ι) (i : ι) (fs : FileSystem ι) : FileSystem ι :=
  if cfg.mayUnlink i then { fs with owner := none } else fs

end FileSystem

section

variable {ι : Type} (cfg : Config ι) (i : ι) (fs : FileSystem ι)

-- `acquire` tries again after it has cleaned up.
def finish : Option Nat → Phase
  | some file => .retry file
  | none      => .idle

-- The lock is stale if its owner is not alive, or if it is old. It may be impossible to read the
-- owner.
def isStale (readable alive old : Bool) : Bool :=
  if !(readable && fs.owner.isSome && alive) then true
  else if cfg.staleTimeoutZero i then false
  else old

def Cleanup.advance (file : Option Nat) : Cleanup → Option (FileSystem ι × Phase)
  | pathExists =>
    some (fs, if fs.path.isSome then .cleanup file .openFile else finish file)
  | openFile =>
    match fs.path with
    | some ino => some (fs, .cleanup file (.tryLock ino))
    | none     => some (fs, finish file)
  | tryLock ino =>
    if (fs.flock ino).isNone then some (fs.lock i ino, .cleanup file (.verify ino))
    else some (fs, finish file)
  | verify ino =>
    if fs.path = some ino then some (fs, .cleanup file (.readMetadata ino))
    else some (fs.unlock ino, finish file)
  | readMetadata _ => none
  | removePath ino =>
    match fs.removePath cfg i with
    | (.ok, fs)               => some (fs, .cleanup file (.removeMetadata (some ino)))
    | (.permissionDenied, fs) => some (fs.unlock ino, .cleanup file .removePathAgain)
    | (.notFound, fs)         => some (fs.unlock ino, finish file)
  | removePathAgain =>
    match fs.removePath cfg i with
    | (.ok, fs) => some (fs, .cleanup file (.removeMetadata none))
    | (_, fs)   => some (fs, finish file)
  | removeMetadata ino => some (fs.removeMetadata cfg i, .cleanup file (.close ino))
  | close ino          => some (fs.drop ino, finish file)

def Phase.advance : Phase → Option (FileSystem ι × Phase)
  | idle       => none
  | openFile   => fs.path.map fun ino => (fs, tryLock ino)
  | tryLock ino =>
    if (fs.flock ino).isNone then some (fs.lock i ino, verify ino)
    else some (fs, cleanup (some ino) .pathExists)
  | verify ino =>
    if fs.path = some ino then some (fs, writeMetadata ino) else some (fs.unlock ino, openFile)
  | writeMetadata ino  => some ({ fs with owner := some i }, held ino)
  | held _             => none
  | removeMetadata ino => some (fs.removeMetadata cfg i, removePath ino)
  | removePath ino     => some ((fs.removePath cfg i).2, close ino)
  | close ino          => some (fs.unlock ino, idle)
  | cleanup file phase => phase.advance cfg i fs file
  | retry _            => some (fs, openFile)

end

-- A process that crashes closes its files, and so does one that returns an error or gives up. The
-- number of a new inode is not the number of one that is in use.
inductive Event (ι : Type)
  | acquire (i : ι)
  | release (i : ι)
  | cleanup (i : ι)
  | advance (i : ι)
  | create (i : ι) (ino : Nat)
  | inspect (i : ι) (readable alive old : Bool)
  | crash (i : ι)

-- What a process does at an event, where the inodes in use are given.
def Phase.step {ι : Type} (cfg : Config ι) (inUse : Nat → Bool) (fs : FileSystem ι)
    (phase : Phase) : Event ι → Option (FileSystem ι × Phase)
  | .acquire _ => if phase = idle then some (fs, openFile) else none
  | .cleanup _ => if phase = idle then some (fs, .cleanup none .pathExists) else none
  | .release _ =>
    match phase with
    | held ino => some (fs, removeMetadata ino)
    | _        => none
  | .advance i => phase.advance cfg i fs
  | .create i ino =>
    if phase = openFile ∧ fs.path.isNone ∧ cfg.mayUnlink i ∧ !inUse ino then
      some (fs.create ino, tryLock ino)
    else none
  | .inspect i readable alive old =>
    match phase with
    | .cleanup file (.readMetadata ino) =>
      if isStale cfg i fs readable alive old then some (fs, .cleanup file (.removePath ino))
      else some (fs.unlock ino, finish file)
    | _ => none
  | .crash _ => some (fs.drop phase.locks, idle)

def Event.actor {ι : Type} : Event ι → ι
  | acquire i       => i
  | release i       => i
  | cleanup i       => i
  | advance i       => i
  | create i _      => i
  | inspect i _ _ _ => i
  | crash i         => i

structure System (ι : Type) where
  fs    : FileSystem ι
  procs : ι → Phase

namespace System

variable {ι : Type} [DecidableEq ι] [Fintype ι]

-- The lock file and the owner file may be left from a process that has crashed.
def init (path : Option Nat) (owner : Option ι) : System ι where
  fs    := { path, owner, flock := fun _ => none }
  procs := fun _ => .idle

def inUse (s : System ι) (ino : Nat) : Bool :=
  ∃ i, ino ∈ (s.procs i).files

def step (cfg : Config ι) (s : System ι) (e : Event ι) : Option (System ι) :=
  ((s.procs e.actor).step cfg s.inUse s.fs e).map fun (fs, phase) =>
    { fs, procs := Function.update s.procs e.actor phase }

def Exclusive (s : System ι) : Prop :=
  ∀ i j, (s.procs i).holds → (s.procs j).holds → i = j

end System
end FileLock
