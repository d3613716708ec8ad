import AgentMail.FileLock.Basic

namespace FileLock

-- `maybe_cleanup_lock` in front of its next system call.
inductive Healer
  | openFile
  | tryLock (ino : Nat)
  | removePath (ino : Nat)
  | removePathAgain
  | removeMetadata (ino : Option Nat)
  | close (ino : Option Nat)
  deriving DecidableEq

namespace Healer

def locks : Healer → Option Nat
  | removePath ino     => some ino
  | removeMetadata ino => ino
  | close ino          => ino
  | _                  => none

def files : Healer → Option Nat
  | tryLock ino => some ino
  | phase       => phase.locks

end Healer

-- A process either uses the lock, or it heals the archive at its start.
inductive Process
  | lock (phase : Phase)
  | heal (phase : Healer)
  deriving DecidableEq

namespace Process

def locks : Process → Option Nat
  | lock phase => phase.locks
  | heal phase => phase.locks

def confirmed : Process → Option Nat
  | lock phase => phase.confirmed
  | heal _     => none

def files : Process → List Nat
  | lock phase => phase.files
  | heal phase => phase.files.toList

def holds : Process → Bool
  | lock phase => phase.holds
  | heal _     => false

-- The inode that a healer has locked when it is about to remove the path.
def removes : Process → Option Nat
  | heal (.removePath ino) => some ino
  | _                      => none

end Process

-- The inode that has been locked is not compared to that of the path.
def Healer.advance {ι : Type} (cfg : Config ι) (i : ι) (fs : FileSystem ι) :
    Healer → FileSystem ι × Process
  | openFile =>
    match fs.path with
    | some ino => (fs, .heal (.tryLock ino))
    | none     => (fs, .lock .idle)
  | tryLock ino =>
    if (fs.flock ino).isNone then (fs.lock i ino, .heal (.removePath ino)) else (fs, .lock .idle)
  | removePath ino =>
    match fs.removePath cfg i with
    | (.ok, fs)               => (fs, .heal (.removeMetadata (some ino)))
    | (.permissionDenied, fs) => (fs.unlock ino, .heal .removePathAgain)
    | (.notFound, fs)         => (fs, .heal (.close (some ino)))
  | removePathAgain =>
    match fs.removePath cfg i with
    | (.ok, fs) => (fs, .heal (.removeMetadata none))
    | (_, fs)   => (fs, .lock .idle)
  | removeMetadata ino => (fs.removeMetadata cfg i, .heal (.close ino))
  | close ino          => (fs.drop ino, .lock .idle)

inductive HealEvent (ι : Type)
  | lock (e : Event ι)
  | heal (i : ι)
  | advance (i : ι)
  | crash (i : ι)

-- The healers that have removed the path, and who had locked its inode then.
structure Healing (ι : Type) where
  fs      : FileSystem ι
  procs   : ι → Process
  removed : List (ι × Option ι)

namespace Healing

variable {ι : Type} [DecidableEq ι] [Fintype ι]

def init (path : Option Nat) (owner : Option ι) : Healing ι where
  fs      := { path, owner, flock := fun _ => none }
  procs   := fun _ => .lock .idle
  removed := []

def inUse (s : Healing ι) (ino : Nat) : Bool :=
  ∃ i, ino ∈ (s.procs i).files

def goto (s : Healing ι) (i : ι) (fs : FileSystem ι) (p : Process) : Healing ι :=
  { s with fs, procs := Function.update s.procs i p }

def step (cfg : Config ι) (s : Healing ι) : HealEvent ι → Option (Healing ι)
  | .lock e    =>
    match s.procs e.actor with
    | .lock phase => (phase.step cfg s.inUse s.fs e).map fun (fs, phase) =>
      s.goto e.actor fs (.lock phase)
    | .heal _     => none
  | .heal i    => if s.procs i = .lock .idle then some (s.goto i s.fs (.heal .openFile)) else none
  | .advance i =>
    match s.procs i with
    | .lock _     => none
    | .heal phase =>
      let (fs, p) := phase.advance cfg i s.fs
      let s'      := s.goto i fs p
      if fs.path = s.fs.path then some s'
      else some { s' with removed := s.removed ++ [(i, s.fs.path.bind s.fs.flock)] }
  | .crash i   =>
    match s.procs i with
    | .lock _     => none
    | .heal phase => some (s.goto i (s.fs.drop phase.locks) (.lock .idle))

-- The path still names the inode that a healer has opened and locked when it removes the path.
def Identified (s : Healing ι) : HealEvent ι → Prop
  | .advance i => ∀ ino ∈ (s.procs i).removes, ∀ ino' ∈ s.fs.path, ino' = ino
  | _          => True

instance (s : Healing ι) : ∀ e, Decidable (s.Identified e)
  | .advance i => inferInstanceAs
      (Decidable (∀ ino ∈ (s.procs i).removes, ∀ ino' ∈ s.fs.path, ino' = ino))
  | .lock _    => isTrue trivial
  | .heal _    => isTrue trivial
  | .crash _   => isTrue trivial

end Healing

namespace Healing

variable {ι : Type}

-- No healer has removed the path while another process had locked its inode.
def SparesHeld (s : Healing ι) : Prop :=
  ∀ x ∈ s.removed, ∀ j, x.2 = some j → j = x.1

def Exclusive (s : Healing ι) : Prop :=
  ∀ i j, (s.procs i).holds → (s.procs j).holds → i = j

end Healing
end FileLock
