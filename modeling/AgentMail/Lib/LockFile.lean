import Mathlib.Logic.Function.Basic
import Mathlib.Tactic.Common

-- A path of a Unix file system that is used as a lock. The path names at most one inode, and an
-- inode can be locked by one process.

structure LockFile (ι : Type) where
  path  : Option Nat
  flock : Nat → Option ι

namespace LockFile

variable {ι : Type}

def create (file : LockFile ι) (ino : Nat) : LockFile ι :=
  { file with path := some ino }

def unlink (file : LockFile ι) : LockFile ι :=
  { file with path := none }

def lock (file : LockFile ι) (i : ι) (ino : Nat) : LockFile ι :=
  { file with flock := Function.update file.flock ino (some i) }

def unlock (file : LockFile ι) (ino : Nat) : LockFile ι :=
  { file with flock := Function.update file.flock ino none }

end LockFile

-- Which inode a process has locked, and whether it has confirmed that the path names it.
structure LockProtocol (φ : Type) where
  locks     : φ → Option Nat
  confirmed : φ → Option Nat
  locks_of_confirmed : ∀ {p ino}, confirmed p = some ino → locks p = some ino

namespace LockProtocol

variable {ι φ : Type} {proto : LockProtocol φ} {file file' : LockFile ι} {procs : ι → φ}
variable {i j : ι} {ino ino' : Nat} {p p' : φ}

structure Inv (proto : LockProtocol φ) (file : LockFile ι) (procs : ι → φ) : Prop where
  locked    : ∀ i ino, proto.locks (procs i) = some ino → file.flock ino = some i
  confirmed : ∀ i ino, proto.confirmed (procs i) = some ino → file.path = some ino

-- Only one process can have confirmed that it has locked the inode of the path.
theorem Inv.exclusive (h : proto.Inv file procs) (hi : proto.confirmed (procs i) = some ino)
    (hj : proto.confirmed (procs j) = some ino') : i = j := by
  have he : ino = ino' :=
    Option.some.inj ((h.confirmed i ino hi).symm.trans (h.confirmed j ino' hj))
  subst he
  have hli := h.locked i ino (proto.locks_of_confirmed hi)
  have hlj := h.locked j ino (proto.locks_of_confirmed hj)
  exact Option.some.inj (hli.symm.trans hlj)

-- What a process guarantees to the others: it respects their locks, and it only changes a path
-- whose inode it has locked itself.
structure Guarantee (proto : LockProtocol φ) (i : ι) (file : LockFile ι) (p : φ)
    (file' : LockFile ι) (p' : φ) : Prop where
  locked    : ∀ ino, proto.locks p' = some ino → file'.flock ino = some i
  confirmed : ∀ ino, proto.confirmed p' = some ino → file'.path = some ino
  others    : ∀ j ino, j ≠ i → file.flock ino = some j → file'.flock ino = some j
  path      : file'.path = file.path ∨ ∀ ino, file.path = some ino → file.flock ino = some i

theorem Inv.update [DecidableEq ι] (h : proto.Inv file procs)
    (hg : proto.Guarantee i file p file' p') :
    proto.Inv file' (Function.update procs i p') where
  locked    := (Function.forall_update_iff procs fun j p =>
    ∀ ino, proto.locks p = some ino → file'.flock ino = some j).mpr
    ⟨hg.locked, fun j hj ino hl => hg.others j ino hj (h.locked j ino hl)⟩
  confirmed := by
    refine (Function.forall_update_iff procs fun _ p =>
      ∀ ino, proto.confirmed p = some ino → file'.path = some ino).mpr
      ⟨hg.confirmed, fun j hj ino hc => ?_⟩
    have hp := h.confirmed j ino hc
    cases hg.path
    case inl hpath => exact hpath.trans hp
    case inr hpath =>
      have hl := h.locked j ino (proto.locks_of_confirmed hc)
      exact absurd (Option.some.inj (hl.symm.trans (hpath ino hp))) hj

namespace Guarantee

-- The process changes its state only.
theorem stay (hl : ∀ ino, proto.locks p' = some ino → file.flock ino = some i)
    (hc : ∀ ino, proto.confirmed p' = some ino → file.path = some ino) :
    proto.Guarantee i file p file p' where
  locked    := hl
  confirmed := hc
  others    := fun _ _ _ h => h
  path      := .inl rfl

theorem of_locks_none (hl : proto.locks p' = none) : proto.Guarantee i file p file p' :=
  stay (fun _ h => by cases hl.symm.trans h) fun _ h => by
    cases hl.symm.trans (proto.locks_of_confirmed h)

theorem lock (hf : file.flock ino = none) (hl : proto.locks p' = some ino)
    (hc : proto.confirmed p' = none) : proto.Guarantee i file p (file.lock i ino) p' where
  locked ino' h  := by
    cases hl.symm.trans h
    exact Function.update_self ..
  confirmed _ h  := by cases hc.symm.trans h
  others j ino' _ h := by
    have hne : ino' ≠ ino := fun he => by cases h.symm.trans (he ▸ hf)
    exact (Function.update_of_ne hne ..).trans h
  path           := .inl rfl

theorem unlock (hf : file.flock ino = some i) (hl : proto.locks p' = none) :
    proto.Guarantee i file p (file.unlock ino) p' where
  locked _ h        := by cases hl.symm.trans h
  confirmed _ h     := by cases hl.symm.trans (proto.locks_of_confirmed h)
  others j ino' hj h := by
    have hne : ino' ≠ ino := by
      rintro rfl
      exact hj (Option.some.inj (h.symm.trans hf))
    exact (Function.update_of_ne hne ..).trans h
  path              := .inl rfl

theorem create (hp : file.path = none) (hl : proto.locks p' = none) :
    proto.Guarantee i file p (file.create ino) p' where
  locked _ h    := by cases hl.symm.trans h
  confirmed _ h := by cases hl.symm.trans (proto.locks_of_confirmed h)
  others _ _ _ h := h
  path          := .inr fun _ h => by cases hp.symm.trans h

theorem unlink (hf : ∀ ino, file.path = some ino → file.flock ino = some i)
    (hl : ∀ ino, proto.locks p' = some ino → file.flock ino = some i)
    (hc : proto.confirmed p' = none) : proto.Guarantee i file p file.unlink p' where
  locked        := hl
  confirmed _ h := by cases hc.symm.trans h
  others _ _ _ h := h
  path          := .inr hf

end Guarantee
end LockProtocol
