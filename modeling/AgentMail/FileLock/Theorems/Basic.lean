import AgentMail.FileLock.Basic

namespace FileLock

variable {ι : Type} {cfg : Config ι} {i : ι} {fs fs' : FileSystem ι} {phase phase' : Phase}
variable {c : Cleanup} {file : Option Nat} {ino : Nat}

theorem Cleanup.locks_of_confirmed (h : c.confirmed = some ino) : c.locks = some ino := by
  cases c <;> simp_all [confirmed, locks]

theorem Phase.locks_of_confirmed (h : phase.confirmed = some ino) : phase.locks = some ino := by
  cases phase
  case cleanup => exact Cleanup.locks_of_confirmed h
  all_goals simp_all [confirmed, locks]

def protocol : LockProtocol Phase where
  locks     := Phase.locks
  confirmed := Phase.confirmed
  locks_of_confirmed := Phase.locks_of_confirmed

theorem locks_finish : (finish file).locks = none := by
  cases file <;> rfl

-- A process tries to remove the path again after it has given up its lock, but it still may not.
def Phase.Denied (cfg : Config ι) (i : ι) : Phase → Prop
  | cleanup _ .removePathAgain => cfg.mayUnlink i = false
  | _                          => True

theorem denied_finish : (finish file).Denied cfg i := by
  cases file <;> trivial

-- What a process knows about its own lock.
structure Own (cfg : Config ι) (i : ι) (fs : FileSystem ι) (phase : Phase) : Prop where
  locked    : ∀ ino, phase.locks = some ino → fs.flock ino = some i
  confirmed : ∀ ino, phase.confirmed = some ino → fs.path = some ino
  denied    : phase.Denied cfg i

abbrev Guarantee (i : ι) (fs : FileSystem ι) (phase : Phase) (fs' : FileSystem ι) (phase' : Phase) :
    Prop :=
  protocol.Guarantee i fs.toLockFile phase fs'.toLockFile phase'

theorem guarantee_drop {φ : Type} {proto : LockProtocol φ} {p p' : φ}
    (h : ∀ ino, file = some ino → fs.flock ino = some i) (hl : proto.locks p' = none) :
    proto.Guarantee i fs.toLockFile p (fs.drop file).toLockFile p' := by
  cases file
  case none     => exact .of_locks_none hl
  case some ino => exact .unlock (h ino rfl) hl

theorem toLockFile_removeMetadata : (fs.removeMetadata cfg i).toLockFile = fs.toLockFile := by
  unfold FileSystem.removeMetadata
  split <;> rfl

theorem removePath_cases (cfg : Config ι) (i : ι) (fs : FileSystem ι) :
    fs.removePath cfg i = (.notFound, fs) ∨
    cfg.mayUnlink i = true ∧
      fs.removePath cfg i = (.ok, { fs with toLockFile := fs.toLockFile.unlink }) ∨
    cfg.mayUnlink i = false ∧ fs.removePath cfg i = (.permissionDenied, fs) := by
  unfold FileSystem.removePath
  split
  case isTrue => exact .inl rfl
  case isFalse =>
    split
    case isTrue h  => exact .inr (.inl ⟨h, rfl⟩)
    case isFalse h => exact .inr (.inr ⟨Bool.eq_false_iff.mpr h, rfl⟩)

theorem Cleanup.guarantee_advance (h : Own cfg i fs (.cleanup file c))
    (hs : c.advance cfg i fs file = some (fs', phase')) :
    Guarantee i fs (.cleanup file c) fs' phase' ∧ phase'.Denied cfg i := by
  have hfinish : Guarantee i fs (.cleanup file c) fs (finish file) :=
    .of_locks_none locks_finish
  cases c
  case pathExists =>
    cases hs
    split
    case isTrue  => exact ⟨.of_locks_none rfl, trivial⟩
    case isFalse => exact ⟨hfinish, denied_finish⟩
  case openFile =>
    simp only [advance] at hs
    split at hs <;> cases hs
    case h_1 => exact ⟨.of_locks_none rfl, trivial⟩
    case h_2 => exact ⟨hfinish, denied_finish⟩
  case tryLock ino =>
    simp only [advance] at hs
    split at hs <;> cases hs
    case isTrue hf => exact ⟨.lock (Option.isNone_iff_eq_none.mp hf) rfl rfl, trivial⟩
    case isFalse   => exact ⟨hfinish, denied_finish⟩
  case verify ino =>
    simp only [advance] at hs
    split at hs <;> cases hs
    case isTrue hp =>
      refine ⟨.stay h.locked fun ino' hc => ?_, trivial⟩
      cases hc
      exact hp
    case isFalse => exact ⟨.unlock (h.locked ino rfl) locks_finish, denied_finish⟩
  case readMetadata => cases hs
  case removePath ino =>
    simp only [advance] at hs
    obtain hr | ⟨_, hr⟩ | ⟨hd, hr⟩ := removePath_cases cfg i fs <;> rw [hr] at hs <;> cases hs
    · exact ⟨.unlock (h.locked ino rfl) locks_finish, denied_finish⟩
    · refine ⟨.unlink (fun ino' hp => ?_) h.locked rfl, trivial⟩
      cases hp.symm.trans (h.confirmed ino rfl)
      exact h.locked ino rfl
    · exact ⟨.unlock (h.locked ino rfl) rfl, hd⟩
  case removePathAgain =>
    simp only [advance] at hs
    have hd : cfg.mayUnlink i = false := h.denied
    obtain hr | ⟨hu, _⟩ | ⟨_, hr⟩ := removePath_cases cfg i fs
    · rw [hr] at hs
      cases hs
      exact ⟨hfinish, denied_finish⟩
    · cases hu.symm.trans hd
    · rw [hr] at hs
      cases hs
      exact ⟨hfinish, denied_finish⟩
  case removeMetadata ino =>
    cases hs
    refine ⟨?_, trivial⟩
    rw [Guarantee, toLockFile_removeMetadata]
    exact .stay h.locked nofun
  case close ino =>
    cases hs
    exact ⟨guarantee_drop h.locked locks_finish, denied_finish⟩

theorem Phase.guarantee_advance (h : Own cfg i fs phase)
    (hs : phase.advance cfg i fs = some (fs', phase')) :
    Guarantee i fs phase fs' phase' ∧ phase'.Denied cfg i := by
  cases phase
  case idle => cases hs
  case openFile =>
    have ⟨ino, _, hs⟩ := Option.map_eq_some_iff.mp hs
    cases hs
    exact ⟨.of_locks_none rfl, trivial⟩
  case tryLock ino =>
    simp only [advance] at hs
    split at hs <;> cases hs
    case isTrue hf => exact ⟨.lock (Option.isNone_iff_eq_none.mp hf) rfl rfl, trivial⟩
    case isFalse   => exact ⟨.of_locks_none rfl, trivial⟩
  case verify ino =>
    simp only [advance] at hs
    split at hs <;> cases hs
    case isTrue hp =>
      refine ⟨.stay h.locked fun ino' hc => ?_, trivial⟩
      cases hc
      exact hp
    case isFalse => exact ⟨.unlock (h.locked ino rfl) rfl, trivial⟩
  case writeMetadata =>
    cases hs
    exact ⟨.stay h.locked h.confirmed, trivial⟩
  case held => cases hs
  case removeMetadata =>
    cases hs
    refine ⟨?_, trivial⟩
    rw [Guarantee, toLockFile_removeMetadata]
    exact .stay h.locked h.confirmed
  case removePath ino =>
    cases hs
    refine ⟨?_, trivial⟩
    obtain hr | ⟨_, hr⟩ | ⟨_, hr⟩ := removePath_cases cfg i fs <;> rw [hr]
    · exact .stay h.locked nofun
    · refine .unlink (fun ino' hp => ?_) h.locked rfl
      cases hp.symm.trans (h.confirmed ino rfl)
      exact h.locked ino rfl
    · exact .stay h.locked nofun
  case close ino =>
    cases hs
    exact ⟨.unlock (h.locked ino rfl) rfl, trivial⟩
  case cleanup => exact Cleanup.guarantee_advance h hs
  case retry =>
    cases hs
    exact ⟨.of_locks_none rfl, trivial⟩

theorem Phase.guarantee_step {inUse : Nat → Bool} {e : Event ι} (h : Own cfg e.actor fs phase)
    (hs : phase.step cfg inUse fs e = some (fs', phase')) :
    Guarantee e.actor fs phase fs' phase' ∧ phase'.Denied cfg e.actor := by
  cases e <;> simp only [step] at hs
  case advance i => exact Phase.guarantee_advance h hs
  case acquire =>
    split at hs <;> cases hs
    exact ⟨.of_locks_none rfl, trivial⟩
  case cleanup =>
    split at hs <;> cases hs
    exact ⟨.of_locks_none rfl, trivial⟩
  case release =>
    split at hs <;> cases hs
    exact ⟨.stay h.locked h.confirmed, trivial⟩
  case create =>
    split at hs <;> cases hs
    case isTrue hc => exact ⟨.create (Option.isNone_iff_eq_none.mp hc.right.left) rfl, trivial⟩
  case inspect =>
    split at hs
    case h_2 => cases hs
    case h_1 file ino =>
      split at hs <;> cases hs
      case isTrue  => exact ⟨.stay h.locked h.confirmed, trivial⟩
      case isFalse => exact ⟨.unlock (h.locked ino rfl) locks_finish, denied_finish⟩
  case crash =>
    cases hs
    exact ⟨guarantee_drop h.locked rfl, trivial⟩

theorem Phase.confirmed_of_holds (h : phase.holds) : ∃ ino, phase.confirmed = some ino := by
  cases phase <;> first | exact ⟨_, rfl⟩ | cases h

namespace System

variable {s s' : System ι} {e : Event ι} {es : List (Event ι)}

structure Inv (cfg : Config ι) (s : System ι) : Prop where
  locks  : protocol.Inv s.fs.toLockFile s.procs
  denied : ∀ i, (s.procs i).Denied cfg i

theorem init_inv {path : Option Nat} {owner : Option ι} : (init path owner).Inv cfg where
  locks  := ⟨nofun, nofun⟩
  denied := fun _ => trivial

theorem Inv.own (h : s.Inv cfg) (i : ι) : Own cfg i s.fs (s.procs i) where
  locked    := h.locks.locked i
  confirmed := h.locks.confirmed i
  denied    := h.denied i

theorem Inv.exclusive (h : s.Inv cfg) : s.Exclusive := by
  intro i j hi hj
  have ⟨_, hi⟩ := Phase.confirmed_of_holds hi
  have ⟨_, hj⟩ := Phase.confirmed_of_holds hj
  exact h.locks.exclusive hi hj

variable [DecidableEq ι] [Fintype ι]

theorem Inv.step (h : s.Inv cfg) (hs : s.step cfg e = some s') : s'.Inv cfg := by
  have ⟨⟨fs, phase⟩, hp, hs⟩ := Option.map_eq_some_iff.mp hs
  have ⟨hg, hd⟩ := Phase.guarantee_step (h.own e.actor) hp
  subst hs
  exact ⟨h.locks.update hg, (Function.forall_update_iff s.procs fun i p => p.Denied cfg i).mpr
    ⟨hd, fun i _ => h.denied i⟩⟩

theorem run_mutualExclusion {path : Option Nat} {owner : Option ι}
    (h : run (step cfg) (init path owner) es = some s) : s.Exclusive := by
  have hi : s.Inv cfg := Run.invariant (fun hi hs => hi.step hs) init_inv h
  exact hi.exclusive

-- A process waits for another one that holds the lock, and then cleans up what a crash has left.
def takeover : List (Event Bool) :=
  [.acquire true, .create true 4, .advance true, .advance true, .advance true, .acquire false,
    .advance false, .advance false, .advance false, .advance false, .advance false, .advance false,
    .crash true, .cleanup true, .advance true, .advance true, .advance true, .advance true,
    .inspect true true false false, .advance true, .advance true, .advance true,
    .create false 4, .advance false, .advance false]

def everyone : Config Bool where
  mayUnlink        := fun _ => true
  staleTimeoutZero := fun _ => false

theorem run_mutualExclusion_takeover : ∃ s, run (step everyone) (init none none) takeover = some s ∧
    (s.procs false).holds ∧ s.Exclusive := by
  have ⟨s, hs⟩ : ∃ s, run (step everyone) (init none none) takeover = some s :=
    Option.isSome_iff_exists.mp (by decide +kernel)
  have hh : (run (step everyone) (init none none) takeover).map (fun s => (s.procs false).holds) =
      some true := by
    decide +kernel
  rw [hs] at hh
  exact ⟨s, hs, Option.some.inj hh, run_mutualExclusion hs⟩

end System
end FileLock
