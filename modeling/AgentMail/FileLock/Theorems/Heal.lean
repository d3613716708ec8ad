import AgentMail.FileLock.Heal
import AgentMail.FileLock.Theorems.Basic

namespace FileLock

variable {ι : Type} {cfg : Config ι} {i : ι} {fs fs' : FileSystem ι} {p p' : Process}
variable {phase : Healer} {file : Option Nat} {ino : Nat}

namespace Process

theorem locks_of_confirmed (h : p.confirmed = some ino) : p.locks = some ino := by
  cases p
  case lock => exact Phase.locks_of_confirmed h
  case heal => cases h

def protocol : LockProtocol Process where
  locks     := locks
  confirmed := confirmed
  locks_of_confirmed := locks_of_confirmed

def Denied (cfg : Config ι) (i : ι) : Process → Prop
  | lock phase            => phase.Denied cfg i
  | heal .removePathAgain => cfg.mayUnlink i = false
  | heal _                => True

abbrev Guarantee (i : ι) (fs : FileSystem ι) (p : Process) (fs' : FileSystem ι) (p' : Process) :
    Prop :=
  protocol.Guarantee i fs.toLockFile p fs'.toLockFile p'

end Process

-- A healer removes the path only if it names the inode that the healer has locked.
theorem Healer.guarantee_advance (hl : ∀ ino, phase.locks = some ino → fs.flock ino = some i)
    (hd : (Process.heal phase).Denied cfg i)
    (hi : ∀ ino ∈ (Process.heal phase).removes, ∀ ino' ∈ fs.path, ino' = ino)
    (hs : phase.advance cfg i fs = (fs', p')) :
    Process.Guarantee i fs (.heal phase) fs' p' ∧ p'.Denied cfg i ∧
      (fs'.path = fs.path ∨ fs.path.bind fs.flock = none ∨ fs.path.bind fs.flock = some i) := by
  cases phase
  case openFile =>
    simp only [advance] at hs
    split at hs <;> cases hs
    case h_1 => exact ⟨.of_locks_none rfl, trivial, .inl rfl⟩
    case h_2 => exact ⟨.of_locks_none rfl, trivial, .inl rfl⟩
  case tryLock ino =>
    simp only [advance] at hs
    split at hs <;> cases hs
    case isTrue hf => exact ⟨.lock (Option.isNone_iff_eq_none.mp hf) rfl rfl, trivial, .inl rfl⟩
    case isFalse   => exact ⟨.of_locks_none rfl, trivial, .inl rfl⟩
  case removePath ino =>
    simp only [advance] at hs
    have hown (ino' : Nat) (hp : fs.path = some ino') : fs.flock ino' = some i := by
      rw [hi ino rfl ino' hp]
      exact hl ino rfl
    obtain hr | ⟨_, hr⟩ | ⟨hu, hr⟩ := removePath_cases cfg i fs <;> rw [hr] at hs <;> cases hs
    · exact ⟨.stay hl nofun, trivial, .inl rfl⟩
    · refine ⟨.unlink hown hl rfl, trivial, .inr ?_⟩
      cases hp : fs.path
      case none     => exact .inl rfl
      case some ino' => exact .inr (hown ino' hp)
    · exact ⟨.unlock (hl ino rfl) rfl, hu, .inl rfl⟩
  case removePathAgain =>
    simp only [advance] at hs
    obtain hr | ⟨hu, _⟩ | ⟨_, hr⟩ := removePath_cases cfg i fs
    · rw [hr] at hs
      cases hs
      exact ⟨.of_locks_none rfl, trivial, .inl rfl⟩
    · cases hu.symm.trans hd
    · rw [hr] at hs
      cases hs
      exact ⟨.of_locks_none rfl, trivial, .inl rfl⟩
  case removeMetadata ino =>
    cases hs
    rw [Process.Guarantee, toLockFile_removeMetadata]
    exact ⟨.stay hl nofun, trivial, .inl rfl⟩
  case close ino =>
    cases hs
    refine ⟨guarantee_drop hl rfl, trivial, .inl ?_⟩
    cases ino <;> rfl

theorem Process.confirmed_of_holds (h : p.holds) : ∃ ino, p.confirmed = some ino := by
  cases p
  case lock => exact Phase.confirmed_of_holds h
  case heal => cases h

namespace Healing

variable {s s' : Healing ι} {e : HealEvent ι} {es : List (HealEvent ι)}

structure Inv (cfg : Config ι) (s : Healing ι) : Prop where
  locks  : Process.protocol.Inv s.fs.toLockFile s.procs
  denied : ∀ i, (s.procs i).Denied cfg i
  spares : s.SparesHeld

theorem init_inv {path : Option Nat} {owner : Option ι} : (init path owner).Inv cfg where
  locks  := ⟨nofun, nofun⟩
  denied := fun _ => trivial
  spares := nofun

theorem Inv.exclusive (h : s.Inv cfg) : s.Exclusive := by
  intro i j hi hj
  have ⟨_, hi⟩ := Process.confirmed_of_holds hi
  have ⟨_, hj⟩ := Process.confirmed_of_holds hj
  exact h.locks.exclusive hi hj

theorem Inv.own (h : s.Inv cfg) {phase : Phase} (hp : s.procs i = .lock phase) :
    Own cfg i s.fs phase where
  locked ino hl    := h.locks.locked i ino (hp ▸ hl)
  confirmed ino hc := h.locks.confirmed i ino (hp ▸ hc)
  denied           := by simpa [hp, Process.Denied] using h.denied i

variable [DecidableEq ι]

theorem Inv.goto (h : s.Inv cfg) (hg : Process.Guarantee i s.fs (s.procs i) fs p)
    (hd : p.Denied cfg i) : (s.goto i fs p).Inv cfg where
  locks  := h.locks.update hg
  denied := (Function.forall_update_iff s.procs fun i p => p.Denied cfg i).mpr
    ⟨hd, fun i _ => h.denied i⟩
  spares := h.spares

variable [Fintype ι]

theorem Inv.advance (h : s.Inv cfg) (hp : s.procs i = .heal phase)
    (hc : ∀ ino ∈ (s.procs i).removes, ∀ ino' ∈ s.fs.path, ino' = ino)
    (hs : s.step cfg (.advance i) = some s') : s'.Inv cfg := by
  have hl (ino : Nat) (hl : phase.locks = some ino) : s.fs.flock ino = some i :=
    h.locks.locked i ino (hp ▸ hl)
  have hd : (Process.heal phase).Denied cfg i := hp ▸ h.denied i
  simp only [step, hp] at hs
  have ⟨hg, hd, hr⟩ := Healer.guarantee_advance hl hd (hp ▸ hc) rfl
  have hi := h.goto (hp ▸ hg) hd
  split at hs <;> cases hs
  case isTrue => exact hi
  case isFalse hne =>
    refine ⟨hi.locks, hi.denied, fun x hx j hj => ?_⟩
    cases List.mem_append.mp hx
    case inl hx => exact h.spares x hx j hj
    case inr hx =>
      cases List.mem_singleton.mp hx
      obtain hr | hr | hr := hr
      · exact absurd hr hne
      · cases hr.symm.trans hj
      · exact Option.some.inj (hj.symm.trans hr)

theorem Inv.step (h : s.Inv cfg) (hc : s.Identified e) (hs : s.step cfg e = some s') :
    s'.Inv cfg := by
  cases e
  case advance i =>
    cases hp : s.procs i
    case lock => simp only [Healing.step, hp] at hs; cases hs
    case heal => exact h.advance hp hc hs
  case lock e =>
    simp only [Healing.step] at hs
    split at hs
    case h_2 => cases hs
    case h_1 phase hp =>
      have ⟨⟨fs, phase'⟩, hps, hs⟩ := Option.map_eq_some_iff.mp hs
      have ⟨hg, hd⟩ := Phase.guarantee_step (h.own hp) hps
      subst hs
      exact h.goto (hp ▸ ⟨hg.locked, hg.confirmed, hg.others, hg.path⟩) hd
  case heal i =>
    simp only [Healing.step] at hs
    split at hs <;> cases hs
    exact h.goto (.of_locks_none rfl) trivial
  case crash i =>
    simp only [Healing.step] at hs
    split at hs <;> cases hs
    case h_2 phase hp =>
      have hl (ino : Nat) (hl : phase.locks = some ino) : s.fs.flock ino = some i :=
        h.locks.locked i ino (hp ▸ hl)
      exact h.goto (guarantee_drop hl rfl) trivial

theorem run_sparesHeld {path : Option Nat} {owner : Option ι}
    (h : run (step cfg) (init path owner) es = some s)
    (hc : Along (step cfg) Identified (init path owner) es) : s.SparesHeld ∧ s.Exclusive := by
  have hi : s.Inv cfg := Run.invariant_along (fun hi hc hs => hi.step hc hs) init_inv hc h
  exact ⟨hi.spares, hi.exclusive⟩

def anyone : Config (Fin 3) where
  mayUnlink        := fun _ => true
  staleTimeoutZero := fun _ => false

-- A lock file that is left from a crash is removed before the lock is acquired.
def healed : List (HealEvent (Fin 3)) :=
  [.heal 2, .advance 2, .lock (.acquire 0), .lock (.advance 0), .advance 2, .advance 2, .advance 2,
    .advance 2, .lock (.advance 0), .lock (.advance 0), .lock (.create 0 2), .lock (.advance 0),
    .lock (.advance 0), .lock (.advance 0)]

theorem run_sparesHeld_healed : ∃ s, run (step anyone) (init (some 1) none) healed = some s ∧
    s.removed = [(2, some 2)] ∧ (s.procs 0).holds ∧ s.SparesHeld ∧ s.Exclusive := by
  have ⟨s, hs⟩ : ∃ s, run (step anyone) (init (some 1) none) healed = some s :=
    Option.isSome_iff_exists.mp (by decide +kernel)
  have hr : (run (step anyone) (init (some 1) none) healed).map
      (fun s => (s.removed, (s.procs 0).holds)) = some ([(2, some 2)], true) := by
    decide +kernel
  rw [hs] at hr
  have ⟨hr, hh⟩ := Prod.mk.inj (Option.some.inj hr)
  exact ⟨s, hs, hr, hh, run_sparesHeld hs (by decide +kernel)⟩

-- The lock is released and acquired again after a healer has opened the lock file. The healer locks
-- the old inode and removes the path of the new one, and the lock is acquired a second time.
def staleHandle : List (HealEvent (Fin 3)) :=
  [.lock (.acquire 0), .lock (.create 0 1), .lock (.advance 0), .lock (.advance 0),
    .lock (.advance 0), .heal 2, .advance 2, .lock (.release 0), .lock (.advance 0),
    .lock (.advance 0), .lock (.advance 0), .lock (.acquire 1), .lock (.create 1 2),
    .lock (.advance 1), .lock (.advance 1), .lock (.advance 1), .advance 2, .advance 2,
    .lock (.acquire 0), .lock (.create 0 3), .lock (.advance 0), .lock (.advance 0),
    .lock (.advance 0)]

theorem not_sparesHeld_staleHandle : ∃ s, run (step anyone) (init none none) staleHandle = some s ∧
    ¬s.SparesHeld ∧ ¬s.Exclusive := by
  have ⟨s, hs⟩ : ∃ s, run (step anyone) (init none none) staleHandle = some s :=
    Option.isSome_iff_exists.mp (by decide +kernel)
  have hr : (run (step anyone) (init none none) staleHandle).map
      (fun s => (s.removed, (s.procs 0).holds, (s.procs 1).holds)) =
      some ([(2, some 1)], true, true) := by
    decide +kernel
  rw [hs] at hr
  have ⟨hr, hh⟩ := Prod.mk.inj (Option.some.inj hr)
  have ⟨h₀, h₁⟩ := Prod.mk.inj hh
  refine ⟨s, hs, fun h => ?_, fun h => ?_⟩
  · cases h (2, some 1) (hr ▸ List.mem_singleton.mpr rfl) 1 rfl
  · cases h 0 1 h₀ h₁

end Healing
end FileLock
