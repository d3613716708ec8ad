import AgentMail.Lib.Threads
import AgentMail.LockOrder.Basic

namespace LockOrder

variable {held held' : List LockLevel} {level : LockLevel}

-- The last of the held locks has the highest rank.
theorem checkBeforeAcquire_iff (h : (held.map LockLevel.rank).Pairwise (· < ·)) :
    checkBeforeAcquire level held ↔ ∀ l ∈ held, l.rank < level.rank := by
  induction held using List.reverseRecOn
  case nil => simp [checkBeforeAcquire]
  case append_singleton held last _ =>
    rw [List.map_append, List.pairwise_append] at h
    have hlast : ∀ l ∈ held, l.rank < last.rank := fun l hl =>
      h.right.right _ (List.mem_map_of_mem hl) _ (List.mem_singleton_self _)
    simp only [checkBeforeAcquire, List.getLast?_concat, decide_eq_true_eq, List.mem_append,
      List.mem_singleton]
    constructor
    case mp =>
      rintro hr l (hl | rfl)
      · exact (hlast l hl).trans hr
      · exact hr
    case mpr => exact fun hl => hl last (.inr rfl)

theorem didAcquire_increasing (h : (held.map LockLevel.rank).Pairwise (· < ·))
    (hl : ∀ l ∈ held, l.rank < level.rank) :
    ((didAcquire level held).map LockLevel.rank).Pairwise (· < ·) := by
  rw [didAcquire, List.map_append, List.pairwise_append]
  refine ⟨h, List.pairwise_singleton _ _, fun r hr r' hr' => ?_⟩
  have ⟨l, hm, hr⟩ := List.mem_map.mp hr
  rw [List.mem_singleton.mp hr', ← hr]
  exact hl l hm

theorem didRelease_perm (h : level ∈ held) :
    ∃ held', didRelease level held = some held' ∧ held'.Sublist held ∧
      held'.Perm (held.erase level) := by
  refine ⟨_, if_pos h, ?_, ?_⟩
  · rw [← List.reverse_sublist, List.reverse_reverse]
    exact List.erase_sublist
  · exact (List.reverse_perm _).trans ((List.reverse_perm held).erase level)

section

variable {τ ι : Type} {level : ι → LockLevel} {t t' : Thread ι}

-- A lock that the thread is about to hold has a higher rank than all that it holds.
def Phase.Above (level : ι → LockLevel) (held : List LockLevel) : Phase ι → Prop
  | locking lock _  => ∀ l ∈ held, l.rank < (level lock).rank
  | tryLocking lock => ∀ l ∈ held, l.rank < (level lock).rank
  | acquired lock _ => ∀ l ∈ held, l.rank < (level lock).rank
  | corrupted       => False
  | _               => True

-- The held locks are those of the guards, in the order of their ranks.
structure Thread.Inv (level : ι → LockLevel) (t : Thread ι) : Prop where
  increasing : (t.held.map LockLevel.rank).Pairwise (· < ·)
  tracked    : t.held.Perm (t.guards.map fun g => level g.1)
  above      : t.phase.Above level t.held

theorem Thread.Inv.goto {phase : Phase ι} (h : t.Inv level) (hp : phase.Above level t.held) :
    { t with phase }.Inv level :=
  { h with above := hp }

variable {mode : Mode} {lock : ι}

theorem Thread.Inv.didAcquire (h : t.Inv level) (hp : t.phase = .acquired lock mode) :
    Thread.Inv level { phase := .idle, held := LockOrder.didAcquire (level lock) t.held,
                       guards := t.guards ++ [(lock, mode)] } where
  increasing := by
    have ha := h.above
    rw [hp] at ha
    exact didAcquire_increasing h.increasing ha
  tracked    := by
    rw [LockOrder.didAcquire, List.map_append]
    exact h.tracked.append_right _
  above      := trivial

variable [DecidableEq ι]

theorem Thread.Inv.drop (h : t.Inv level) (hg : (lock, mode) ∈ t.guards) :
    ∃ held, didRelease (level lock) t.held = some held ∧
      Thread.Inv level
        { phase := .unlocking lock mode, held, guards := t.guards.erase (lock, mode) } := by
  have hl : level lock ∈ t.held := h.tracked.mem_iff.mpr (List.mem_map.mpr ⟨_, hg, rfl⟩)
  have ⟨held, hr, hs, hp⟩ := didRelease_perm hl
  have hguards : (t.guards.map fun g => level g.1).Perm
      (level lock :: (t.guards.erase (lock, mode)).map fun g => level g.1) :=
    (List.perm_cons_erase hg).map _
  refine ⟨held, hr, h.increasing.sublist (hs.map _), hp.trans ?_, trivial⟩
  exact (List.perm_cons_erase hl).symm.trans (h.tracked.trans hguards) |>.cons_inv

theorem Thread.Inv.step {available : ι → Mode → Bool} {e : Event τ ι} (h : t.Inv level)
    (hs : t.step level available e = some t') : t'.Inv level := by
  cases e <;> simp only [Thread.step] at hs
  case lock i lock mode =>
    split at hs <;> try cases hs
    split at hs <;> cases hs
    case isTrue.isTrue hc  => exact h.goto ((checkBeforeAcquire_iff h.increasing).mp hc)
    case isTrue.isFalse hc => exact h
  case tryLock i lock =>
    split at hs <;> try cases hs
    split at hs <;> cases hs
    case isTrue.isTrue hc  => exact h.goto ((checkBeforeAcquire_iff h.increasing).mp hc)
    case isTrue.isFalse hc => exact h
  case acquire i =>
    split at hs <;> try cases hs
    case h_1 hp =>
      split at hs <;> cases hs
      have ha := h.above
      rw [hp] at ha
      exact h.goto ha
    case h_2 hp =>
      split at hs <;> cases hs
      have ha := h.above
      rw [hp] at ha
      exact h.goto ha
  case wouldBlock i =>
    split at hs <;> cases hs
    exact h.goto trivial
  case poisoned i =>
    split at hs <;> try cases hs
    split at hs <;> cases hs
    exact h.goto trivial
  case didAcquire i =>
    split at hs <;> cases hs
    case h_1 hp => exact h.didAcquire hp
  case drop i lock mode =>
    split at hs <;> try cases hs
    case isTrue hg =>
      have ⟨held, hr, hi⟩ := h.drop hg.right
      rw [hr] at hs
      cases hs
      exact hi
  case unlock i =>
    split at hs <;> cases hs
    exact h.goto trivial

end

namespace System

variable {τ ι : Type} {level : ι → LockLevel} {s s' : System τ ι}

def Inv (level : ι → LockLevel) (s : System τ ι) : Prop :=
  ∀ i, (s.threads i).Inv level

theorem init_inv : (init : System τ ι).Inv level :=
  fun _ => ⟨.nil, .refl _, trivial⟩

-- A thread that waits holds no locks but those of its guards.
theorem Inv.rank_lt_of_holds {i : τ} {lock lock' : ι} (h : s.Inv level)
    (hw : (s.threads i).phase.waiting = some lock') (hl : (s.threads i).Holds lock) :
    (level lock).rank < (level lock').rank := by
  have ⟨mode, hm⟩ := hl
  cases hp : (s.threads i).phase
  case locking lock'' mode' =>
    have he : lock'' = lock' := by simpa [hp, Phase.waiting] using hw
    have hg : (lock, mode) ∈ (s.threads i).guards := by
      simpa [Thread.inner, hp, Phase.inner] using hm
    have ha := (h i).above
    simp only [hp, Phase.Above, he] at ha
    exact ha _ ((h i).tracked.mem_iff.mpr (List.mem_map.mpr ⟨_, hg, rfl⟩))
  all_goals simp [hp, Phase.waiting] at hw

theorem Inv.deadlockFree (h : s.Inv level) : s.DeadlockFree where
  increasing  := fun i => (h i).increasing
  checked     := fun i _ => checkBeforeAcquire_iff (h i).increasing
  uncorrupted := by
    intro i hp
    have ha := (h i).above
    rwa [hp] at ha
  acyclic     := by
    intro i
    refine Threads.not_transGen_self (f := fun i =>
      ((s.threads i).phase.waiting).elim 0 fun lock => (level lock).rank) ?_
    intro i j k ⟨lock, hi, hl⟩ ⟨lock', hj, _⟩
    simp only [hi, hj, Option.elim_some]
    exact h.rank_lt_of_holds hj hl

variable [Fintype τ] [DecidableEq τ] [DecidableEq ι] {e : Event τ ι} {es : List (Event τ ι)}

theorem Inv.step (h : s.Inv level) (hs : s.step level e = some s') : s'.Inv level := by
  have ⟨t, ht, hs⟩ := Option.map_eq_some_iff.mp hs
  subst hs
  exact (Function.forall_update_iff s.threads fun _ t => t.Inv level).mpr
    ⟨(h e.actor).step ht, fun i _ => h i⟩

theorem run_deadlockFree (h : run (step level) init es = some s) : s.DeadlockFree := by
  have hi : s.Inv level := Run.invariant (fun hi hs => hi.step hs) init_inv h
  exact hi.deadlockFree

-- One thread releases its first lock before its second one, which another thread waits for.
def contended : List (Event Bool Bool) :=
  [.lock true false .exclusive, .acquire true, .didAcquire true,
    .lock true true .shared, .acquire true, .didAcquire true, .lock false true .exclusive,
    .drop true false .exclusive, .unlock true]

def poolFirst : Bool → LockLevel
  | false => .dbPoolCache
  | true  => .dbReadCacheProjectsBySlug

theorem run_deadlockFree_contended : ∃ s, run (step poolFirst) init contended = some s ∧
    (s.threads false).phase = .locking true .exclusive ∧
      (s.threads true).guards = [(true, .shared)] ∧ s.DeadlockFree := by
  have ⟨s, hs⟩ : ∃ s, run (step poolFirst) init contended = some s :=
    Option.isSome_iff_exists.mp (by decide +kernel)
  have hh : (run (step poolFirst) init contended).map (fun s =>
      ((s.threads false).phase, (s.threads true).guards)) =
        some (.locking true .exclusive, [(true, .shared)]) := by
    decide +kernel
  rw [hs] at hh
  have hh := Prod.mk.inj (Option.some.inj hh)
  exact ⟨s, hs, hh.left, hh.right, run_deadlockFree hs⟩

end System
end LockOrder
