import AgentMail.Coalescer.Basic
import AgentMail.Lib.Threads

namespace Coalescer

variable {ι ρ π α : Type}

section

variable [DecidableEq α]

theorem drainBatch_append (batch queue : List (Request π α)) :
    (drainBatch batch queue).1 ++ (drainBatch batch queue).2 = batch ++ queue := by
  induction queue generalizing batch
  case nil => rfl
  case cons r queue hi =>
    unfold drainBatch
    split
    case isTrue  => rw [hi, List.append_assoc, List.singleton_append]
    case isFalse => rfl

end

def spilledRequests (spill : Option (Spill π α)) : List (Request π α) :=
  (spill.map Spill.requests).getD []

theorem length_spilledRequests (spill : Option (Spill π α)) :
    (spilledRequests spill).length = (spill.map Spill.pendingRequests).getD 0 := by
  cases spill
  case none       => rfl
  case some spill => exact spill.count

-- All requests that are in the queue or in the spill of a repository.
def RepoQueue.all (rq : RepoQueue π α) : List (Request π α) :=
  rq.queue ++ spilledRequests rq.spill

theorem RepoQueue.length_all (rq : RepoQueue π α) :
    rq.all.length = rq.queue.length + rq.spilled := by
  rw [all, List.length_append, length_spilledRequests, spilled]

namespace Phase

def repo : Phase ρ π α → Option ρ
  | enqueue repo _ _ => some repo
  | load repo _ _    => some repo
  | push repo _ _    => some repo
  | spill repo _     => some repo
  | claim repo       => some repo
  | phase            => phase.work.map Work.repo

def workRepo (phase : Phase ρ π α) : Option ρ :=
  phase.work.map Work.repo

-- The requests that a worker holds.
def held (phase : Phase ρ π α) : List (Request π α) :=
  match phase.work with
  | some work => work.requests ++ spilledRequests work.spilled
  | none      => []

-- How many requests a thread has to add to a repository, or to commit.
def uncommitted : Phase ρ π α → Nat
  | load _ _ _ => 1
  | push _ _ _ => 1
  | spill _ _  => 1
  | phase      => phase.held.length

def before : Phase ρ π α → List (Enqueued ρ π α)
  | flush before   => before
  | check before _ => before
  | _              => []

-- What a worker that reconciles the depth has read.
def Reads (rq : RepoQueue π α) : Phase ρ π α → Prop
  | reconcileSpill _ queued         => queued = rq.queue.length
  | reconcileStore _ queued spilled => queued + spilled = rq.queue.length + rq.spilled
  | _                               => True

theorem uncommitted_commitSpill (repo : ρ) (work : Spill π α) :
    (commitSpill repo work).uncommitted = work.pendingRequests :=
  work.count

theorem uncommitted_reportSpill (repo : ρ) (done : Nat) :
    (reportSpill repo done : Phase ρ π α).uncommitted = 0 :=
  rfl

theorem eq_of_repo {p : Phase ρ π α} {repo : ρ} (h : p.repo = some repo) :
    ∀ r ∈ p.repo, r = repo := by
  intro r hr
  rw [h] at hr
  exact (Option.some.inj hr).symm

end Phase

namespace System

-- The effect of a step of a thread that has to do with one repository.
def move [DecidableEq ι] [DecidableEq ρ] (s : System ι ρ π α) (i : ι) (repo : ρ)
    (phase : Phase ρ π α) (rq : RepoQueue π α) (cs : List (Commit π)) (log : Option (Request π α))
    (pending counted committed : Nat) : System ι ρ π α where
  repos           := Function.update s.repos repo rq
  known           := s.known
  pendingRequests := pending
  commits         := Function.update s.commits repo (s.commits repo ++ cs)
  threads         := Function.update s.threads i phase
  enqueued        := s.enqueued ++ (log.map (⟨repo, ·, (s.commits repo).length⟩)).toList
  flushed         := s.flushed
  counted         := counted
  committed       := committed

-- What such a step guarantees: the requests are in the repository, or the worker holds them, or
-- they are committed, and everything is counted.
structure Transfer (s : System ι ρ π α) (repo : ρ) (p p' : Phase ρ π α) (rq : RepoQueue π α)
    (cs : List (Commit π)) (log : Option (Request π α)) (pending counted committed : Nat) :
    Prop where
  repo_eq : ∀ r ∈ p'.repo, r = repo
  before  : p'.before = []
  kept    : ∀ r, r ∈ (s.repos repo).all ∨ r ∈ p.held →
    r ∈ rq.all ∨ r ∈ p'.held ∨ ∀ q ∈ r.relPaths, ∃ c ∈ cs, c.Covers q
  logged  : ∀ r ∈ log, r ∈ rq.all
  pending_eq : pending + (p.uncommitted + p.unreported + (s.repos repo).all.length) =
    s.pendingRequests + (p'.uncommitted + p'.unreported + rq.all.length)
  counted_eq : counted + s.committed + (p.uncommitted + (s.repos repo).all.length) =
    s.counted + committed + (p'.uncommitted + rq.all.length)
  claim   : rq.processing = (s.repos repo).processing ∧ p'.workRepo = p.workRepo ∨
    (s.repos repo).processing = false ∧ rq.processing = true ∧ p'.workRepo = some repo ∨
    p.workRepo = some repo ∧ p'.workRepo = none
  depth   : (s.repos repo).depth = (s.repos repo).all.length → p.Reads (s.repos repo) →
    rq.depth = rq.all.length
  reads   : p.Reads (s.repos repo) → p'.Reads rq
  frame   : p.workRepo = some repo ∨
    (rq.queue.length = (s.repos repo).queue.length ∨ s.pushes p = some repo) ∧
    (rq.spilled = (s.repos repo).spilled ∨ p.spills = some repo)

end System

namespace Phase

variable {repo : ρ} {batch : List (Request π α)} {work : Option (Spill π α)}

-- A worker that goes on with what it has drained.
structure Carries (phase : Phase ρ π α) (repo : ρ) (requests : List (Request π α)) : Prop where
  repo_eq     : phase.repo = some repo
  workRepo    : phase.workRepo = some repo
  held        : phase.held = requests
  uncommitted : phase.uncommitted = requests.length
  unreported  : phase.unreported = 0
  before      : phase.before = []
  reads       : ∀ rq, phase.Reads rq

-- What has been drained and not committed is held, and nothing has been committed that is not
-- reported.
theorem carries_of_work {phase : Phase ρ π α} {requests : List (Request π α)}
    (h : phase.work = some ⟨repo, requests, work⟩) (hu : phase.unreported = 0)
    (hr : ∀ rq, phase.Reads rq) : phase.Carries repo (requests ++ spilledRequests work) := by
  have hh : phase.held = requests ++ spilledRequests work := by rw [held, h]
  cases phase <;> cases h <;>
    exact ⟨rfl, rfl, hh, congrArg List.length hh, hu, rfl, hr⟩

theorem afterBatch_carries : (afterBatch repo work).Carries repo (spilledRequests work) := by
  cases work <;> exact ⟨rfl, rfl, rfl, rfl, rfl, rfl, fun _ => trivial⟩

variable [DecidableEq π]

theorem commitBatch_carries :
    (commitBatch repo batch work).Carries repo (batch ++ spilledRequests work) := by
  unfold commitBatch
  split
  case isTrue hb =>
    rw [List.isEmpty_iff.mp hb]
    exact afterBatch_carries
  case isFalse =>
    split
    case isTrue => exact ⟨rfl, rfl, rfl, rfl, rfl, rfl, fun _ => trivial⟩
    case isFalse =>
      split
      case isTrue => exact ⟨rfl, rfl, rfl, rfl, rfl, rfl, fun _ => trivial⟩
      case isFalse =>
        have hh : (each repo batch [] 0 work).held = batch ++ spilledRequests work := by
          simp [Phase.held, Phase.work]
        exact ⟨rfl, rfl, hh, congrArg List.length hh, rfl, rfl, fun _ => trivial⟩

theorem afterDrain_carries :
    (afterDrain repo batch work).Carries repo (batch ++ spilledRequests work) := by
  unfold afterDrain
  split
  case isTrue h =>
    rw [← length_spilledRequests, ← List.length_append] at h
    rw [List.eq_nil_of_length_eq_zero h]
    exact ⟨rfl, rfl, rfl, rfl, rfl, rfl, fun _ => trivial⟩
  case isFalse => exact commitBatch_carries

end Phase

namespace System

variable {s s' : System ι ρ π α} {i : ι} {repo : ρ} {p p' : Phase ρ π α} {rq : RepoQueue π α}

-- The thread changes its phase, and it may have committed something.
theorem Transfer.stay {cs : List (Commit π)} {pending counted committed : Nat}
    (hr : p'.repo = some repo) (hb : p'.before = [])
    (hk : ∀ r ∈ p.held, r ∈ p'.held ∨ ∀ q ∈ r.relPaths, ∃ c ∈ cs, c.Covers q)
    (hp : pending + (p.uncommitted + p.unreported) =
      s.pendingRequests + (p'.uncommitted + p'.unreported))
    (hc : counted + s.committed + p.uncommitted = s.counted + committed + p'.uncommitted)
    (hw : p'.workRepo = p.workRepo) (hreads : p.Reads (s.repos repo) → p'.Reads (s.repos repo)) :
    s.Transfer repo p p' (s.repos repo) cs none pending counted committed where
  repo_eq := Phase.eq_of_repo hr
  before  := hb
  kept r hr := by
    cases hr
    case inl hr => exact .inl hr
    case inr hr => exact .inr (hk r hr)
  logged  := nofun
  pending_eq := by omega
  counted_eq := by omega
  claim   := .inl ⟨rfl, hw⟩
  depth   := fun h _ => h
  reads   := hreads
  frame   := .inr ⟨.inl rfl, .inl rfl⟩

-- The worker changes the repository, and it goes on with what it has.
theorem Transfer.carry {requests : List (Request π α)} (hp : p.Carries repo requests)
    {requests' : List (Request π α)} (hp' : p'.Carries repo requests')
    (hq : rq.processing = (s.repos repo).processing)
    (hk : ((s.repos repo).all ++ requests).Perm (rq.all ++ requests'))
    (hd : (s.repos repo).depth = (s.repos repo).all.length → p.Reads (s.repos repo) →
      rq.depth = rq.all.length) :
    s.Transfer repo p p' rq [] none s.pendingRequests s.counted s.committed where
  repo_eq := Phase.eq_of_repo hp'.repo_eq
  before  := hp'.before
  kept r hr := by
    have hm : r ∈ (s.repos repo).all ++ requests := by
      rw [List.mem_append, ← hp.held]
      exact hr
    cases List.mem_append.mp (hk.mem_iff.mp hm)
    case inl hm => exact .inl hm
    case inr hm => exact .inr (.inl (hp'.held ▸ hm))
  logged  := nofun
  pending_eq := by
    have hl := hk.length_eq
    rw [List.length_append, List.length_append] at hl
    rw [hp.uncommitted, hp'.uncommitted, hp.unreported, hp'.unreported]
    omega
  counted_eq := by
    have hl := hk.length_eq
    rw [List.length_append, List.length_append] at hl
    rw [hp.uncommitted, hp'.uncommitted]
    omega
  claim   := .inl ⟨hq, hp'.workRepo.trans hp.workRepo.symm⟩
  depth   := hd
  reads   := fun _ => hp'.reads rq
  frame   := .inl hp.workRepo

-- A request is added to the repository.
theorem Transfer.add {r : Request π α} (hw : p.workRepo = none)
    (hh : p.held = []) (hu : p.uncommitted = 1) (hn : p.unreported = 0)
    (hq : rq.processing = (s.repos repo).processing)
    (hk : rq.all.Perm ((s.repos repo).all ++ [r])) (hd : rq.depth = (s.repos repo).depth + 1)
    (hf : (rq.queue.length = (s.repos repo).queue.length ∨ s.pushes p = some repo) ∧
      (rq.spilled = (s.repos repo).spilled ∨ p.spills = some repo)) :
    s.Transfer repo p .idle rq [] (some r) s.pendingRequests s.counted s.committed := by
  have hl : rq.all.length = (s.repos repo).all.length + 1 := by
    rw [hk.length_eq, List.length_append, List.length_singleton]
  refine ⟨nofun, rfl, fun r hr => ?_, fun r hr => ?_, ?_, ?_, .inl ⟨hq, hw.symm⟩, fun h _ => ?_,
    fun _ => trivial, .inr hf⟩
  · rw [hh] at hr
    cases hr
    case inl hr => exact .inl (hk.mem_iff.mpr (List.mem_append.mpr (.inl hr)))
    case inr hr => cases hr
  · cases hr
    exact hk.mem_iff.mpr (List.mem_append.mpr (.inr (List.mem_singleton.mpr rfl)))
  · rw [hl, hu, hn]
    simp only [Phase.uncommitted, Phase.held, Phase.work, Phase.unreported, List.length_nil]
    omega
  · rw [hl, hu]
    simp only [Phase.uncommitted, Phase.held, Phase.work, List.length_nil]
    omega
  · rw [hd, h, hl]

theorem drainSpill_spec {rq rq' : RepoQueue π α} {work : Option (Spill π α)}
    (h : drainSpill rq = (work, rq')) :
    rq'.processing = rq.processing ∧ rq.all = rq'.all ++ spilledRequests work ∧
      (rq.depth = rq.all.length → rq'.depth = rq'.all.length) := by
  unfold drainSpill at h
  split at h
  case h_1 hs =>
    cases h
    exact ⟨rfl, by simp [spilledRequests], fun hd => hd⟩
  case h_2 spill hs =>
    split at h <;> cases h
    case isTrue hz =>
      have hn : spill.requests = [] := List.eq_nil_of_length_eq_zero (spill.count.trans hz)
      have ha : rq.all = { rq with spill := none }.all := by
        simp [RepoQueue.all, spilledRequests, hs, hn]
      exact ⟨rfl, by rw [ha]; simp [spilledRequests], fun hd => hd.trans (congrArg List.length ha)⟩
    case isFalse =>
      have ha : rq.all = rq.queue ++ spill.requests := by
        simp [RepoQueue.all, spilledRequests, hs]
      refine ⟨rfl, by simp [RepoQueue.all, spilledRequests, hs], fun hd => ?_⟩
      rw [ha, List.length_append, spill.count] at hd
      simp [RepoQueue.all, spilledRequests, hd]

theorem restoreWork_spec [DecidableEq π] (rq : RepoQueue π α) (work : Spill π α) :
    (restoreWork rq work).processing = rq.processing ∧
      (restoreWork rq work).all = rq.all ++ work.requests ∧
      (restoreWork rq work).depth = rq.depth + work.requests.length := by
  unfold restoreWork
  split
  case isTrue hz =>
    have hn : work.requests = [] := List.eq_nil_of_length_eq_zero (work.count.trans hz)
    simp [hn]
  case isFalse =>
    refine ⟨rfl, ?_, by rw [work.count]⟩
    cases hs : rq.spill <;> simp [RepoQueue.all, spilledRequests, Spill.restore, Spill.new, hs]

variable [DecidableEq ι] [DecidableEq ρ]

-- A thread takes a step that has to do with one repository.
def Moves (s : System ι ρ π α) (i : ι) (repo : ρ) (p : Phase ρ π α) (s' : System ι ρ π α) : Prop :=
  ∃ p' rq cs log pending counted committed,
    s.Transfer repo p p' rq cs log pending counted committed ∧
      s' = s.move i repo p' rq cs log pending counted committed

theorem moves_goto {pendingRequests counted committed : Nat}
    (h : s.Transfer repo p p' (s.repos repo) [] none pendingRequests counted committed) :
    s.Moves i repo p ({ s with pendingRequests, counted, committed }.goto i p') :=
  ⟨_, _, _, _, _, _, _, h, by simp [goto, move]⟩

theorem moves_setRepo
    (h : s.Transfer repo p p' rq [] none s.pendingRequests s.counted s.committed) :
    s.Moves i repo p ((s.setRepo repo rq).goto i p') :=
  ⟨_, _, _, _, _, _, _, h, by simp [goto, setRepo, move]⟩

theorem moves_log {r : Request π α}
    (h : s.Transfer repo p p' rq [] (some r) s.pendingRequests s.counted s.committed) :
    s.Moves i repo p (((s.setRepo repo rq).log repo r).goto i p') :=
  ⟨_, _, _, _, _, _, _, h, by simp [goto, log, setRepo, move]⟩

theorem moves_addCommit {c : Commit π} {count : Nat}
    (h : s.Transfer repo p p' (s.repos repo) [c] none
    s.pendingRequests s.counted (s.committed + count)) :
    s.Moves i repo p ((s.addCommit repo c count).goto i p') :=
  ⟨_, _, _, _, _, _, _, h, by simp [goto, addCommit, move]⟩

variable [DecidableEq π] [DecidableEq α]

theorem advance_moves (hu : p.unreported ≤ s.pendingRequests) (hr : p.repo = some repo)
    (hs : s.advance i p = some s') : s.Moves i repo p s' := by
  cases p <;> simp only [Phase.repo, Phase.work, Option.map_some, Option.map_none,
    Option.some.injEq, reduceCtorEq] at hr <;> subst hr
  case enqueue repo cap r =>
    cases hs
    refine moves_goto (.stay rfl rfl nofun rfl ?_ rfl fun _ => trivial)
    simp only [Phase.uncommitted, Phase.held, Phase.work, List.length_nil]
    omega
  case load repo cap r =>
    cases hs
    refine moves_goto ?_
    split
    case isTrue  => exact .stay rfl rfl nofun rfl rfl rfl fun _ => trivial
    case isFalse => exact .stay rfl rfl nofun rfl rfl rfl fun _ => trivial
  case push repo cap r =>
    simp only [advance] at hs
    split at hs <;> cases hs
    case isTrue hl =>
      refine moves_log (.add rfl rfl rfl rfl rfl ?_ rfl ⟨.inr (if_pos hl), .inl rfl⟩)
      simp only [RepoQueue.all, List.append_assoc]
      exact List.perm_append_comm.append_left _
    case isFalse => exact moves_goto (.stay rfl rfl nofun rfl rfl rfl fun _ => trivial)
  case spill repo r =>
    cases hs
    refine moves_log (.add rfl rfl rfl rfl rfl (.of_eq ?_) rfl ⟨.inl rfl, .inr rfl⟩)
    cases hsp : (s.repos repo).spill <;>
      simp [RepoQueue.all, spilledRequests, Spill.add, Spill.new, hsp]
  case claim repo =>
    simp only [advance] at hs
    split at hs <;> cases hs
    case isTrue =>
      exact moves_goto ⟨nofun, rfl, fun r hr => hr.imp_right .inl, nofun, rfl, rfl, .inl ⟨rfl, rfl⟩,
        fun h _ => h, fun _ => trivial, .inr ⟨.inl rfl, .inl rfl⟩⟩
    case isFalse hn =>
      exact moves_setRepo ⟨Phase.eq_of_repo rfl, rfl, fun r hr => hr.imp_right .inl,
        nofun, rfl, rfl, .inr (.inl ⟨Bool.eq_false_iff.mpr hn, rfl, rfl⟩), fun h _ => h, fun _ =>
          trivial,
        .inr ⟨.inl rfl, .inl rfl⟩⟩
  case drainQueue repo =>
    cases hb : drainBatch [] (s.repos repo).queue
    case mk batch queue =>
    have ha : batch ++ queue = (s.repos repo).queue := by
      simpa [hb] using drainBatch_append [] (s.repos repo).queue
    simp only [advance, hb] at hs
    cases hs
    have hc : (if queue.isEmpty then Phase.drainSpill repo batch
        else afterDrain repo batch none).Carries repo (batch ++ spilledRequests none) := by
      split
      case isTrue  => exact Phase.carries_of_work rfl rfl fun _ => trivial
      case isFalse => exact Phase.afterDrain_carries
    refine moves_setRepo (.carry (Phase.carries_of_work rfl rfl fun _ => trivial) hc rfl ?_
      fun hd _ => ?_)
    · simp only [RepoQueue.all, ← ha, spilledRequests, Option.map_none, Option.getD_none,
        List.append_nil, List.append_assoc]
      exact List.perm_append_comm.trans (.of_eq (List.append_assoc ..))
    · rw [RepoQueue.length_all, ← ha, List.length_append] at hd
      rw [RepoQueue.length_all, hd]
      simp only [RepoQueue.spilled]
      omega
  case drainSpill repo batch =>
    cases hb : drainSpill (s.repos repo)
    case mk work rq =>
    have ⟨hq, ha, hd⟩ := drainSpill_spec hb
    simp only [advance, hb] at hs
    cases hs
    refine moves_setRepo (.carry (Phase.carries_of_work rfl rfl fun _ => trivial)
      Phase.afterDrain_carries hq ?_ fun h _ => hd h)
    rw [ha, List.append_assoc]
    simp only [spilledRequests, Option.map_none, Option.getD_none, List.append_nil]
    exact List.perm_append_comm.append_left _
  case merged => cases hs
  case each repo todo failed done work =>
    cases todo
    case cons => cases hs
    case nil  =>
      cases hs
      exact moves_goto (.stay rfl rfl (fun r hr => .inl hr) rfl rfl rfl fun _ => trivial)
  case report repo done failed work =>
    cases hs
    refine moves_goto (.stay rfl rfl (fun r hr => .inl hr) ?_ rfl rfl fun _ => trivial)
    simp only [Phase.unreported] at hu ⊢
    simp only [Phase.uncommitted, Phase.held, Phase.work]
    omega
  case requeue repo failed work =>
    cases hs
    refine moves_setRepo (.carry (Phase.carries_of_work rfl rfl fun _ => trivial)
      Phase.afterBatch_carries rfl ?_ fun hd _ => ?_)
    · simp only [RepoQueue.all, ← List.append_assoc]
      refine .append_right _ ?_
      rw [List.append_assoc failed]
      exact List.perm_append_comm
    · rw [RepoQueue.length_all] at hd
      rw [RepoQueue.length_all, hd, List.length_append]
      simp only [RepoQueue.spilled]
      omega
  case commitSpill repo work =>
    simp only [advance] at hs
    split at hs
    case isTrue hz =>
      cases hs
      have hn : work.requests = [] := List.eq_nil_of_length_eq_zero (work.count.trans hz)
      refine moves_goto (.stay rfl rfl (fun r hr => ?_) ?_ ?_ rfl fun _ => trivial)
      all_goals
        simp_all [Phase.uncommitted, Phase.held, Phase.work, Phase.unreported, spilledRequests]
    case isFalse =>
      split at hs <;> cases hs
      case isFalse hn =>
        have ⟨hd, hp⟩ := not_or.mp hn
        refine moves_goto (.stay rfl rfl (fun r hr => .inr fun q hq => ?_) ?_ ?_ rfl fun _ =>
          trivial)
        · have hc := work.covers (Bool.eq_false_iff.mpr hd) r hr hq
          rw [Classical.not_not.mp hp] at hc
          cases hc
        all_goals
          simp only [Phase.uncommitted_commitSpill, Phase.uncommitted_reportSpill, Phase.unreported]
          omega
  case restore repo work =>
    cases hs
    have ⟨hq, ha, hd⟩ := restoreWork_spec (s.repos repo) work
    refine moves_setRepo (.carry (Phase.carries_of_work rfl rfl fun _ => trivial)
      (Phase.carries_of_work rfl rfl fun _ => trivial) hq (.of_eq ?_) fun h _ => ?_)
    · simp [ha, spilledRequests]
    · rw [hd, ha, List.length_append, h]
  case reportSpill repo done =>
    cases hs
    refine moves_goto (.stay rfl rfl (fun r hr => .inl hr) ?_ rfl rfl fun _ => trivial)
    simp only [Phase.unreported] at hu ⊢
    simp only [Phase.uncommitted, Phase.held, Phase.work]
    omega
  case reconcileQueue repo =>
    cases hs
    exact moves_goto (.stay rfl rfl (fun r hr => .inl hr) rfl rfl rfl fun _ => rfl)
  case reconcileSpill repo queued =>
    cases hs
    exact moves_goto (.stay rfl rfl (fun r hr => .inl hr) rfl rfl rfl fun h => congrArg (· + _) h)
  case reconcileStore repo queued spilled =>
    cases hs
    exact moves_setRepo ⟨Phase.eq_of_repo rfl, rfl, fun r hr => hr.imp_right .inl, nofun, rfl, rfl,
      .inl ⟨rfl, rfl⟩, fun _ hr => Eq.trans hr (RepoQueue.length_all _).symm, fun _ => trivial,
      .inl rfl⟩
  case release repo =>
    cases hs
    exact moves_setRepo ⟨nofun, rfl, fun r hr => hr.imp_right .inl, nofun, rfl, rfl,
      .inr (.inr ⟨rfl, rfl⟩), fun h _ => h, fun _ => trivial, .inl rfl⟩

omit [DecidableEq π] [DecidableEq α] in
theorem commit_moves {ok : Bool} (hr : p.repo = some repo) (hs : s.commit i ok p = some s') :
    s.Moves i repo p s' := by
  cases p <;> simp only [Phase.repo, Phase.work, Option.map_some, Option.map_none,
    Option.some.injEq, reduceCtorEq] at hr <;> subst hr
  case merged repo batch work =>
    simp only [commit] at hs
    split at hs <;> cases hs
    case isTrue =>
      refine moves_addCommit (.stay rfl rfl (fun r hr => ?_) ?_ ?_ rfl fun _ => trivial)
      · cases List.mem_append.mp hr
        case inl hr =>
          exact .inr fun q hq => ⟨_, List.mem_singleton.mpr rfl, List.mem_flatMap.mpr ⟨r, hr, hq⟩⟩
        case inr hr => exact .inl (List.mem_append.mpr (.inr hr))
      all_goals
        simp only [Phase.uncommitted, Phase.held, Phase.work, Phase.unreported, List.length_append,
          List.length_nil]
        omega
    case isFalse =>
      exact moves_goto (.stay rfl rfl (fun r hr => .inl hr) rfl rfl rfl fun _ => trivial)
  case each repo todo failed done work =>
    cases todo
    case nil => cases hs
    case cons r todo =>
      simp only [commit] at hs
      split at hs <;> cases hs
      case isTrue =>
        refine moves_addCommit (.stay rfl rfl (fun r' hr => ?_) ?_ ?_ rfl fun _ => trivial)
        · cases List.mem_cons.mp hr
          case inl hr => exact .inr fun q hq => ⟨_, List.mem_singleton.mpr rfl, hr ▸ hq⟩
          case inr hr => exact .inl hr
        all_goals
          simp only [Phase.uncommitted, Phase.held, Phase.work, Phase.unreported,
            List.length_append, List.length_cons]
          omega
      case isFalse =>
        refine moves_goto (.stay rfl rfl (fun r' hr => .inl ?_) ?_ ?_ rfl fun _ => trivial)
        · simp only [Phase.held, Phase.work, List.mem_append, List.mem_cons] at hr ⊢
          grind
        all_goals
          simp only [Phase.uncommitted, Phase.held, Phase.work, Phase.unreported,
            List.length_append, List.length_cons, List.length_nil]
          omega
  case commitSpill repo work =>
    simp only [commit] at hs
    split at hs
    case isFalse => cases hs
    case isTrue hw =>
      split at hs <;> cases hs
      case isFalse =>
        exact moves_goto (.stay rfl rfl (fun r hr => .inl hr) rfl rfl rfl fun _ => trivial)
      case isTrue =>
        refine moves_addCommit (.stay rfl rfl (fun r hr => .inr fun q hq => ?_) ?_ ?_ rfl
          fun _ => trivial)
        · refine ⟨_, List.mem_singleton.mpr rfl, ?_⟩
          split
          case isTrue     => trivial
          case isFalse hd => exact work.covers (Bool.eq_false_iff.mpr hd) r hr hq
        all_goals
          simp only [Phase.uncommitted_commitSpill, Phase.uncommitted_reportSpill, Phase.unreported]
          omega
  all_goals cases hs

end System
end Coalescer
