import Mathlib.Algebra.BigOperators.Group.Finset.Basic
import Mathlib.Data.Finset.Basic
import Mathlib.Data.Fintype.Basic
import Mathlib.Logic.Function.Basic
import AgentMail.Lib.Run

namespace Coalescer

def maxBatchSize : Nat :=
  10

def spillPathCap : Nat :=
  4096

-- The author and the paths of a commit request.
structure Request (π α : Type) where
  author   : α
  relPaths : List π
  deriving DecidableEq

section

variable {π : Type} [DecidableEq π]

-- When there are too many paths, they are replaced by a mark.
def insertPaths (paths : List π) : List π → Bool × List π
  | []      => (false, paths)
  | p :: ps =>
    if (paths.insert p).length > spillPathCap then (true, []) else insertPaths (paths.insert p) ps

theorem subset_insertPaths {paths ps : List π} (h : (insertPaths paths ps).1 = false) :
    paths ⊆ (insertPaths paths ps).2 ∧ ps ⊆ (insertPaths paths ps).2 := by
  induction ps generalizing paths
  case nil => exact ⟨List.Subset.refl _, List.nil_subset _⟩
  case cons p ps hi =>
    unfold insertPaths at h ⊢
    split at h
    case isTrue => cases h
    case isFalse hn =>
      have ⟨hl, hr⟩ := hi h
      rw [if_neg hn]
      exact ⟨fun _ hq => hl (List.mem_insert_of_mem hq),
        List.cons_subset.mpr ⟨hl List.mem_insert_self, hr⟩⟩

end

-- Requests for which there was no room in a queue. The paths of all requests are merged, unless
-- everything is to be committed.
structure Spill (π α : Type) where
  pendingRequests : Nat
  dirtyAll        : Bool
  paths           : List π
  author          : α
  requests        : List (Request π α)
  count           : requests.length = pendingRequests
  covers          : dirtyAll = false → ∀ r ∈ requests, r.relPaths ⊆ paths

namespace Spill

variable {π α : Type}

def new (author : α) : Spill π α where
  pendingRequests := 0
  dirtyAll        := false
  paths           := []
  author          := author
  requests        := []
  count           := rfl
  covers          := nofun

variable [DecidableEq π]

-- `CommitCoalescer::spill_to_repo`
def add (spill : Spill π α) (r : Request π α) : Spill π α where
  pendingRequests := spill.pendingRequests + 1
  dirtyAll        := spill.dirtyAll || (insertPaths spill.paths r.relPaths).1
  paths           := if spill.dirtyAll then spill.paths else (insertPaths spill.paths r.relPaths).2
  author          := r.author
  requests        := spill.requests ++ [r]
  count           := by rw [List.length_append, spill.count, List.length_singleton]
  covers h        := by
    have ⟨hd, hi⟩ := Bool.or_eq_false_iff.mp h
    have ⟨hl, hr⟩ := subset_insertPaths hi
    rw [if_neg (Bool.eq_false_iff.mp hd)]
    intro q hq
    cases List.mem_append.mp hq
    case inl hq => exact fun _ hp => hl (spill.covers hd q hq hp)
    case inr hq => exact List.mem_singleton.mp hq ▸ hr

-- `coalescer_restore_spilled_work`
def restore (spill work : Spill π α) : Spill π α where
  pendingRequests := spill.pendingRequests + work.pendingRequests
  dirtyAll        := spill.dirtyAll || work.dirtyAll || (insertPaths spill.paths work.paths).1
  paths           :=
    if spill.dirtyAll || work.dirtyAll then [] else (insertPaths spill.paths work.paths).2
  author          := work.author
  requests        := spill.requests ++ work.requests
  count           := by rw [List.length_append, spill.count, work.count]
  covers h        := by
    have ⟨hd, hi⟩ := Bool.or_eq_false_iff.mp h
    have ⟨hs, hw⟩ := Bool.or_eq_false_iff.mp hd
    have ⟨hl, hr⟩ := subset_insertPaths hi
    rw [if_neg (Bool.eq_false_iff.mp hd)]
    intro q hq
    cases List.mem_append.mp hq
    case inl hq => exact fun _ hp => hl (spill.covers hs q hq hp)
    case inr hq => exact fun _ hp => hr (work.covers hw q hq hp)

end Spill

structure RepoQueue (π α : Type) where
  queue      : List (Request π α)
  spill      : Option (Spill π α)
  depth      : Nat
  processing : Bool

namespace RepoQueue

variable {π α : Type}

def new : RepoQueue π α where
  queue      := []
  spill      := none
  depth      := 0
  processing := false

def spilled (rq : RepoQueue π α) : Nat :=
  (rq.spill.map Spill.pendingRequests).getD 0

end RepoQueue

-- Paths that have been committed, or everything.
inductive Commit (π : Type)
  | paths (paths : List π)
  | all

def Commit.Covers {π : Type} : Commit π → π → Prop
  | paths ps, p => p ∈ ps
  | all, _      => True

-- A request that has been enqueued, with the number of earlier commits in its repository.
structure Enqueued (ρ π α : Type) where
  repo    : ρ
  request : Request π α
  since   : Nat

-- A thread in front of its next atomic step: a call of `enqueue`, a worker that processes a
-- repository, or a call of `flush_sync` with the requests that had been enqueued when it started.
inductive Phase (ρ π α : Type)
  | idle
  | enqueue (repo : ρ) (cap : Nat) (r : Request π α)
  | load (repo : ρ) (cap : Nat) (r : Request π α)
  | push (repo : ρ) (cap : Nat) (r : Request π α)
  | spill (repo : ρ) (r : Request π α)
  | claim (repo : ρ)
  | drainQueue (repo : ρ)
  | drainSpill (repo : ρ) (batch : List (Request π α))
  | merged (repo : ρ) (batch : List (Request π α)) (work : Option (Spill π α))
  | each (repo : ρ) (todo failed : List (Request π α)) (done : Nat) (work : Option (Spill π α))
  | report (repo : ρ) (done : Nat) (failed : List (Request π α)) (work : Option (Spill π α))
  | requeue (repo : ρ) (failed : List (Request π α)) (work : Option (Spill π α))
  | commitSpill (repo : ρ) (work : Spill π α)
  | restore (repo : ρ) (work : Spill π α)
  | reportSpill (repo : ρ) (done : Nat)
  | reconcileQueue (repo : ρ)
  | reconcileSpill (repo : ρ) (queued : Nat)
  | reconcileStore (repo : ρ) (queued spilled : Nat)
  | release (repo : ρ)
  | flush (before : List (Enqueued ρ π α))
  | check (before : List (Enqueued ρ π α)) (todo : Finset ρ)

inductive Event (ι ρ π α : Type)
  | enqueue (i : ι) (repo : ρ) (cap : Nat) (r : Request π α)
  | select (i : ι) (repo : ρ)
  | advance (i : ι)
  | commit (i : ι) (ok : Bool)
  | flush (i : ι)
  | check (i : ι) (repo : ρ)
  | timeout (i : ι)

-- The repositories with the global counter, the commits, the threads, all requests that have been
-- enqueued, and those for which a flush has waited. Requests are counted when the counter is
-- incremented and when they are committed.
structure System (ι ρ π α : Type) where
  repos           : ρ → RepoQueue π α
  known           : Finset ρ
  pendingRequests : Nat
  commits         : ρ → List (Commit π)
  threads         : ι → Phase ρ π α
  enqueued        : List (Enqueued ρ π α)
  flushed         : List (Enqueued ρ π α)
  counted         : Nat
  committed       : Nat

section

variable {ρ π α : Type} [DecidableEq α] [DecidableEq π]

-- Requests of one author, up to the size of a batch.
def drainBatch (batch : List (Request π α)) : List (Request π α) →
    List (Request π α) × List (Request π α)
  | []         => (batch, [])
  | r :: queue =>
    if batch.length < maxBatchSize ∧ ∀ first ∈ batch.head?, r.author = first.author then
      drainBatch (batch ++ [r]) queue
    else (batch, r :: queue)

def canMerge (requests : List (Request π α)) : Bool :=
  (requests.flatMap Request.relPaths).Nodup

def afterBatch (repo : ρ) : Option (Spill π α) → Phase ρ π α
  | some work => .commitSpill repo work
  | none      => .release repo

-- `coalescer_commit_batch`
def commitBatch (repo : ρ) (batch : List (Request π α)) (work : Option (Spill π α)) : Phase ρ π α :=
  if batch.isEmpty then afterBatch repo work
  else if canMerge batch ∧ batch.length > 1 ∧ batch.length ≤ maxBatchSize then
    .merged repo batch work
  else if batch.length = 1 then .merged repo batch work
  else .each repo batch [] 0 work

def afterDrain (repo : ρ) (batch : List (Request π α)) (work : Option (Spill π α)) : Phase ρ π α :=
  if batch.length + (work.map Spill.pendingRequests).getD 0 = 0 then .reconcileQueue repo
  else commitBatch repo batch work

end

namespace System

variable {ι ρ π α : Type} [DecidableEq ι] [DecidableEq ρ] [DecidableEq π] [DecidableEq α]

def init : System ι ρ π α where
  repos           := fun _ => .new
  known           := ∅
  pendingRequests := 0
  commits         := fun _ => []
  threads         := fun _ => .idle
  enqueued        := []
  flushed         := []
  counted         := 0
  committed       := 0

def goto (s : System ι ρ π α) (i : ι) (phase : Phase ρ π α) : System ι ρ π α :=
  { s with threads := Function.update s.threads i phase }

def setRepo (s : System ι ρ π α) (repo : ρ) (rq : RepoQueue π α) : System ι ρ π α :=
  { s with repos := Function.update s.repos repo rq }

def log (s : System ι ρ π α) (repo : ρ) (r : Request π α) : System ι ρ π α :=
  { s with enqueued := s.enqueued ++ [⟨repo, r, (s.commits repo).length⟩] }

def addCommit (s : System ι ρ π α) (repo : ρ) (c : Commit π) (count : Nat) : System ι ρ π α :=
  { s with
    commits   := Function.update s.commits repo (s.commits repo ++ [c])
    committed := s.committed + count }

-- `coalescer_drain_repo_spill`
def drainSpill (rq : RepoQueue π α) : Option (Spill π α) × RepoQueue π α :=
  match rq.spill with
  | none       => (none, rq)
  | some spill =>
    if spill.pendingRequests = 0 then (none, { rq with spill := none })
    else (some spill, { rq with spill := none, depth := rq.depth - spill.pendingRequests })

def restoreWork (rq : RepoQueue π α) (work : Spill π α) : RepoQueue π α :=
  if work.pendingRequests = 0 then rq else { rq with
    spill := some ((rq.spill.getD (.new work.author)).restore work)
    depth := rq.depth + work.pendingRequests }

def advance (s : System ι ρ π α) (i : ι) : Phase ρ π α → Option (System ι ρ π α)
  | .enqueue repo cap r =>
    some ({ s with pendingRequests := s.pendingRequests + 1, counted := s.counted + 1 }.goto i
      (.load repo cap r))
  | .load repo cap r =>
    some (s.goto i (if (s.repos repo).depth < cap then .push repo cap r else .spill repo r))
  | .push repo cap r =>
    let rq := s.repos repo
    if rq.queue.length < cap then
      some (((s.setRepo repo { rq with queue := rq.queue ++ [r], depth := rq.depth + 1 }).log repo
        r).goto
        i .idle)
    else some (s.goto i (.spill repo r))
  | .spill repo r =>
    let rq := s.repos repo
    some (((s.setRepo repo { rq with
      spill := some ((rq.spill.getD (.new r.author)).add r)
      depth := rq.depth + 1 }).log repo r).goto i .idle)
  | .claim repo =>
    let rq := s.repos repo
    if rq.processing then some (s.goto i .idle)
    else some ((s.setRepo repo { rq with processing := true }).goto i (.drainQueue repo))
  | .drainQueue repo =>
    let rq := s.repos repo
    let (batch, queue) := drainBatch [] rq.queue
    some ((s.setRepo repo { rq with queue, depth := rq.depth - batch.length }).goto i
      (if queue.isEmpty then .drainSpill repo batch else afterDrain repo batch none))
  | .drainSpill repo batch =>
    let (work, rq) := drainSpill (s.repos repo)
    some ((s.setRepo repo rq).goto i (afterDrain repo batch work))
  | .each repo [] failed done work => some (s.goto i (.report repo done failed work))
  | .report repo done failed work =>
    some ({ s with pendingRequests := s.pendingRequests - done }.goto i (.requeue repo failed work))
  | .requeue repo failed work =>
    let rq := s.repos repo
    some ((s.setRepo repo { rq with
      queue := failed ++ rq.queue
      depth := rq.depth + failed.length }).goto i (afterBatch repo work))
  | .commitSpill repo work =>
    if work.pendingRequests = 0 then some (s.goto i (.release repo))
    else if work.dirtyAll ∨ work.paths ≠ [] then none
    else some ({ s with committed := s.committed + work.pendingRequests }.goto i
      (.reportSpill repo work.pendingRequests))
  | .restore repo work =>
    some ((s.setRepo repo (restoreWork (s.repos repo) work)).goto i (.release repo))
  | .reportSpill repo done =>
    some ({ s with pendingRequests := s.pendingRequests - done }.goto i (.release repo))
  | .reconcileQueue repo =>
    some (s.goto i (.reconcileSpill repo (s.repos repo).queue.length))
  | .reconcileSpill repo queued =>
    some (s.goto i (.reconcileStore repo queued (s.repos repo).spilled))
  | .reconcileStore repo queued spilled =>
    some ((s.setRepo repo { s.repos repo with depth := queued + spilled }).goto i (.release repo))
  | .release repo =>
    some ((s.setRepo repo { s.repos repo with processing := false }).goto i .idle)
  | .flush before =>
    some (s.goto i (if s.pendingRequests > 0 then .flush before else .check before s.known))
  | .check before todo =>
    if todo = ∅ then some ({ s with flushed := s.flushed ++ before }.goto i .idle) else none
  | _ => none

-- One commit to git, which may fail.
def commit (s : System ι ρ π α) (i : ι) (ok : Bool) : Phase ρ π α → Option (System ι ρ π α)
  | .merged repo batch work =>
    if ok then
      some ((s.addCommit repo (.paths (batch.flatMap Request.relPaths)) batch.length).goto i
        (.report repo batch.length [] work))
    else some (s.goto i (.report repo 0 batch work))
  | .each repo (r :: todo) failed done work =>
    if ok then
      some ((s.addCommit repo (.paths r.relPaths) 1).goto i
        (.each repo todo failed (done + 1) work))
    else some (s.goto i (.each repo todo (failed ++ [r]) done work))
  | .commitSpill repo work =>
    if work.pendingRequests ≠ 0 ∧ (work.dirtyAll ∨ work.paths ≠ []) then
      if ok then
        some ((s.addCommit repo (if work.dirtyAll then .all else .paths work.paths)
          work.pendingRequests).goto i (.reportSpill repo work.pendingRequests))
      else some (s.goto i (.restore repo work))
    else none
  | _ => none

def step (s : System ι ρ π α) : Event ι ρ π α → Option (System ι ρ π α)
  | .enqueue i repo cap r =>
    match s.threads i with
    | .idle =>
      if r.relPaths = [] then some s
      else some ({ s with known := insert repo s.known }.goto i (.enqueue repo cap r))
    | _ => none
  | .select i repo =>
    match s.threads i with
    | .idle =>
      if repo ∈ s.known ∧ (s.repos repo).depth > 0 ∧ (s.repos repo).processing = false then
        some (s.goto i (.claim repo))
      else none
    | _ => none
  | .advance i => s.advance i (s.threads i)
  | .commit i ok => s.commit i ok (s.threads i)
  | .flush i =>
    match s.threads i with
    | .idle => some (s.goto i (.flush s.enqueued))
    | _     => none
  | .check i repo =>
    match s.threads i with
    | .check before todo =>
      if repo ∈ todo then
        if (s.repos repo).depth = 0 ∧ (s.repos repo).processing = false then
          some (s.goto i (.check before (todo.erase repo)))
        else some (s.goto i (.flush before))
      else none
    | _ => none
  | .timeout i =>
    match s.threads i with
    | .flush _   => some (s.goto i .idle)
    | .check _ _ => some (s.goto i .idle)
    | _          => none

end System

-- What a worker has drained from a repository and has not committed.
structure Work (ρ π α : Type) where
  repo     : ρ
  requests : List (Request π α)
  spilled  : Option (Spill π α)

namespace Phase

variable {ρ π α : Type}

def work : Phase ρ π α → Option (Work ρ π α)
  | drainQueue repo            => some ⟨repo, [], none⟩
  | drainSpill repo batch      => some ⟨repo, batch, none⟩
  | merged repo batch work     => some ⟨repo, batch, work⟩
  | each repo todo failed _ work => some ⟨repo, todo ++ failed, work⟩
  | report repo _ failed work  => some ⟨repo, failed, work⟩
  | requeue repo failed work   => some ⟨repo, failed, work⟩
  | commitSpill repo work      => some ⟨repo, [], some work⟩
  | restore repo work          => some ⟨repo, [], some work⟩
  | reportSpill repo _         => some ⟨repo, [], none⟩
  | reconcileQueue repo        => some ⟨repo, [], none⟩
  | reconcileSpill repo _      => some ⟨repo, [], none⟩
  | reconcileStore repo _ _    => some ⟨repo, [], none⟩
  | release repo               => some ⟨repo, [], none⟩
  | _                          => none

-- Requests that have been committed, but are still pending.
def unreported : Phase ρ π α → Nat
  | each _ _ _ done _   => done
  | report _ done _ _   => done
  | reportSpill _ done  => done
  | _                   => 0

-- The repository whose depth will be set to a number to which its queue, or its spill, has
-- contributed.
def readsQueue : Phase ρ π α → Option ρ
  | reconcileSpill repo _   => some repo
  | reconcileStore repo _ _ => some repo
  | _                       => none

def readsSpill : Phase ρ π α → Option ρ
  | reconcileStore repo _ _ => some repo
  | _                       => none

def spills : Phase ρ π α → Option ρ
  | spill repo _ => some repo
  | _            => none

end Phase

namespace System

variable {ι ρ π α : Type}

-- The repository to whose queue the next step of a thread adds a request.
def pushes (s : System ι ρ π α) : Phase ρ π α → Option ρ
  | .push repo cap _ => if (s.repos repo).queue.length < cap then some repo else none
  | _                => none

def Committed (s : System ι ρ π α) (x : Enqueued ρ π α) (p : π) : Prop :=
  ∃ c ∈ (s.commits x.repo).drop x.since, c.Covers p

def Queued (rq : RepoQueue π α) (p : π) : Prop :=
  ∃ r ∈ rq.queue, p ∈ r.relPaths

def Spilled (spill : Option (Spill π α)) (p : π) : Prop :=
  ∃ sp, spill = some sp ∧ (sp.dirtyAll ∨ p ∈ sp.paths)

-- A worker that processes the repository holds the path.
def Held (s : System ι ρ π α) (repo : ρ) (p : π) : Prop :=
  (s.repos repo).processing ∧ ∃ i work, (s.threads i).work = some work ∧ work.repo = repo ∧
    ((∃ r ∈ work.requests, p ∈ r.relPaths) ∨ Spilled work.spilled p)

-- No path of a request is lost.
def Conserved (s : System ι ρ π α) : Prop :=
  ∀ x ∈ s.enqueued, ∀ p ∈ x.request.relPaths,
    s.Committed x p ∨ Queued (s.repos x.repo) p ∨ Spilled (s.repos x.repo).spill p ∨ s.Held x.repo p

def Balanced [Fintype ι] (s : System ι ρ π α) : Prop :=
  s.pendingRequests + s.committed = s.counted + ∑ i, (s.threads i).unreported

-- All requests that had been enqueued before a flush that has returned are committed.
def Barrier (s : System ι ρ π α) : Prop :=
  ∀ x ∈ s.flushed, ∀ p ∈ x.request.relPaths, s.Committed x p

def Exact (s : System ι ρ π α) : Prop :=
  ∀ repo, (s.repos repo).depth = (s.repos repo).queue.length + (s.repos repo).spilled

-- No request is added to a repository that a worker has read in order to reconcile its depth.
def Settled (s : System ι ρ π α) : Event ι ρ π α → Prop
  | .advance i =>
    (∀ repo ∈ s.pushes (s.threads i), ∀ j, (s.threads j).readsQueue ≠ some repo) ∧
    ∀ repo ∈ (s.threads i).spills, ∀ j, (s.threads j).readsSpill ≠ some repo
  | _ => True

instance [Fintype ι] [DecidableEq ρ] (s : System ι ρ π α) : ∀ e, Decidable (s.Settled e)
  | .advance i       => inferInstanceAs (Decidable
      ((∀ repo ∈ s.pushes (s.threads i), ∀ j, (s.threads j).readsQueue ≠ some repo) ∧
      ∀ repo ∈ (s.threads i).spills, ∀ j, (s.threads j).readsSpill ≠ some repo))
  | .enqueue _ _ _ _ => isTrue trivial
  | .select _ _      => isTrue trivial
  | .commit _ _      => isTrue trivial
  | .flush _         => isTrue trivial
  | .check _ _       => isTrue trivial
  | .timeout _       => isTrue trivial

end System
end Coalescer
