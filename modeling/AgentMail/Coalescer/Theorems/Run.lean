import AgentMail.Coalescer.Theorems.Basic
import Mathlib.Algebra.GroupWithZero.Nat

namespace Coalescer

variable {ι ρ π α : Type}

namespace Phase

variable {p : Phase ρ π α} {repo : ρ} {rq : RepoQueue π α}

theorem repo_of_workRepo (h : p.workRepo = some repo) : p.repo = some repo := by
  cases p <;> first | exact h | cases h

theorem uncommitted_of_workRepo (h : p.workRepo = some repo) : p.uncommitted = p.held.length := by
  cases p <;> first | rfl | cases h

theorem workRepo_of_held {r : Request π α} (h : r ∈ p.held) : ∃ repo, p.workRepo = some repo := by
  cases p <;> first | exact ⟨_, rfl⟩ | cases h

theorem eq_zero_of_repo (h : p.repo = none) :
    p.workRepo = none ∧ p.uncommitted = 0 ∧ p.unreported = 0 := by
  cases p <;> first | exact ⟨rfl, rfl, rfl⟩ | cases h

theorem reads_of_workRepo (h : p.workRepo = none) : p.Reads rq := by
  cases p <;> first | exact trivial | cases h

theorem readsQueue_eq (h : p.workRepo = some repo) (hn : p.readsQueue ≠ none) :
    p.readsQueue = some repo := by
  cases p <;> first | exact h | exact absurd rfl hn

theorem readsSpill_eq (h : p.workRepo = some repo) (hn : p.readsSpill ≠ none) :
    p.readsSpill = some repo := by
  cases p <;> first | exact h | exact absurd rfl hn

-- What a worker has read stays correct unless a request is added.
theorem Reads.mono {rq' : RepoQueue π α} (h : p.Reads rq)
    (hq : p.readsQueue ≠ none → rq'.queue.length = rq.queue.length)
    (hs : p.readsSpill ≠ none → rq'.spilled = rq.spilled) : p.Reads rq' := by
  cases p <;> try exact trivial
  case reconcileSpill => exact Eq.trans h (hq nofun).symm
  case reconcileStore =>
    rw [Reads, hq nofun, hs nofun]
    exact h

end Phase

namespace System

variable {s s' : System ι ρ π α} {i j : ι} {repo : ρ} {p p' : Phase ρ π α} {rq : RepoQueue π α}
variable {x : Enqueued ρ π α} {cs : List (Commit π)} {log : Option (Request π α)}
variable {pending counted committed : Nat}

-- A request is committed, or it is in the repository, or a worker holds it.
def Located (s : System ι ρ π α) (x : Enqueued ρ π α) : Prop :=
  (∀ q ∈ x.request.relPaths, s.Committed x q) ∨ x.request ∈ (s.repos x.repo).all ∨
    ∃ i, (s.threads i).workRepo = some x.repo ∧ x.request ∈ (s.threads i).held

structure Inv [Fintype ι] (s : System ι ρ π α) : Prop where
  since      : ∀ x ∈ s.enqueued, x.since ≤ (s.commits x.repo).length
  located    : ∀ x ∈ s.enqueued, s.Located x
  pending    : s.pendingRequests = ∑ i, ((s.threads i).uncommitted + (s.threads i).unreported) +
    ∑ repo ∈ s.known, (s.repos repo).all.length
  counted    : s.counted = s.committed + ∑ i, (s.threads i).uncommitted +
    ∑ repo ∈ s.known, (s.repos repo).all.length
  known      : ∀ i, ∀ repo ∈ (s.threads i).repo, repo ∈ s.known
  unknown    : ∀ repo, repo ∉ s.known → (s.repos repo).all = []
  before     : ∀ i, ∀ x ∈ (s.threads i).before, x ∈ s.enqueued
  flushes    : ∀ i before todo, s.threads i = .check before todo →
    ∀ x ∈ before, ∀ q ∈ x.request.relPaths, s.Committed x q
  barrier    : s.Barrier
  workers    : ∀ i j, i ≠ j → ∀ repo, (s.threads i).workRepo = some repo →
    (s.threads j).workRepo ≠ some repo
  processing : ∀ i repo, (s.threads i).workRepo = some repo → (s.repos repo).processing

theorem init_inv [Fintype ι] : (init : System ι ρ π α).Inv where
  since      := nofun
  located    := nofun
  pending    := by simp [init, Phase.uncommitted, Phase.unreported, Phase.held, Phase.work]
  counted    := by simp [init, Phase.uncommitted, Phase.held, Phase.work]
  known      := nofun
  unknown    := fun _ _ => rfl
  before     := nofun
  flushes    := nofun
  barrier    := nofun
  workers    := nofun
  processing := nofun

-- When nothing is pending, everything is committed.
theorem Inv.allCommitted [Fintype ι] (h : s.Inv) (hz : s.pendingRequests = 0)
    (hx : x ∈ s.enqueued) : ∀ q ∈ x.request.relPaths, s.Committed x q := by
  have hs := h.pending
  rw [hz] at hs
  have ⟨ht, hr⟩ := Nat.add_eq_zero_iff.mp hs.symm
  cases h.located x hx
  case inl hc => exact hc
  case inr hc =>
    exfalso
    obtain hm | ⟨i, hw, hm⟩ := hc
    · by_cases hk : x.repo ∈ s.known
      case pos =>
        rw [List.eq_nil_of_length_eq_zero (Finset.sum_eq_zero_iff.mp hr x.repo hk)] at hm
        cases hm
      case neg =>
        rw [h.unknown x.repo hk] at hm
        cases hm
    · have hu := (Nat.add_eq_zero_iff.mp (Finset.sum_eq_zero_iff.mp ht i (Finset.mem_univ i))).left
      rw [Phase.uncommitted_of_workRepo hw] at hu
      rw [List.eq_nil_of_length_eq_zero hu] at hm
      cases hm

theorem Committed.mono {q : π} (h : s.Committed x q) (hp : s.commits x.repo <+: s'.commits x.repo) :
    s'.Committed x q := by
  have ⟨c, hc, hq⟩ := h
  have ⟨l, hl⟩ := hp
  exact ⟨c, by rw [← hl, List.drop_append]; exact List.mem_append.mpr (.inl hc), hq⟩

theorem Transfer.workRepo (ht : s.Transfer repo p p' rq cs log pending counted committed) {r : ρ}
    (h : p'.workRepo = some r) : r = repo :=
  ht.repo_eq r (Phase.repo_of_workRepo h)

theorem Inv.append_flushed [Fintype ι] (h : s.Inv) {before : List (Enqueued ρ π α)}
    (hb : ∀ x ∈ before, ∀ q ∈ x.request.relPaths, s.Committed x q) :
    { s with flushed := s.flushed ++ before }.Inv where
  since      := h.since
  located    := h.located
  pending    := h.pending
  counted    := h.counted
  known      := h.known
  unknown    := h.unknown
  before     := h.before
  flushes    := h.flushes
  barrier x hx := by
    cases List.mem_append.mp hx
    case inl hx => exact h.barrier x hx
    case inr hx => exact hb x hx
  workers    := h.workers
  processing := h.processing

theorem Inv.insert_known [DecidableEq ρ] [Fintype ι] (h : s.Inv) (repo : ρ) :
    { s with known := insert repo s.known }.Inv := by
  have hsum : ∑ r ∈ insert repo s.known, (s.repos r).all.length =
      ∑ r ∈ s.known, (s.repos r).all.length := by
    by_cases hk : repo ∈ s.known
    case pos => rw [Finset.insert_eq_of_mem hk]
    case neg => rw [Finset.sum_insert hk, h.unknown repo hk, List.length_nil, Nat.zero_add]
  refine ⟨h.since, h.located, ?_, ?_, ?_, ?_, h.before, h.flushes, h.barrier,
    h.workers, h.processing⟩
  · exact h.pending.trans (congrArg (_ + ·) hsum.symm)
  · exact h.counted.trans (congrArg (_ + ·) hsum.symm)
  · exact fun i r hr => Finset.mem_insert_of_mem (h.known i r hr)
  · exact fun r hr => h.unknown r fun hk => hr (Finset.mem_insert_of_mem hk)

-- A thread that has nothing to do with the requests goes on.
theorem Inv.goto [DecidableEq ι] [Fintype ι] (h : s.Inv) (hi : (s.threads i).repo = none)
    (hw : p.workRepo = none) (hu : p.uncommitted = 0) (hn : p.unreported = 0)
    (hk : ∀ repo ∈ p.repo, repo ∈ s.known) (hb : ∀ x ∈ p.before, x ∈ s.enqueued)
    (hf : ∀ before todo, p = .check before todo →
      ∀ x ∈ before, ∀ q ∈ x.request.relPaths, s.Committed x q) : (s.goto i p).Inv := by
  have ⟨hwi, hui, hni⟩ := Phase.eq_zero_of_repo hi
  have hsame (j : ι) : ((s.goto i p).threads j).workRepo = (s.threads j).workRepo ∧
      ((s.goto i p).threads j).uncommitted = (s.threads j).uncommitted ∧
      ((s.goto i p).threads j).unreported = (s.threads j).unreported := by
    by_cases hj : j = i
    case pos => simp [System.goto, hj, hw, hu, hn, hwi, hui, hni]
    case neg => simp [System.goto, hj]
  refine ⟨h.since, fun x hx => ?_, ?_, ?_, ?_, h.unknown, ?_, ?_, h.barrier, ?_, ?_⟩
  · obtain hc | hm | ⟨j, hwj, hm⟩ := h.located x hx
    · exact .inl hc
    · exact .inr (.inl hm)
    · have hj : j ≠ i := by
        intro hj
        rw [hj, hwi] at hwj
        cases hwj
      exact .inr (.inr ⟨j, by simpa [System.goto, hj] using hwj,
        by simpa [System.goto, hj] using hm⟩)
  · exact h.pending.trans (congrArg (· + _) (Finset.sum_congr rfl fun j _ => by
      rw [(hsame j).right.left, (hsame j).right.right]))
  · exact h.counted.trans (congrArg (_ + · + _) (Finset.sum_congr rfl fun j _ => by
      rw [(hsame j).right.left]))
  · exact (Function.forall_update_iff s.threads fun _ p => ∀ repo ∈ p.repo, repo ∈ s.known).mpr
      ⟨hk, fun j _ => h.known j⟩
  · exact (Function.forall_update_iff s.threads fun _ p => ∀ x ∈ p.before, x ∈ s.enqueued).mpr
      ⟨hb, fun j _ => h.before j⟩
  · exact (Function.forall_update_iff s.threads fun _ p => ∀ before todo, p = .check before todo →
      ∀ x ∈ before, ∀ q ∈ x.request.relPaths, s.Committed x q).mpr ⟨hf, fun j _ => h.flushes j⟩
  · intro j k hjk r hj hk
    rw [(hsame j).left] at hj
    rw [(hsame k).left] at hk
    exact h.workers j k hjk r hj hk
  · intro j r hj
    rw [(hsame j).left] at hj
    exact h.processing j r hj

theorem spilled_of_mem {spill : Option (Spill π α)} {r : Request π α} {q : π}
    (hr : r ∈ spilledRequests spill) (hq : q ∈ r.relPaths) : Spilled spill q := by
  cases spill
  case none    => cases hr
  case some sp =>
    refine ⟨sp, rfl, ?_⟩
    cases hd : sp.dirtyAll
    case true  => exact .inl rfl
    case false => exact .inr (sp.covers hd r hr hq)

theorem Inv.conserved [Fintype ι] (h : s.Inv) : s.Conserved := by
  intro x hx q hq
  obtain hc | hm | ⟨i, hw, hm⟩ := h.located x hx
  · exact .inl (hc q hq)
  · cases List.mem_append.mp hm
    case inl hm => exact .inr (.inl ⟨_, hm, hq⟩)
    case inr hm => exact .inr (.inr (.inl (spilled_of_mem hm hq)))
  · refine .inr (.inr (.inr ⟨h.processing i _ hw, i, ?_⟩))
    have ⟨work, hwork, hrepo⟩ := Option.map_eq_some_iff.mp hw
    simp only [Phase.held, hwork] at hm
    refine ⟨work, hwork, hrepo, ?_⟩
    cases List.mem_append.mp hm
    case inl hm => exact .inl ⟨_, hm, hq⟩
    case inr hm => exact .inr (spilled_of_mem hm hq)

theorem Inv.balanced [Fintype ι] (h : s.Inv) : s.Balanced := by
  have hp := h.pending
  have hc := h.counted
  rw [Finset.sum_add_distrib] at hp
  unfold Balanced
  omega

variable [DecidableEq ι] [DecidableEq ρ]

section

theorem repos_move_self : (s.move i repo p rq cs log pending counted committed).repos repo = rq :=
  Function.update_self ..

theorem repos_move_of_ne {r : ρ} (h : r ≠ repo) :
    (s.move i repo p rq cs log pending counted committed).repos r = s.repos r :=
  Function.update_of_ne h ..

theorem threads_move_self : (s.move i repo p rq cs log pending counted committed).threads i = p :=
  Function.update_self ..

theorem threads_move_of_ne (h : j ≠ i) :
    (s.move i repo p rq cs log pending counted committed).threads j = s.threads j :=
  Function.update_of_ne h ..

theorem commits_move_self :
    (s.move i repo p rq cs log pending counted committed).commits repo = s.commits repo ++ cs :=
  Function.update_self ..

theorem commits_prefix_move (r : ρ) :
    s.commits r <+: (s.move i repo p rq cs log pending counted committed).commits r := by
  by_cases hr : r = repo
  case pos =>
    rw [hr, commits_move_self]
    exact List.prefix_append ..
  case neg => simp [move, hr]

end

theorem Located.move (h : s.Located x) (hs : x.since ≤ (s.commits x.repo).length)
    (hr : (s.threads i).repo = some repo)
    (ht : s.Transfer repo (s.threads i) p rq cs log pending counted committed) :
    (s.move i repo p rq cs log pending counted committed).Located x := by
  have hkept (he : x.repo = repo)
      (hm : x.request ∈ (s.repos repo).all ∨ x.request ∈ (s.threads i).held) :
      (s.move i repo p rq cs log pending counted committed).Located x := by
    obtain hm | hm | hm := ht.kept x.request hm
    · exact .inr (.inl (by rwa [he, repos_move_self]))
    · have ⟨r, hw⟩ := Phase.workRepo_of_held hm
      rw [ht.workRepo hw, ← he] at hw
      exact .inr (.inr ⟨i, by rwa [threads_move_self], by rwa [threads_move_self]⟩)
    · refine .inl fun q hq => ?_
      have ⟨c, hc, hcq⟩ := hm q hq
      refine ⟨c, ?_, hcq⟩
      rw [he] at hs ⊢
      rw [commits_move_self, List.drop_append_of_le_length hs]
      exact List.mem_append.mpr (.inr hc)
  obtain hc | hm | ⟨j, hw, hm⟩ := h
  · exact .inl fun q hq => (hc q hq).mono (commits_prefix_move _)
  · by_cases he : x.repo = repo
    case pos => exact hkept he (.inl (he ▸ hm))
    case neg => exact .inr (.inl (by rwa [repos_move_of_ne he]))
  · by_cases hj : j = i
    case pos =>
      subst hj
      have he : x.repo = repo := Option.some.inj ((Phase.repo_of_workRepo hw).symm.trans hr)
      exact hkept he (.inr hm)
    case neg =>
      exact .inr (.inr ⟨j, by rwa [threads_move_of_ne hj], by rwa [threads_move_of_ne hj]⟩)

theorem Inv.move [Fintype ι] (h : s.Inv) (hr : (s.threads i).repo = some repo)
    (ht : s.Transfer repo (s.threads i) p rq cs log pending counted committed) :
    (s.move i repo p rq cs log pending counted committed).Inv where
  since x hx := by
    refine Nat.le_trans ?_ (commits_prefix_move x.repo).length_le
    cases List.mem_append.mp hx
    case inl hx => exact h.since x hx
    case inr hx =>
      have ⟨r, _, hx⟩ := Option.map_eq_some_iff.mp (Option.mem_toList.mp hx)
      exact hx ▸ Nat.le_refl _
  located x hx := by
    cases List.mem_append.mp hx
    case inl hx => exact (h.located x hx).move (h.since x hx) hr ht
    case inr hx =>
      have ⟨r, hl, hx⟩ := Option.map_eq_some_iff.mp (Option.mem_toList.mp hx)
      subst hx
      refine .inr (.inl ?_)
      rw [repos_move_self]
      exact ht.logged r hl
  pending := by
    have hu := Threads.sum_update (f := s.threads) (x := p) (fun p => p.uncommitted + p.unreported)
      (Finset.mem_univ i)
    have hq := Threads.sum_update (f := s.repos) (x := rq) (fun rq => rq.all.length)
      (h.known i repo hr)
    have hp := h.pending
    have he := ht.pending_eq
    simp only [System.move]
    omega
  counted := by
    have hu := Threads.sum_update (f := s.threads) (x := p) Phase.uncommitted (Finset.mem_univ i)
    have hq := Threads.sum_update (f := s.repos) (x := rq) (fun rq => rq.all.length)
      (h.known i repo hr)
    have hp := h.counted
    have he := ht.counted_eq
    simp only [System.move]
    omega
  known j r hj := by
    by_cases hji : j = i
    case pos =>
      rw [hji, threads_move_self] at hj
      exact ht.repo_eq r hj ▸ h.known i repo hr
    case neg =>
      rw [threads_move_of_ne hji] at hj
      exact h.known j r hj
  unknown r hn := by
    have hne : r ≠ repo := fun he => hn (he ▸ h.known i repo hr)
    rw [repos_move_of_ne hne]
    exact h.unknown r hn
  before j x hx := by
    by_cases hji : j = i
    case pos =>
      rw [hji, threads_move_self, ht.before] at hx
      cases hx
    case neg =>
      rw [threads_move_of_ne hji] at hx
      exact List.mem_append.mpr (.inl (h.before j x hx))
  flushes j before todo hj x hx := by
    by_cases hji : j = i
    case pos =>
      rw [hji, threads_move_self] at hj
      have hb := ht.before
      rw [hj, Phase.before] at hb
      rw [hb] at hx
      cases hx
    case neg =>
      rw [threads_move_of_ne hji] at hj
      exact fun q hq => (h.flushes j before todo hj x hx q hq).mono (commits_prefix_move _)
  barrier x hx q hq := (h.barrier x hx q hq).mono (commits_prefix_move _)
  workers := by
    refine Threads.pairwise_update (R := fun a b : Phase ρ π α =>
      ∀ repo, a.workRepo = some repo → b.workRepo ≠ some repo)
      (fun hw r hb ha => hw r ha hb) h.workers fun j hj r hw hwj => ?_
    obtain ⟨_, hsame⟩ | ⟨hq, _, _⟩ | ⟨_, hn⟩ := ht.claim
    · exact h.workers i j hj.symm r (hsame ▸ hw) hwj
    · have hq' := h.processing j r hwj
      rw [ht.workRepo hw, hq] at hq'
      cases hq'
    · cases hn.symm.trans hw
  processing j r hw := by
    by_cases hj : j = i
    case pos =>
      rw [hj, threads_move_self] at hw
      rw [ht.workRepo hw, repos_move_self]
      obtain ⟨hq, hsame⟩ | ⟨_, hq, _⟩ | ⟨_, hn⟩ := ht.claim
      · rw [hq, ← ht.workRepo hw]
        exact h.processing i r (hsame ▸ hw)
      · exact hq
      · cases hn.symm.trans hw
    case neg =>
      rw [threads_move_of_ne hj] at hw
      have hq' := h.processing j r hw
      by_cases he : r = repo
      case neg => rwa [repos_move_of_ne he]
      case pos =>
        subst he
        rw [repos_move_self]
        obtain ⟨hq, _⟩ | ⟨hq, _, _⟩ | ⟨hwi, _⟩ := ht.claim
        · rwa [hq]
        · cases hq.symm.trans hq'
        · exact absurd hw (h.workers i j (Ne.symm hj) r hwi)

-- A thread that is not concerned with a repository takes a step.
def Quiet (s s' : System ι ρ π α) : Prop :=
  s'.repos = s.repos ∧ ∃ i, (s'.threads i).workRepo = none ∧ ∀ j, j ≠ i → s'.threads j = s.threads j

-- The repository to which a request is added is not being reconciled.
def Undisturbed (s : System ι ρ π α) (p : Phase ρ π α) : Prop :=
  (∀ repo ∈ s.pushes p, ∀ j, (s.threads j).readsQueue ≠ some repo) ∧
  ∀ repo ∈ p.spills, ∀ j, (s.threads j).readsSpill ≠ some repo

omit [DecidableEq ρ] in
theorem quiet_goto (hw : p.workRepo = none) : s.Quiet (s.goto i p) :=
  ⟨rfl, i, by simpa [goto] using hw, fun j hj => by simp [goto, hj]⟩

theorem commit_repo {ok : Bool} (hs : s.commit i ok p = some s') :
    ∃ repo, p.repo = some repo ∧ s.Undisturbed p := by
  cases p <;> first | cases hs | exact ⟨_, rfl, nofun, nofun⟩

variable [DecidableEq π] [DecidableEq α] {e : Event ι ρ π α}

theorem advance_quiet [Fintype ι] (h : s.Inv) (hp : s.threads i = p) (hr : p.repo = none)
    (hs : s.advance i p = some s') : s.Quiet s' ∧ s'.Inv := by
  have hr' : (s.threads i).repo = none := hp ▸ hr
  cases p <;> cases hr
  case idle => cases hs
  case flush before =>
    cases hs
    have hb : ∀ x ∈ before, x ∈ s.enqueued := by
      simpa [hp, Phase.before] using h.before i
    split
    case isTrue =>
      exact ⟨quiet_goto rfl, h.goto hr' rfl rfl rfl (by rintro _ ⟨⟩) hb (by rintro _ _ ⟨⟩)⟩
    case isFalse hz =>
      refine ⟨quiet_goto rfl, h.goto hr' rfl rfl rfl (by rintro _ ⟨⟩) hb fun before todo he x hx =>
        ?_⟩
      cases he
      exact h.allCommitted (Nat.eq_zero_of_not_pos hz) (hb x hx)
  case check before todo =>
    simp only [advance] at hs
    split at hs <;> cases hs
    have hi := h.append_flushed (h.flushes i before todo hp)
    exact ⟨quiet_goto rfl, Inv.goto hi hr' rfl rfl rfl (by rintro _ ⟨⟩) (by rintro _ ⟨⟩)
      (by rintro _ _ ⟨⟩)⟩

theorem step_cases [Fintype ι] (h : s.Inv) (hs : s.step e = some s') :
    (∃ i repo, (s.threads i).repo = some repo ∧ s.Moves i repo (s.threads i) s' ∧
      (s.Settled e → s.Undisturbed (s.threads i))) ∨ s.Quiet s' ∧ s'.Inv := by
  cases e <;> simp only [step] at hs
  case enqueue i repo cap r =>
    split at hs
    case h_2 => cases hs
    case h_1 hp =>
      refine .inr ?_
      have hr : (s.threads i).repo = none := hp ▸ rfl
      split at hs <;> cases hs
      case isTrue => exact ⟨⟨rfl, i, hp ▸ rfl, fun _ _ => rfl⟩, h⟩
      case isFalse =>
        refine ⟨quiet_goto rfl, Inv.goto (h.insert_known repo) hr rfl rfl rfl (fun r hr => ?_)
          (by rintro _ ⟨⟩)
          (by rintro _ _ ⟨⟩)⟩
        cases hr
        exact Finset.mem_insert_self ..
  case select i repo =>
    split at hs
    case h_2 => cases hs
    case h_1 hp =>
      have hr : (s.threads i).repo = none := hp ▸ rfl
      split at hs <;> cases hs
      case isTrue hk =>
        refine .inr ⟨quiet_goto rfl, h.goto hr rfl rfl rfl (fun r hr => ?_) (by rintro _ ⟨⟩)
          (by rintro _ _ ⟨⟩)⟩
        cases hr
        exact hk.left
  case advance i =>
    cases hr : (s.threads i).repo
    case none => exact .inr (advance_quiet h rfl hr hs)
    case some repo =>
      have hu : (s.threads i).unreported ≤ s.pendingRequests := by
        have hl := Finset.add_sum_erase Finset.univ (fun i => (s.threads i).uncommitted +
          (s.threads i).unreported) (Finset.mem_univ i)
        have hp := h.pending
        omega
      exact .inl ⟨i, repo, hr, advance_moves hu hr hs, id⟩
  case commit i ok =>
    obtain ⟨repo, hr, hu⟩ := commit_repo hs
    exact .inl ⟨i, repo, hr, commit_moves hr hs, fun _ => hu⟩
  case flush i =>
    split at hs <;> cases hs
    case h_1 hp =>
      have hr : (s.threads i).repo = none := hp ▸ rfl
      exact .inr ⟨quiet_goto rfl, h.goto hr rfl rfl rfl (by rintro _ ⟨⟩) (fun _ hx => hx)
        (by rintro _ _ ⟨⟩)⟩
  case check i repo =>
    split at hs
    case h_2 => cases hs
    case h_1 before todo hp =>
      have hr : (s.threads i).repo = none := hp ▸ rfl
      have hb : ∀ x ∈ before, x ∈ s.enqueued := by
        simpa [hp, Phase.before] using h.before i
      split at hs
      case isFalse => cases hs
      case isTrue =>
        split at hs <;> cases hs
        case isFalse =>
          exact .inr ⟨quiet_goto rfl, h.goto hr rfl rfl rfl (by rintro _ ⟨⟩) hb (by rintro _ _ ⟨⟩)⟩
        case isTrue =>
          refine .inr ⟨quiet_goto rfl, h.goto hr rfl rfl rfl (by rintro _ ⟨⟩) hb fun before' _ he =>
            ?_⟩
          cases he
          exact h.flushes i before todo hp
  case timeout i =>
    split at hs <;> cases hs
    case h_1 hp =>
      have hr : (s.threads i).repo = none := hp ▸ rfl
      exact .inr ⟨quiet_goto rfl, h.goto hr rfl rfl rfl (by rintro _ ⟨⟩) (by rintro _ ⟨⟩)
        (by rintro _ _ ⟨⟩)⟩
    case h_2 hp =>
      have hr : (s.threads i).repo = none := hp ▸ rfl
      exact .inr ⟨quiet_goto rfl, h.goto hr rfl rfl rfl (by rintro _ ⟨⟩) (by rintro _ ⟨⟩)
        (by rintro _ _ ⟨⟩)⟩

theorem Inv.step [Fintype ι] (h : s.Inv) (hs : s.step e = some s') : s'.Inv := by
  obtain ⟨i, repo, hr, ⟨_, _, _, _, _, _, _, ht, rfl⟩, _⟩ | ⟨_, hi⟩ := step_cases h hs
  · exact h.move hr ht
  · exact hi

-- The depths are exact, and so is what workers have read that reconcile them.
structure ExactInv (s : System ι ρ π α) : Prop where
  depth : s.Exact
  reads : ∀ i repo, (s.threads i).workRepo = some repo → (s.threads i).Reads (s.repos repo)

omit [DecidableEq ι] [DecidableEq ρ] [DecidableEq π] [DecidableEq α] in
theorem ExactInv.quiet (h : s.ExactInv) (hq : s.Quiet s') : s'.ExactInv := by
  have ⟨hr, i, hw, ht⟩ := hq
  refine ⟨fun repo => hr ▸ h.depth repo, fun j repo hj => ?_⟩
  have hji : j ≠ i := by
    rintro rfl
    cases hw.symm.trans hj
  rw [ht j hji] at hj ⊢
  rw [hr]
  exact h.reads j repo hj

omit [DecidableEq π] [DecidableEq α] in
theorem ExactInv.move [Fintype ι] (h : s.ExactInv) (hi : s.Inv)
    (hr : (s.threads i).repo = some repo) (hu : s.Undisturbed (s.threads i))
    (ht : s.Transfer repo (s.threads i) p rq cs log pending counted committed) :
    (s.move i repo p rq cs log pending counted committed).ExactInv := by
  have hreads : (s.threads i).Reads (s.repos repo) := by
    cases hw : (s.threads i).workRepo
    case none   => exact Phase.reads_of_workRepo hw
    case some r =>
      have he : r = repo := Option.some.inj ((Phase.repo_of_workRepo hw).symm.trans hr)
      exact he ▸ h.reads i r hw
  refine ⟨fun r => ?_, fun j r hj => ?_⟩
  · by_cases he : r = repo
    case neg =>
      rw [repos_move_of_ne he]
      exact h.depth r
    case pos =>
      rw [he, repos_move_self, ← RepoQueue.length_all]
      exact ht.depth ((h.depth repo).trans (RepoQueue.length_all _).symm) hreads
  · by_cases hji : j = i
    case pos =>
      rw [hji, threads_move_self] at hj ⊢
      rw [ht.workRepo hj, repos_move_self]
      exact ht.reads hreads
    case neg =>
      rw [threads_move_of_ne hji] at hj ⊢
      have hold := h.reads j r hj
      by_cases he : r = repo
      case neg => rwa [repos_move_of_ne he]
      case pos =>
        subst he
        rw [repos_move_self]
        obtain hw | ⟨hq, hs⟩ := ht.frame
        · exact absurd hw (hi.workers j i hji r hj)
        · refine hold.mono (fun hn => ?_) fun hn => ?_
          · exact hq.resolve_right fun hp => hu.left r hp j (Phase.readsQueue_eq hj hn)
          · exact hs.resolve_right fun hp => hu.right r hp j (Phase.readsSpill_eq hj hn)

theorem ExactInv.step [Fintype ι] (h : s.ExactInv) (hi : s.Inv) (hc : s.Settled e)
    (hs : s.step e = some s') : s'.ExactInv := by
  obtain ⟨i, repo, hr, ⟨_, _, _, _, _, _, _, ht, rfl⟩, hu⟩ | ⟨hq, _⟩ := step_cases hi hs
  · exact h.move hi hr (hu hc) ht
  · exact h.quiet hq

variable {es : List (Event ι ρ π α)}

theorem run_conserved [Fintype ι] (h : run step init es = some s) :
    s.Conserved ∧ s.Balanced ∧ s.Barrier ∧ (Along step Settled init es → s.Exact) := by
  have hi : s.Inv := Run.invariant (fun hi hs => hi.step hs) init_inv h
  refine ⟨hi.conserved, hi.balanced, hi.barrier, fun hc => ?_⟩
  have he : s.Inv ∧ s.ExactInv :=
    Run.invariant_along (I := fun s => s.Inv ∧ s.ExactInv)
      (fun hi hc hs => ⟨hi.left.step hs, hi.right.step hi.left hc hs⟩)
      ⟨init_inv, fun _ => rfl, nofun⟩ hc h
  exact he.right.depth

instance : NeZero 3 :=
  ⟨three_ne_zero⟩

-- A request is queued and another one is spilled. The first commit fails, and a flush waits for
-- both.
def spilledAndRetried : List (Event (Fin 3) Nat Nat Nat) :=
  [.enqueue 0 0 1 ⟨0, [1]⟩, .advance 0, .advance 0, .advance 0,
    .enqueue 0 0 1 ⟨0, [2]⟩, .advance 0, .advance 0, .advance 0,
    .flush 2, .select 1 0, .advance 1, .advance 1, .advance 1, .commit 1 false, .advance 1,
    .advance 1, .commit 1 true, .advance 1, .advance 1, .advance 2,
    .select 1 0, .advance 1, .advance 1, .advance 1, .commit 1 true, .advance 1, .advance 1,
    .advance 1, .advance 2, .check 2 0, .advance 2]

theorem run_conserved_retried : ∃ s : System (Fin 3) Nat Nat Nat,
    run step init spilledAndRetried = some s ∧ s.flushed.map (·.request.relPaths) = [[1], [2]] ∧
      s.Conserved ∧ s.Balanced ∧ s.Barrier ∧ s.Exact := by
  have ⟨s, hs⟩ : ∃ s : System (Fin 3) Nat Nat Nat, run step init spilledAndRetried = some s :=
    Option.isSome_iff_exists.mp (by decide +kernel)
  have hf : (run step (init : System (Fin 3) Nat Nat Nat) spilledAndRetried).map
      (fun s => s.flushed.map (·.request.relPaths)) = some [[1], [2]] := by
    decide +kernel
  rw [hs] at hf
  have ⟨hc, hb, hbar, he⟩ := run_conserved hs
  exact ⟨s, hs, Option.some.inj hf, hc, hb, hbar, he (by decide +kernel)⟩

-- Two workers select the same repository. The second one finds nothing to do, and a request is
-- enqueued while it sets the depth to zero.
def reconciled : List (Event (Fin 3) Nat Nat Nat) :=
  [.enqueue 0 0 1 ⟨0, [1]⟩, .advance 0, .advance 0, .advance 0, .select 1 0, .select 2 0,
    .advance 1, .advance 1, .advance 1, .commit 1 true, .advance 1, .advance 1, .advance 1,
    .advance 2, .advance 2, .advance 2, .advance 2,
    .enqueue 0 0 1 ⟨0, [2]⟩, .advance 0, .advance 0, .advance 0, .advance 2, .advance 2, .advance 2]

theorem not_exact_reconciled : ∃ s : System (Fin 3) Nat Nat Nat,
    run step init reconciled = some s ∧ ¬s.Exact := by
  have ⟨s, hs⟩ : ∃ s : System (Fin 3) Nat Nat Nat, run step init reconciled = some s :=
    Option.isSome_iff_exists.mp (by decide +kernel)
  have hd : (run step (init : System (Fin 3) Nat Nat Nat) reconciled).map
      (fun s => ((s.repos 0).depth, (s.repos 0).queue.length)) = some (0, 1) := by
    decide +kernel
  rw [hs] at hd
  have ⟨hd, hq⟩ := Prod.mk.inj (Option.some.inj hd)
  refine ⟨s, hs, fun h => ?_⟩
  have he := h 0
  rw [hd, hq] at he
  omega

end System
end Coalescer
