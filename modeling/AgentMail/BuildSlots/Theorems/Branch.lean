import AgentMail.BuildSlots.Theorems.Resolve

open Pattern (Str)

namespace BuildSlots

variable {h : ShortHash} {identities : Set Str} {s s' : State} {c : Call} {f g : Entry}
  {lease : BuildSlotLease}
variable {slot : Str} {ttlSeconds extendSeconds : Option Int} {exclusive : Option Bool}

theorem mem_readActiveLeases (hp : c.listing.Perm s.files.rows) :
    lease ∈ readActiveLeases c.listing c.now ↔ ∃ f ∈ s.files.rows, f.2 = lease ∧
      lease.unexpired c.now := by
  rw [readActiveLeases, List.mem_filter, List.mem_map]
  constructor
  case mp  => exact fun ⟨⟨f, hf, he⟩, hu⟩ => ⟨f, hp.mem_iff.mp hf, he, hu⟩
  case mpr => exact fun ⟨f, hf, he, hu⟩ => ⟨⟨f, hp.mem_iff.mpr hf, he⟩, hu⟩

theorem renewable_eq_some (hp : c.listing.Perm s.files.rows)
    (hl : renewable (readActiveLeases c.listing c.now) c.agent c.branch = some lease) :
    ∃ f, s.Own c f ∧ f.2 = lease ∧ lease.branch = c.branch := by
  have ⟨f, hf, he, hu⟩ := (mem_readActiveLeases hp).mp (List.mem_of_find?_eq_some hl)
  have hm := List.find?_some hl
  simp only [leaseMatchesHolder, Bool.and_eq_true, decide_eq_true_eq,
    Option.isNone_iff_eq_none] at hm
  obtain ⟨⟨ha, hb⟩, hr⟩ := hm
  subst he
  exact ⟨f, ⟨hf, ha, hu, hr⟩, rfl, hb⟩

theorem releasable_eq_some (hp : c.listing.Perm s.files.rows)
    (hl : releasable (readActiveLeases c.listing c.now) c.agent c.branch = some lease) :
    ∃ f ∈ s.files.rows, f.2.agent = c.agent ∧ lease.unexpired c.now ∧ f.2 = lease ∧
      lease.branch = c.branch := by
  have ⟨f, hf, he, hu⟩ := (mem_readActiveLeases hp).mp (List.mem_of_find?_eq_some hl)
  have hm := List.find?_some hl
  simp only [leaseMatchesHolder, Bool.and_eq_true, decide_eq_true_eq] at hm
  exact ⟨f, hf, he ▸ hm.left, hu, he, hm.right⟩

theorem step_eq_some (hs : step h s c = some s') :
    s' = s.next h c ∧ c.listing.Perm s.files.rows ∧ c.listing'.Perm s.files.rows := by
  unfold step at hs
  split at hs
  case isTrue hp  => exact ⟨(Option.some.inj hs).symm, hp.right⟩
  case isFalse    => contradiction

theorem le_clampSeconds {default : Int} {n : Option Int} (hd : 60 ≤ default) :
    60 ≤ clampSeconds default n := by
  unfold clampSeconds
  split
  · exact hd
  · exact le_max_left _ _

theorem lt_renewedLease (hu : lease.unexpired c.now) :
    lease.expiresTs < (renewedLease lease c.now extendSeconds).expiresTs := by
  rw [BuildSlotLease.unexpired, Bool.and_eq_true] at hu
  have hc : 60 ≤ extend extendSeconds := le_clampSeconds (by decide)
  have hm := le_max_right c.now lease.expiresTs
  simp only [renewedLease, computeRenewedExpiry, if_pos hu.left, seconds]
  omega

-- A call that writes no lease changes nothing.
theorem call_eq_files (hp : c.listing.Perm s.files.rows) (hn : ¬c.request.Writes s c) :
    (s.call h c).1 = s.files := by
  cases hr : c.request
  all_goals rw [hr] at hn
  case acquire => exact absurd trivial hn
  case renew =>
    cases hl : renewable (readActiveLeases c.listing c.now) c.agent c.branch
    case none       => simp only [State.call, hr, State.renewBuildSlot, hl]
    case some lease =>
      have ⟨g, hg, _⟩ := renewable_eq_some hp hl
      exact absurd ⟨g, hg⟩ hn
  case release =>
    cases hl : releasable (readActiveLeases c.listing c.now) c.agent c.branch
    case none       => simp only [State.call, hr, State.releaseBuildSlot, hl]
    case some lease =>
      cases ht : lease.releasedTs
      case some => simp only [State.call, hr, State.releaseBuildSlot, hl, ht]
      case none =>
        have ⟨g, hg, ha, hu, he, _⟩ := releasable_eq_some hp hl
        subst he
        exact absurd ⟨g, hg, ha, hu, ht⟩ hn

namespace Invariant

theorem renewBuildSlot (hi : Invariant h identities s) (hp : c.listing.Perm s.files.rows)
    (ho : s.Own c f) (hb : f.2.branch = c.branch) :
    let renewed := renewedLease f.2 c.now extendSeconds
    s.renewBuildSlot h c extendSeconds =
      (s.write h c c.agent c.branch renewed, .renew true renewed.expiresTs) := by
  have hl : renewable (readActiveLeases c.listing c.now) c.agent c.branch = some f.2 := by
    cases hl : renewable (readActiveLeases c.listing c.now) c.agent c.branch
    case none =>
      have hn :=
        List.find?_eq_none.mp hl f.2 ((mem_readActiveLeases hp).mpr ⟨f, ho.left, rfl,
          ho.right.right.unexpired⟩)
      simp [leaseMatchesHolder, ho.right.left, hb, ho.right.right.unreleased] at hn
    case some lease =>
      have ⟨g, hg, he, _⟩ := renewable_eq_some hp hl
      rw [← he, hi.single g hg.left f ho.left (hg.right.left.trans ho.right.left.symm)]
  simp only [State.renewBuildSlot, hl, ho.right.left, hb]

theorem releaseBuildSlot (hi : Invariant h identities s) (hp : c.listing.Perm s.files.rows)
    (ho : s.Own c f) (hb : f.2.branch = c.branch) :
    s.releaseBuildSlot h c = (s.write h c c.agent c.branch (releasedLease f.2 c.now),
      .release true c.now) := by
  have hl : releasable (readActiveLeases c.listing c.now) c.agent c.branch = some f.2 := by
    cases hl : releasable (readActiveLeases c.listing c.now) c.agent c.branch
    case none =>
      have hn :=
        List.find?_eq_none.mp hl f.2 ((mem_readActiveLeases hp).mpr ⟨f, ho.left, rfl,
          ho.right.right.unexpired⟩)
      simp [leaseMatchesHolder, ho.right.left, hb] at hn
    case some lease =>
      have ⟨g, hg, ha, _, he, _⟩ := releasable_eq_some hp hl
      rw [← he, hi.single g hg f ho.left (ha.trans ho.right.left.symm)]
  simp only [State.releaseBuildSlot, hl, ho.right.right.unreleased, ho.right.left, hb]

-- A call that is made on the branch of the agent's lease writes a lease of the agent.
theorem call_eq_write (hi : Invariant h identities s) (hp : c.listing.Perm s.files.rows)
    (hb : (∀ slot ttlSeconds exclusive, c.request ≠ .acquire slot ttlSeconds exclusive) →
      ∀ f, s.Own c f → f.2.branch = c.branch) (hw : c.request.Writes s c) :
    ∃ lease, lease.agent = c.agent ∧ (s.call h c).1 = s.write h c c.agent c.branch lease := by
  cases hr : c.request
  all_goals rw [hr] at hw
  case acquire slot ttlSeconds exclusive =>
    refine ⟨grantedLease slot c.agent c.branch c.now ttlSeconds exclusive, rfl, ?_⟩
    simp only [State.call, hr, State.acquireBuildSlot]
  case renew extendSeconds =>
    have ⟨f, hf⟩ := hw
    refine ⟨renewedLease f.2 c.now extendSeconds, hf.right.left, ?_⟩
    simp only [State.call, hr, hi.renewBuildSlot hp hf (hb (by simp [hr]) f hf)]
  case release =>
    have ⟨f, hf⟩ := hw
    refine ⟨releasedLease f.2 c.now, hf.right.left, ?_⟩
    simp only [State.call, hr, hi.releaseBuildSlot hp hf (hb (by simp [hr]) f hf)]

-- What is in the slot after a lease has been written.
theorem mem_write (hi : Invariant h identities s) (hd : Set.InjOn h.hash identities)
    (hm : c.identity ∈ identities) (hp : c.listing'.Perm s.files.rows)
    (hl : s.files.get? (leasePathForHolder h c.agent c.branch) = none →
      ∀ g ∈ s.files.get? (legacyLeasePathForHolder c.agent c.branch), g.2.agent = c.agent) :
    ∃ path branch, path = leasePathForHolder h c.agent branch ∧
      holderIdentity c.agent branch ∈ identities ∧
      (∀ f ∈ s.files.rows, f.2.agent = c.agent → f.1 = path) ∧
      ∀ lease g, g ∈ (s.write h c c.agent c.branch lease).rows ↔
        g = (path, lease) ∨ g ∈ s.files.rows ∧ g.2.agent ≠ c.agent := by
  have mem_iff {path : Str} (hr : resolveHolderLeasePath h s.files c.listing' c.agent c.branch =
      path)
      (hne : ∀ g ∈ s.files.rows, g.1 ≠ path ↔ g.2.agent ≠ c.agent) (lease : BuildSlotLease)
        (g : Entry) :
      g ∈ (s.write h c c.agent c.branch lease).rows ↔
        g = (path, lease) ∨ g ∈ s.files.rows ∧ g.2.agent ≠ c.agent := by
    rw [State.write, Table.mem_put, hr]
    exact or_congr_right (and_congr_right fun hg => hne g hg)
  by_cases ho : ∃ f ∈ s.files.rows, f.2.agent = c.agent
  case pos =>
    have ⟨f, hf, ha⟩ := ho
    have ⟨branch, hn, hb⟩ := hi.named f hf
    have own {g : Entry} (hg : g ∈ s.files.rows) (hga : g.2.agent = c.agent) : g.1 = f.1 :=
      hi.single g hg f hf (hga.trans ha.symm) ▸ rfl
    refine ⟨f.1, branch, ha ▸ hn, ha ▸ hb, fun g => own,
      mem_iff ?_ fun g hg => not_congr ⟨fun hk => ?_, own hg⟩⟩
    · exact ha ▸ hi.resolve_own hd (ha ▸ hm) hp hf (ha ▸ hl)
    · rw [List.inj_on_of_nodup_map s.files.nodup hg hf hk, ha]
  case neg =>
    have hn {g : Entry} (hg : g ∈ s.files.rows) : g.2.agent ≠ c.agent :=
      fun ha => ho ⟨g, hg, ha⟩
    refine ⟨_, c.branch, rfl, hm, fun g hg ha => absurd ha (hn hg),
      mem_iff (resolve_new hp (fun g hg => hn hg) hl) fun g hg =>
        iff_of_true (fun hk => ?_) (hn hg)⟩
    exact hn hg (hi.agent_of_preferred hd hm (hk ▸ Table.get?_key hg))

theorem next (hi : Invariant h identities s) (hd : Set.InjOn h.hash identities)
    (hm : c.identity ∈ identities) (hp : c.listing.Perm s.files.rows)
    (hp' : c.listing'.Perm s.files.rows) (hc : Meets h s c) :
    Invariant h identities (s.next h c) := by
  by_cases hw : c.request.Writes s c
  case neg =>
    have he : (s.next h c).files = s.files := call_eq_files hp hw
    exact { named := he ▸ hi.named, single := he ▸ hi.single }
  case pos =>
    have ⟨lease, ha, he⟩ := hi.call_eq_write hp hc.branch hw
    have he : (s.next h c).files = _ := he
    have ⟨path, branch, hn, hb, _, mem_iff⟩ := hi.mem_write hd hm hp' (hc.legacy hw)
    constructor
    case named =>
      intro g hg
      obtain rfl | ⟨hg, _⟩ := (mem_iff lease g).mp (he ▸ hg)
      · exact ⟨branch, ha ▸ hn, ha ▸ hb⟩
      · exact hi.named g hg
    case single =>
      intro g hg g' hg' hag
      obtain rfl | ⟨hg, hga⟩ := (mem_iff lease g).mp (he ▸ hg)
      all_goals obtain rfl | ⟨hg', hga'⟩ := (mem_iff lease g').mp (he ▸ hg')
      · rfl
      · exact absurd (hag.symm.trans ha) hga'
      · exact absurd (hag.trans ha) hga
      · exact hi.single g hg g' hg' hag

theorem answered (hi : Invariant h identities s) (hd : Set.InjOn h.hash identities)
    (hm : c.identity ∈ identities) (hp : c.listing.Perm s.files.rows)
    (hp' : c.listing'.Perm s.files.rows) (hc : Meets h s c) :
    c.request.Answered s (s.next h c) c (s.call h c).2 := by
  cases hr : c.request
  case acquire => trivial
  case renew extendSeconds =>
    intro f hf
    have hw : c.request.Writes s c := by
      rw [hr]
      exact ⟨f, hf⟩
    have ⟨path, _, _, _, hown, mem_iff⟩ := hi.mem_write hd hm hp' (hc.legacy hw)
    let renewed := renewedLease f.2 c.now extendSeconds
    have hcall :
        s.call h c = (s.write h c c.agent c.branch renewed, .renew true renewed.expiresTs) := by
      rw [State.call, hr]
      exact hi.renewBuildSlot hp hf (hc.branch (by simp [hr]) f hf)
    refine ⟨_, lt_renewedLease hf.right.right.unexpired, congrArg Prod.snd hcall, ?_⟩
    rw [State.next, hcall, hown f hf.left hf.right.left]
    exact (mem_iff _ _).mpr (.inl rfl)
  case release =>
    intro ⟨f, hf⟩
    have hw : c.request.Writes s c := by
      rw [hr]
      exact ⟨f, hf⟩
    have ⟨path, _, _, _, _, mem_iff⟩ := hi.mem_write hd hm hp' (hc.legacy hw)
    let released := releasedLease f.2 c.now
    have hcall : s.call h c = (s.write h c c.agent c.branch released, .release true c.now) := by
      rw [State.call, hr]
      exact hi.releaseBuildSlot hp hf (hc.branch (by simp [hr]) f hf)
    refine ⟨⟨_, congrArg Prod.snd hcall⟩, fun g ⟨hg, ha, hh⟩ => ?_⟩
    rw [State.next, hcall] at hg
    obtain rfl | ⟨_, hn⟩ := (mem_iff _ g).mp hg
    · exact Option.some_ne_none _ hh.unreleased
    · exact hn ha

theorem others (hi : Invariant h identities s) (hd : Set.InjOn h.hash identities)
    (hm : c.identity ∈ identities) (hp : c.listing.Perm s.files.rows)
    (hp' : c.listing'.Perm s.files.rows) (hc : Meets h s c) (hg : g.2.agent ≠ c.agent) :
    g ∈ (s.next h c).files.rows ↔ g ∈ s.files.rows := by
  by_cases hw : c.request.Writes s c
  case neg => rw [show (s.next h c).files = s.files from call_eq_files hp hw]
  case pos =>
    have ⟨lease, ha, he⟩ := hi.call_eq_write hp hc.branch hw
    have ⟨path, _, _, _, _, mem_iff⟩ := hi.mem_write hd hm hp' (hc.legacy hw)
    rw [show (s.next h c).files = _ from he, mem_iff]
    refine ⟨fun hm => ?_, fun hm => .inr ⟨hm, hg⟩⟩
    obtain rfl | ⟨hm, _⟩ := hm
    · exact absurd ha hg
    · exact hm

theorem branch_of_answered (hi : Invariant h identities s) (hp : c.listing.Perm s.files.rows)
    (ha : c.request.Answered s (s.next h c) c (s.call h c).2)
    (hr : ∀ slot ttlSeconds exclusive, c.request ≠ .acquire slot ttlSeconds exclusive)
    (hf : s.Own c f) : f.2.branch = c.branch := by
  cases hr' : c.request
  all_goals rw [hr'] at ha
  case acquire => exact absurd hr' (hr _ _ _)
  case renew extendSeconds =>
    have ⟨_, _, he, _⟩ := ha f hf
    simp only [State.call, hr', State.renewBuildSlot] at he
    split at he
    case h_1          => simp at he
    case h_2 lease hl =>
      have ⟨g, hg, he, hb⟩ := renewable_eq_some hp hl
      rw [hi.single f hf.left g hg.left (hf.right.left.trans hg.right.left.symm), he, hb]
  case release =>
    have ⟨⟨_, he⟩, _⟩ := ha ⟨f, hf⟩
    simp only [State.call, hr', State.releaseBuildSlot] at he
    split at he
    case h_1          => simp at he
    case h_2 lease hl =>
      have ⟨g, hg, hga, _, hge, hb⟩ := releasable_eq_some hp hl
      rw [hi.single f hf.left g hg (hf.right.left.trans hga.symm), hge, hb]

theorem callHolds_iff (hi : Invariant h identities s) (hd : Set.InjOn h.hash identities)
    (hm : c.identity ∈ identities) (hp : c.listing.Perm s.files.rows)
    (hp' : c.listing'.Perm s.files.rows) : CallHolds h s c ↔ Meets h s c := by
  constructor
  case mpr =>
    intro hc
    have hi' := hi.next hd hm hp hp' hc
    exact {
      single   := fun f hf f' hf' ha _ _ => hi'.single f hf f' hf' ha
      answered := hi.answered hd hm hp hp' hc
      others   := fun f hf => hi.others hd hm hp hp' hc hf
    }
  case mp =>
    intro hc
    have hb := fun hr f hf => hi.branch_of_answered (f := f) hp hc.answered hr hf
    refine { branch := hb, legacy := fun hw hn g hg => ?_ }
    by_contra hga
    -- The lease has been written over the one of the other agent.
    have ⟨lease, ha, he⟩ := hi.call_eq_write hp hb hw
    have hg' := (hc.others g hga).mpr (Table.get?_eq_some_iff.mp hg).left
    rw [show (s.next h c).files = _ from he, State.write, Table.mem_put,
      resolve_legacy hn hg] at hg'
    obtain hg' | ⟨_, hne⟩ := hg'
    · exact hga (hg' ▸ ha)
    · exact hne rfl

end Invariant

theorem empty_invariant {clock : Int} : Invariant h identities (.empty clock) where
  named  := nofun
  single := nofun

theorem along_iff {calls : List Call} (hd : Set.InjOn h.hash identities)
    (hi : Invariant h identities s) (hm : ∀ c ∈ calls, c.identity ∈ identities)
    (hr : run (step h) s calls = some s') :
    Along (step h) (CallHolds h) s calls ↔ Along (step h) (Meets h) s calls := by
  induction calls generalizing s
  case nil => rfl
  case cons c calls ih =>
    have ⟨t, ht, hr⟩ := Option.bind_eq_some_iff.mp hr
    have ⟨he, hp, hp'⟩ := step_eq_some ht
    have ⟨hc, hm⟩ := List.forall_mem_cons.mp hm
    rw [Along, Along, hi.callHolds_iff hd hc hp hp']
    refine and_congr_right fun hmeets => ?_
    have hi' : Invariant h identities t := he ▸ hi.next hd hc hp hp' hmeets
    simp only [ht, Option.some.injEq, forall_eq']
    exact ih hi' hm hr

theorem holder_exact (h : ShortHash) (clock : Int) (calls : List Call) (s : State)
    (hd : Set.InjOn h.hash { identity | ∃ c ∈ calls, c.identity = identity })
    (hr : run (step h) (.empty clock) calls = some s) :
    Along (step h) (CallHolds h) (.empty clock) calls ↔
      Along (step h) (Meets h) (.empty clock) calls :=
  along_iff hd empty_invariant (fun c hc => ⟨c, hc, rfl⟩) hr

section Sample

def sampleHash : ShortHash where
  hash s :=
    if s = "BlueLake:::main".toList then "82751db6a2537f23".toList
    else if s = "BlueLake:::feature".toList then "0c7c6629d08f5c70".toList
    else "0000000000000000".toList
  length s := by
    split
    · rfl
    · split <;> rfl

def sampleFile : Entry :=
  ("BlueLake--82751db6a2537f23.json".toList,
    grantedLease "build".toList "BlueLake".toList (some "main".toList) 0 none none)

def sampleCall (request : Request) (now : Int) (branch : Str) (listing : List Entry) : Call where
  agent    := "BlueLake".toList
  request  := request
  now      := now
  branch   := branch
  listing  := listing
  listing' := listing

def acquireOnMain : Call :=
  sampleCall (.acquire "build".toList none none) 0 "main".toList []

-- The lease of the other branch is written over.
def movedFile : Entry :=
  ("BlueLake--82751db6a2537f23.json".toList,
    grantedLease "build".toList "BlueLake".toList (some "feature".toList) 1 none none)

def changeOfBranch : List Call :=
  [acquireOnMain, sampleCall (.acquire "build".toList none none) 1 "feature".toList [sampleFile],
    sampleCall (.renew none) 2 "feature".toList [movedFile]]

theorem meets_changeOfBranch :
    Along (step sampleHash) (Meets sampleHash) (.empty 0) changeOfBranch := by
  have acquires {s : State} {c : Call} (h : c.request = .acquire "build".toList none none)
      (hl : s.files.get? (legacyLeasePathForHolder c.agent c.branch) = none) :
        Meets sampleHash s c :=
    ⟨fun hn => absurd h (hn _ _ _), fun _ _ => by simp [hl]⟩
  refine ⟨acquires rfl rfl, fun _ h => ?_⟩
  cases h
  refine ⟨acquires rfl rfl, fun _ h => ?_⟩
  cases h
  refine ⟨⟨fun _ f hf => ?_, fun _ _ f hf => ?_⟩, fun _ _ => trivial⟩
  · cases List.mem_singleton.mp hf.left
    rfl
  · cases hf

-- The agent has two identities, and renews its lease with the second.
theorem holder_exact_changeOfBranch :
    ∃ s, run (step sampleHash) (.empty 0) changeOfBranch = some s ∧
      Along (step sampleHash) (CallHolds sampleHash) (.empty 0) changeOfBranch := by
  refine ⟨_, rfl, (holder_exact sampleHash 0 changeOfBranch _ ?_ rfl).mpr meets_changeOfBranch⟩
  have identity {c : Call} (hc : c ∈ changeOfBranch) :
      c.identity = "BlueLake:::main".toList ∨ c.identity = "BlueLake:::feature".toList := by
    simp only [changeOfBranch, List.mem_cons, List.not_mem_nil, or_false] at hc
    obtain rfl | rfl | rfl := hc
    · exact .inl rfl
    · exact .inr rfl
    · exact .inr rfl
  rintro _ ⟨c, hc, rfl⟩ _ ⟨c', hc', rfl⟩ h
  obtain hi | hi := identity hc <;> obtain hi' | hi' := identity hc'
  · exact hi.trans hi'.symm
  · rw [hi, hi'] at h
    exact absurd h (by decide)
  · rw [hi, hi'] at h
    exact absurd h (by decide)
  · exact hi.trans hi'.symm

def renewOnFeature : Call :=
  sampleCall (.renew none) 1 "feature".toList [sampleFile]

def releaseOnFeature : Call :=
  sampleCall .release 1 "feature".toList [sampleFile]

-- The agent has the lease, but the branch has changed.
theorem not_holds_feature :
    ∃ s, run (step sampleHash) (.empty 0) [acquireOnMain] = some s ∧
      s.Own renewOnFeature sampleFile ∧ (s.call sampleHash renewOnFeature).2 = .renew false none ∧
      s.Own releaseOnFeature sampleFile ∧
      (s.call sampleHash releaseOnFeature).2 = .release false none ∧
      ¬Along (step sampleHash) (CallHolds sampleHash) (.empty 0)
        [acquireOnMain, renewOnFeature] := by
  have hr : run (step sampleHash) (.empty 0) [acquireOnMain] =
      some ⟨⟨[sampleFile], List.nodup_singleton _⟩, 0⟩ := rfl
  have hown : State.Own ⟨⟨[sampleFile], List.nodup_singleton _⟩, 0⟩ renewOnFeature sampleFile :=
    ⟨List.mem_cons_self, rfl, rfl, rfl⟩
  refine ⟨_, hr, hown, rfl, hown, rfl, fun h => ?_⟩
  have ⟨_, _, he, _⟩ := (h.right _ rfl).left.answered sampleFile hown
  exact absurd (Response.renew.inj he).left Bool.false_ne_true

end Sample

end BuildSlots
