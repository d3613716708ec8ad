import AgentMail.BuildSlots.Theorems.Sound

open Pattern (Str)

namespace BuildSlots

variable {ι : Type} [DecidableEq ι] {h : ShortHash} {w w' : World ι} {t u : Thread ι}
  {p : Published ι}
variable {phase : Phase ι} {plan : Plan ι} {stage : Stage} {reply : Reply ι} {id : ι} {path : Str}
  {paths : List Str}
variable {entries : List (Published ι)} {e : Event ι}

namespace Thread

theorem Valid.answer (hv : t.Valid w) : (t.enter (.answer reply)).Valid w where
  now   := hv.now
  known := fun _ hm => absurd hm List.not_mem_nil
  own   := fun _ _ he => by cases he
  ready := fun _ _ _ _ _ => trivial

theorem Valid.returned (hv : t.Valid w) : (t.enter (.returned reply)).Valid w where
  now   := hv.now
  known := fun _ hm => absurd hm List.not_mem_nil
  own   := fun _ _ he => by cases he
  ready := fun _ _ _ _ _ => trivial

-- The path does not matter.
theorem Valid.publish {stage' : Stage} (hv : t.Valid w) (hp : t.phase = .publish plan stage) :
    (t.enter (.publish plan stage')).Valid w where
  now   := hv.now
  known := fun p hm => hv.known p (by rw [hp]; exact hm)
  own   := by
    intro plan' stage'' he
    cases he
    exact hv.own plan stage hp
  ready := by
    intro hd f hf ha hr
    have hready := hv.ready hd f hf ha hr
    rw [Ready, hp] at hready
    exact hready

theorem Valid.listed (hv : t.Valid w) (hp : paths.Perm (w.files.rows.map Prod.fst))
    (hl : t.listed paths = some phase) : (t.enter phase).Valid w := by
  unfold Thread.listed at hl
  split at hl
  case h_1 hphase =>
    cases hl
    constructor
    case now   => exact hv.now
    case known => exact fun _ hm => absurd hm List.not_mem_nil
    case own   => exact fun _ _ he => by cases he
    case ready =>
      intro hd f hf ha hr
      have hready := hv.ready hd f hf ha hr
      rw [Ready, hphase] at hready
      exact ⟨fun _ _ _ _ => .inl (hp.mem_iff.mpr (List.mem_map_of_mem hf)),
        fun n hn => ⟨hready n hn, fun _ hm => absurd hm List.not_mem_nil⟩⟩
  case h_2 plan hphase =>
    cases hl
    exact hv.publish hphase
  case h_3 => contradiction

theorem Valid.read (hs : w.Sound) (hv : t.Valid w) (hp : t.phase = .read (path :: paths) entries) :
    (t.enter (.read paths (entries ++ (w.files.get? path).toList.map Prod.snd))).Valid w := by
  have hread : ∀ p ∈ (w.files.get? path).toList.map Prod.snd, ∃ f ∈ w.files.rows, f.2 = p := by
    intro p hm
    obtain ⟨f, hf, he⟩ := List.mem_map.mp hm
    exact ⟨f, (Table.get?_eq_some_iff.mp (Option.mem_toList.mp hf)).left, he⟩
  constructor
  case now   => exact hv.now
  case own   => exact fun _ _ he => by cases he
  case known =>
    intro p hm
    obtain hm | hm := List.mem_append.mp hm
    · exact hv.known p (by rw [hp]; exact hm)
    · obtain ⟨f, hf, he⟩ := hread p hm
      exact he ▸ hs.known f hf
  case ready =>
    intro hd f hf ha hr
    have hready := hv.ready hd f hf ha hr
    rw [Ready, hp] at hready
    constructor
    case left =>
      intro slot ttlSeconds exclusive hreq
      obtain hm | hm := hready.left slot ttlSeconds exclusive hreq
      · obtain hm | hm := List.mem_cons.mp hm
        · have hget : w.files.get? path = some f := hm ▸ Table.get?_key hf
          exact .inr (by simp [hget])
        · exact .inl hm
      · exact .inr (List.mem_append_left _ hm)
    case right =>
      intro n hreq
      obtain ⟨htime, hfine⟩ := hready.right n hreq
      refine ⟨htime, fun p hm hpa => ?_⟩
      obtain hm | hm := List.mem_append.mp hm
      · exact hfine p hm hpa
      · obtain ⟨g, hg, he⟩ := hread p hm
        subst he
        exact hs.fine g hg f hf (hpa ▸ ha.symm)

theorem Valid.acquire (hv : t.Valid w) (hp : t.phase = .read [] entries)
    (ht : w.threads.get? id = some t) {slot : Str} {ttlSeconds : Option Int}
    {exclusive : Option Bool} (hr : t.request = .acquire slot ttlSeconds exclusive) :
    (t.enter (t.decided entries)).Valid (w.enter id (t.decided entries)) := by
  have hid : t.id = id := (Table.get?_eq_some_iff.mp ht).right
  have hreply : ∃ granted conflicts, t.decided entries =
      .publish ⟨⟨granted, t.id, conflicts, t.now⟩, .acquire granted conflicts⟩ .preferred ∧
      granted.agent = t.agent ∧
      conflicts = ((entries.filter (·.lease.unexpired t.now)).filter
        (·.lease.conflictsWith t.agent granted.exclusive)).map fun p => (p.grant, p.lease) :=
    ⟨grantedLease slot t.agent t.branch t.now ttlSeconds exclusive, _,
      by rw [decided, hr], rfl, rfl⟩
  have ⟨granted, conflicts, he, hga, hc⟩ := hreply
  rw [he]
  constructor
  case now   => exact hv.now
  case known =>
    intro p hm
    rw [List.mem_singleton.mp hm, hid]
    exact { time := hv.now, answer := ⟨_, granted, World.get?_enter ht, rfl⟩ }
  case own =>
    intro plan stage he
    cases he
    exact ⟨hga, .inl (by simp [enter, hr, Request.publishes])⟩
  case ready =>
    intro hd f hf ha hrel
    have hready := hv.ready hd f hf ha hrel
    rw [Ready, hp] at hready
    have hm := (hready.left slot ttlSeconds exclusive hr).resolve_left List.not_mem_nil
    by_cases hu : f.2.lease.unexpired t.now
    case neg => exact .expired (.inr hu)
    case pos =>
      by_cases hx : granted.exclusive ∨ f.2.lease.exclusive
      case neg => exact .shared (not_or.mp hx)
      case pos =>
        have hcw : f.2.lease.conflictsWith t.agent granted.exclusive := by
          simpa [BuildSlotLease.conflictsWith, hrel,
            show ¬f.2.lease.agent = t.agent from ha] using hx
        refine .lists ⟨(f.2.grant, f.2.lease), ?_, rfl, rfl⟩
        exact hc ▸ List.mem_map_of_mem (List.mem_filter.mpr ⟨List.mem_filter.mpr ⟨hm, hu⟩, hcw⟩)

theorem Valid.renew (hv : t.Valid w) (hp : t.phase = .read [] entries) {extendSeconds : Option Int}
    (hr : t.request = .renew extendSeconds) : (t.enter (t.decided entries)).Valid w := by
  rw [decided, hr]
  dsimp only
  split
  case h_1   => exact hv.answer
  case h_2 p hfind =>
    have ⟨hm, hu⟩ := List.mem_filter.mp (List.mem_of_find?_eq_some hfind)
    have hmatch := List.find?_some hfind
    simp only [leaseMatchesHolder, Bool.and_eq_true, decide_eq_true_eq,
      Option.isNone_iff_eq_none] at hmatch
    obtain ⟨⟨hpa, _⟩, hpr⟩ := hmatch
    have hk := hv.known p (by rw [hp]; exact hm)
    constructor
    case now   => exact hv.now
    case known =>
      intro q hq
      rw [List.mem_singleton.mp hq]
      exact { time := max_le hk.time hv.now, answer := hk.answer }
    case own =>
      intro plan stage he
      cases he
      exact ⟨hpa, .inl (by simp [enter, hr, Request.publishes])⟩
    case ready =>
      intro hd f hf ha hrel
      have hready := hv.ready hd f hf ha hrel
      rw [Ready, hp] at hready
      have ⟨htime, hfine⟩ := hready.right extendSeconds hr
      exact (hfine p hm hpa).renew hpr hu htime

theorem Valid.release (hv : t.Valid w) (hp : t.phase = .read [] entries)
    (hr : t.request = .release) : (t.enter (t.decided entries)).Valid w := by
  rw [decided, hr]
  dsimp only
  split
  case h_1   => exact hv.answer
  case h_2 p hfind =>
    split
    case h_1 => exact hv.answer
    case h_2 =>
      have hm := (List.mem_filter.mp (List.mem_of_find?_eq_some hfind)).left
      have hmatch := List.find?_some hfind
      simp only [leaseMatchesHolder, Bool.and_eq_true, decide_eq_true_eq] at hmatch
      have hk := hv.known p (by rw [hp]; exact hm)
      constructor
      case now   => exact hv.now
      case known =>
        intro q hq
        rw [List.mem_singleton.mp hq]
        exact { time := max_le hk.time hv.now, answer := hk.answer }
      case own =>
        intro plan stage he
        cases he
        exact ⟨hmatch.left, .inr (Option.some_ne_none _)⟩
      case ready => exact fun _ f _ _ _ => .released (.inl (Option.some_ne_none _))

end Thread

namespace World.Sound

theorem decided (hs : w.Sound) (ht : w.threads.get? id = some t) (hp : t.phase = .read [] entries) :
    (w.enter id (t.decided entries)).Sound := by
  have hv := hs.valid t (Table.get?_eq_some_iff.mp ht).left
  have hr : ∀ reply, t.phase.reply? = some reply → (t.decided entries).reply? = some reply := by
    rw [hp]
    exact nofun
  refine hs.enter ht hr ?_
  cases hreq : t.request
  case acquire => exact hv.acquire hp ht hreq
  case renew   => exact (hv.renew hp hreq).extend (extends_enter ht hr) rfl
  case release => exact (hv.release hp hreq).extend (extends_enter ht hr) rfl

theorem listed (hs : w.Sound) (ht : w.threads.get? id = some t)
    (hp : paths.Perm (w.files.rows.map Prod.fst)) (hl : t.listed paths = some phase) :
    (w.enter id phase).Sound := by
  have hv := hs.valid t (Table.get?_eq_some_iff.mp ht).left
  have hr : ∀ reply, t.phase.reply? = some reply → phase.reply? = some reply := by
    unfold Thread.listed at hl
    split at hl
    case h_1 hphase      =>
      rw [hphase]
      exact nofun
    case h_2 plan hphase =>
      cases hl
      rw [hphase]
      exact fun _ hm => hm
    case h_3 => contradiction
  exact hs.enter ht hr ((hv.listed hp hl).extend (extends_enter ht hr) rfl)

theorem next (hs : w.Sound) (ht : w.threads.get? id = some t) (hn : t.next h w.files = some phase) :
    (w.enter id phase).Sound := by
  have hv := hs.valid t (Table.get?_eq_some_iff.mp ht).left
  unfold Thread.next at hn
  split at hn
  case h_1 entries hp =>
    cases hn
    exact hs.decided ht hp
  case h_2 path paths entries hp =>
    cases hn
    have hr : ∀ reply, t.phase.reply? = some reply →
        Phase.reply? (.read paths entries) = some reply := by
      rw [hp]
      exact nofun
    exact hs.enter ht hr ((hv.read hs hp).extend (extends_enter ht hr) rfl)
  case h_3 plan stage hp =>
    have ⟨stage', _, he⟩ := Option.map_eq_some_iff.mp hn
    subst he
    have hr : ∀ reply, t.phase.reply? = some reply →
        Phase.reply? (.publish plan stage') = some reply := by
      rw [hp]
      exact fun _ hm => hm
    exact hs.enter ht hr ((hv.publish hp).extend (extends_enter ht hr) rfl)
  case h_4 reply hp =>
    cases hn
    have hr : ∀ r, t.phase.reply? = some r → Phase.reply? (.returned reply) = some r := by
      rw [hp]
      exact fun _ hm => hm
    exact hs.enter ht hr (hv.returned.extend (extends_enter ht hr) rfl)
  case h_5 => contradiction
  case h_6 => contradiction

theorem start (hs : w.Sound) (hn : w.threads.get? id = none) {agent : Str} {branch : Option Str}
    {request : Request} : (w.start id agent branch request).Sound := by
  have he : w.Extends (w.start id agent branch request) := {
    clock := le_rfl
    reply := by
      intro id' t ht reply hr
      have hne : id ≠ id' := by
        intro he
        rw [← he, hn] at ht
        contradiction
      refine ⟨t, ?_, hr⟩
      rw [World.start, Table.get?_insertOrIgnore, if_neg hne, ht]
  }
  constructor
  case fine  => exact hs.fine
  case known => exact fun f hf => (hs.known f hf).extend he
  case valid =>
    intro t ht
    rw [World.start, Table.rows_insertOrIgnore hn] at ht
    obtain ht | ht := List.mem_append.mp ht
    · exact (hs.valid t ht).extend he rfl
    · rw [List.mem_singleton.mp ht]
      exact {
        now   := le_rfl
        known := fun _ hm => absurd hm List.not_mem_nil
        own   := fun _ _ he => by cases he
        ready := fun _ f hf _ _ _ _ => (hs.known f hf).time
      }

theorem tick (hs : w.Sound) {now : Int} (hle : w.clock ≤ now) :
    World.Sound { w with clock := now } := by
  have he : w.Extends { w with clock := now } := {
    clock := hle
    reply := fun _ t ht _ hr => ⟨t, ht, hr⟩
  }
  exact {
    fine  := hs.fine
    known := fun f hf => (hs.known f hf).extend he
    valid := fun t ht => (hs.valid t ht).extend he rfl
  }

-- What has not been disturbed by the new file knows of it or still reads it.
theorem rename (hs : w.Sound) (ht : w.threads.get? id = some t)
    (hp : t.phase = .publish plan (.write path)) (hd : t.request.publishes → ¬t.disturbed) :
    (w.rename t path plan.target).Sound := by
  have hv := hs.valid t (Table.get?_eq_some_iff.mp ht).left
  have ⟨hta, htr⟩ := hv.own plan _ hp
  have he : w.Extends (w.rename t path plan.target) := {
    clock := le_rfl
    reply := by
      intro id' u hu reply hr
      refine ⟨u.disturb path t, ?_, hr⟩
      rw [World.rename, Table.get?_update, hu]
      rfl
  }
  have hfine : ∀ f ∈ w.files.rows, f.2.lease.agent ≠ t.agent → plan.target.Fine f.2 := by
    intro f hf ha
    by_cases hr : f.2.lease.releasedTs = none
    case neg => exact .released (.inr hr)
    case pos =>
      obtain hpub | htr := htr
      · have hready := hv.ready (hd hpub) f hf ha hr
        rw [Thread.Ready, hp] at hready
        exact hready
      · exact .released (.inl htr)
  have mem_iff {f : Str × Published ι} : f ∈ (w.rename t path plan.target).files.rows →
      f = (path, plan.target) ∨ f ∈ w.files.rows :=
    fun hf => (Table.mem_put.mp hf).imp_right And.left
  constructor
  case fine =>
    intro f hf g hg ha
    obtain rfl | hf := mem_iff hf
    all_goals obtain rfl | hg := mem_iff hg
    · exact absurd rfl ha
    · exact hfine g hg (hta ▸ ha.symm)
    · exact (hfine f hf (hta ▸ ha)).symm
    · exact hs.fine f hf g hg ha
  case known =>
    intro f hf
    obtain rfl | hf := mem_iff hf
    · exact (hv.known plan.target (by rw [hp]; exact List.mem_singleton_self _)).extend he
    · exact (hs.known f hf).extend he
  case valid =>
    intro u' hu'
    have ⟨u, hu, hue⟩ := List.mem_map.mp hu'
    rw [if_pos rfl] at hue
    subst hue
    have hvu := hs.valid u hu
    constructor
    case now   => exact hvu.now
    case known => exact fun p hm => (hvu.known p hm).extend he
    case own   => exact hvu.own
    case ready =>
      intro hdu f hf ha hr
      simp only [Thread.disturb, Bool.or_eq_true, not_or] at hdu
      obtain rfl | hf := mem_iff hf
      case inr => exact hvu.ready hdu.left f hf ha hr
      case inl =>
        have hpub := htr.resolve_right (not_not_intro hr)
        have hsr : u.stillReads path := by
          have hua : u.agent ≠ t.agent := fun he => ha (hta.trans he.symm)
          simpa [hpub, hua] using hdu.right
        unfold Thread.stillReads at hsr
        unfold Thread.Ready
        rw [show (u.disturb path t).phase = u.phase from rfl,
          show (u.disturb path t).request = u.request from rfl]
        split at hsr
        case h_1 hreq hphase =>
          rw [hphase, hreq]
          exact nofun
        case h_2 hreq hphase =>
          rw [hphase, hreq]
          exact ⟨fun _ _ _ _ => .inl (of_decide_eq_true hsr), nofun⟩
        case h_3 => contradiction

theorem step (hs : w.Sound) (hc : MeetsWorld w e) (hw : stepWorld h w e = some w') : w'.Sound := by
  cases e
  all_goals simp only [stepWorld] at hw
  case tick now =>
    split at hw
    case isTrue hle => exact Option.some.inj hw ▸ hs.tick hle
    case isFalse    => contradiction
  case start id agent branch request =>
    split at hw
    case h_1 hn => exact Option.some.inj hw ▸ hs.start hn
    case h_2    => contradiction
  case list id paths =>
    split at hw
    case h_1      => contradiction
    case h_2 t ht =>
      split at hw
      case isFalse   => contradiction
      case isTrue hp =>
        obtain ⟨phase, hl, he⟩ := Option.map_eq_some_iff.mp hw
        exact he ▸ hs.listed ht hp hl
  case advance id =>
    split at hw
    case h_1      => contradiction
    case h_2 t ht =>
      split at hw
      case h_2 =>
        obtain ⟨phase, hn, he⟩ := Option.map_eq_some_iff.mp hw
        exact he ▸ hs.next ht hn
      case h_1 plan path hp =>
        cases hw
        have hs' := hs.rename ht hp (hc t ht (by rw [hp]; rfl))
        have ht' : (w.rename t path plan.target).threads.get? id = some (t.disturb path t) := by
          rw [World.rename, Table.get?_update, ht]
          rfl
        refine hs'.enter ht' ?_ (((hs'.valid _ (Table.get?_eq_some_iff.mp ht').left).answer).extend
          (extends_enter ht' ?_) rfl)
        all_goals
          rw [show (t.disturb path t).phase = t.phase from rfl, hp]
          exact fun _ hm => hm

theorem told (hs : w.Sound) : w.Told := by
  have conflicts_eq {f : Str × Published ι} (hf : f ∈ w.files.rows) {t : Thread ι}
      (ht : w.threads.get? f.2.grant = some t) {granted : BuildSlotLease}
        {conflicts : List (ι × BuildSlotLease)}
      (hr : t.phase = .returned (.acquire granted conflicts)) : f.2.conflicts = conflicts := by
    have ⟨t', granted', ht', hr'⟩ := (hs.known f hf).answer
    rw [ht] at ht'
    cases ht'
    rw [hr] at hr'
    cases hr'
    rfl
  intro f hf g hg ha hfh hgh hx t ht u hu granted granted' conflicts conflicts' htr hur
  rw [← conflicts_eq hf ht htr, ← conflicts_eq hg hu hur]
  cases hs.fine f hf g hg ha
  case lists hl  => exact .inl hl
  case listed hl => exact .inr hl
  case shared hn => exact (not_or.mpr hn hx).elim
  case released hr =>
    obtain hr | hr := hr
    · exact absurd hfh.unreleased hr
    · exact absurd hgh.unreleased hr
  case expired hn =>
    obtain hn | hn := hn
    · exact absurd (BuildSlotLease.unexpired_of_le (hs.known g hg).time hfh.unexpired) hn
    · exact absurd (BuildSlotLease.unexpired_of_le (hs.known f hf).time hgh.unexpired) hn

end World.Sound

theorem sound_empty {clock : Int} : (World.empty clock : World ι).Sound where
  fine  := fun _ hf => absurd hf List.not_mem_nil
  known := fun _ hf => absurd hf List.not_mem_nil
  valid := fun _ ht => absurd ht List.not_mem_nil

theorem told_of_undisturbed (h : ShortHash) (clock : Int) (events : List (Event ι)) (w : World ι)
    (hr : run (stepWorld h) (.empty clock) events = some w)
    (hc : Along (stepWorld h) MeetsWorld (.empty clock) events) : w.Told :=
  (Run.invariant_along (I := World.Sound) (fun hs hc hw => hs.step hc hw) sound_empty hc hr).told

section Overlap

def overlapHash : ShortHash where
  hash s := if s = "BlueLake:::main".toList then "82751db6a2537f23".toList
    else "8b05f9230f47089d".toList
  length s := by split <;> rfl

def blueLake : Event Bool :=
  .start true "BlueLake".toList (some "main".toList) (.acquire "build".toList none none)

def greenPeak : Event Bool :=
  .start false "GreenPeak".toList (some "main".toList) (.acquire "build".toList none none)

-- The second call starts after the first one has returned, and reads the lease that it has
-- published.
def consecutiveRun : List (Event Bool) :=
  [blueLake, .list true [], .advance true, .advance true, .advance true,
    .list true [], .advance true, .advance true, .advance true,
    greenPeak, .list false ["BlueLake--82751db6a2537f23.json".toList], .advance false,
    .advance false, .advance false, .advance false,
    .list false ["BlueLake--82751db6a2537f23.json".toList], .advance false, .advance false,
    .advance false, .advance false]

-- The conflicts that a call has returned with.
def Phase.answered {ι : Type} : Phase ι → Option (List (ι × Str))
  | returned (.acquire _ conflicts) => some (conflicts.map fun c => (c.1, c.2.agent))
  | _                               => none

theorem told_of_undisturbed_consecutive : ∃ w : World Bool,
    run (stepWorld overlapHash) (.empty 0) consecutiveRun = some w ∧
    w.files.rows.map (fun f => (f.2.grant, f.2.lease.agent)) =
      [(true, "BlueLake".toList), (false, "GreenPeak".toList)] ∧
    (∀ f ∈ w.files.rows, f.2.lease.Held w.clock ∧ f.2.lease.exclusive) ∧
    w.threads.rows.map (fun t => (t.id, t.phase.answered)) =
      [(true, some []), (false, some [(true, "BlueLake".toList)])] ∧
    w.Told := by
  refine ⟨_, rfl, by decide, by decide, by decide, ?_⟩
  exact told_of_undisturbed overlapHash 0 consecutiveRun _ rfl (by decide)

-- Both calls list the slot before one of them publishes its lease.
def overlappingRun : List (Event Bool) :=
  [blueLake, greenPeak, .list true [], .list false [],
    .advance true, .advance true, .advance true, .list true [], .advance true, .advance true,
    .advance true, .advance false, .advance false, .advance false,
    .list false ["BlueLake--82751db6a2537f23.json".toList], .advance false, .advance false,
    .advance false, .advance false]

theorem not_told_overlap :
    ∃ w, run (stepWorld overlapHash) (.empty 0) overlappingRun = some w ∧ ¬w.Told := by
  refine ⟨_, rfl, fun h => ?_⟩
  have h := h _ List.mem_cons_self _ (List.mem_cons_of_mem _ List.mem_cons_self) (by decide)
    ⟨rfl, rfl⟩ ⟨rfl, rfl⟩
    (.inl rfl) _ rfl _ rfl _ _ [] [] rfl rfl
  obtain ⟨_, hc, _⟩ | ⟨_, hc, _⟩ := h
  · exact absurd hc List.not_mem_nil
  · exact absurd hc List.not_mem_nil

end Overlap

end BuildSlots
