import AgentMail.Coalesce.Basic
import AgentMail.Lib.Threads

namespace Coalesce

namespace System

variable {ι K V E : Type} {cfg : Config K E} {s s' : System ι K V E} {i j : ι} {key key' : K}
variable {slot shard : Nat} {phase phase' : Phase K V E}

def keyOf (s : System ι K V E) (slot : Nat) : Option K :=
  s.slots[slot]?.map Slot.key

-- What is known about the slot of a call.
def Good (s : System ι K V E) : Phase K V E → Prop
  | .lead key slot            => s.keyOf slot = some key ∧ s.stateOf slot = some .pending
  | .complete key slot result =>
    s.keyOf slot = some key ∧ s.stateOf slot = some .pending ∧ (slot, key, result) ∈ s.executions
  | .remove key slot _        => s.keyOf slot = some key
  | .wait key slot _          => s.keyOf slot = some key
  | _                         => True

structure Inv (cfg : Config K E) (s : System ι K V E) : Prop where
  good     : ∀ i, s.Good (s.calls i)
  distinct : ∀ i j, i ≠ j → ∀ e e', (s.calls i).leads = some e → (s.calls j).leads = some e' →
    e.2 ≠ e'.2
  owned    : s.Owned
  placed   : ∀ shard, ∀ e ∈ (s.shards shard).rows, cfg.shardIndex e.1 = shard
  bounded  : s.Bounded cfg
  ready    : ∀ slot value, s.stateOf slot = some (.ready value) →
    ∃ key, s.keyOf slot = some key ∧ (slot, key, .ok value) ∈ s.executions
  joined   : ∀ key value slot wasPending, (key, .joined value slot wasPending) ∈ s.returned →
    (slot, key, .ok value) ∈ s.executions

theorem init_inv : (init : System ι K V E).Inv cfg where
  good     := fun _ => trivial
  distinct := nofun
  owned    := nofun
  placed   := nofun
  bounded  := fun _ => Nat.zero_le _
  ready    := nofun
  joined   := nofun

theorem Good.mono (h : s.Good phase)
    (hk : ∀ slot key, s.keyOf slot = some key → s'.keyOf slot = some key)
    (hs : ∀ e, phase.leads = some e → phase.completed = none → s.stateOf e.2 = some .pending →
      s'.stateOf e.2 = some .pending)
    (he : ∀ x ∈ s.executions, x ∈ s'.executions) : s'.Good phase := by
  cases phase
  case lead     => exact ⟨hk _ _ h.left, hs _ rfl rfl h.right⟩
  case complete => exact ⟨hk _ _ h.left, hs _ rfl rfl h.right.left, he _ h.right.right⟩
  case remove   => exact hk _ _ h
  case wait     => exact hk _ _ h
  all_goals trivial

-- The number of references of a slot does not matter.
theorem Inv.of_refs (h : s.Inv cfg) {slots : List (Slot K V)}
    (hk : ∀ slot, { s with slots }.keyOf slot = s.keyOf slot)
    (hs : ∀ slot, { s with slots }.stateOf slot = s.stateOf slot) : { s with slots }.Inv cfg where
  good i   := (h.good i).mono (fun slot _ hk' => (hk slot).trans hk')
    (fun e _ _ hs' => (hs e.2).trans hs') fun _ hx => hx
  distinct := h.distinct
  owned    := h.owned
  placed   := h.placed
  bounded  := h.bounded
  ready slot value hr := by
    have ⟨key, hkey, hx⟩ := h.ready slot value ((hs slot).symm.trans hr)
    exact ⟨key, (hk slot).trans hkey, hx⟩
  joined   := h.joined

section

variable {f : Slot K V → Slot K V}

theorem keyOf_modify (hf : ∀ x, (f x).key = x.key) (slot' : Nat) :
    { s with slots := s.slots.modify slot f }.keyOf slot' = s.keyOf slot' := by
  simp only [keyOf, List.getElem?_modify]
  split <;> simp [hf, Function.comp_def]

theorem stateOf_modify (hf : ∀ x, (f x).state = x.state) (slot' : Nat) :
    { s with slots := s.slots.modify slot f }.stateOf slot' = s.stateOf slot' := by
  simp only [stateOf, List.getElem?_modify]
  split <;> simp [hf, Function.comp_def]

theorem stateOf_modify_of_ne {slot' : Nat} (h : slot ≠ slot') :
    { s with slots := s.slots.modify slot f }.stateOf slot' = s.stateOf slot' := by
  simp only [stateOf, List.getElem?_modify_ne f _ h]

end

theorem Inv.addRef (h : s.Inv cfg) : (s.addRef slot).Inv cfg :=
  h.of_refs (keyOf_modify fun _ => rfl) (stateOf_modify fun _ => rfl)

theorem Inv.dropRef (h : s.Inv cfg) : (s.dropRef slot).Inv cfg :=
  h.of_refs (keyOf_modify fun _ => rfl) (stateOf_modify fun _ => rfl)

theorem Inv.append_returned (h : s.Inv cfg) {outcome : Outcome V E}
    (hj : ∀ value slot wasPending, outcome = .joined value slot wasPending →
      (slot, key, .ok value) ∈ s.executions) :
    { s with returned := s.returned ++ [(key, outcome)] }.Inv cfg where
  good i := (h.good i).mono (fun _ _ hk => hk) (fun _ _ _ hs => hs) fun _ hx => hx
  distinct := h.distinct
  owned    := h.owned
  placed   := h.placed
  bounded  := h.bounded
  ready    := h.ready
  joined key' value slot wasPending hm := by
    cases List.mem_append.mp hm
    case inl hm => exact h.joined key' value slot wasPending hm
    case inr hm =>
      cases List.mem_singleton.mp hm
      exact hj value slot wasPending rfl

theorem Inv.append_executions (h : s.Inv cfg) (x : Nat × K × Result V E) :
    { s with executions := s.executions ++ [x] }.Inv cfg where
  good i   := (h.good i).mono (fun _ _ hk => hk) (fun _ _ _ hs => hs)
    fun _ hx => List.mem_append.mpr (.inl hx)
  distinct := h.distinct
  owned    := h.owned
  placed   := h.placed
  bounded  := h.bounded
  ready slot value hr := by
    have ⟨key, hk, hx⟩ := h.ready slot value hr
    exact ⟨key, hk, List.mem_append.mpr (.inl hx)⟩
  joined key value slot wasPending hm :=
    List.mem_append.mpr (.inl (h.joined key value slot wasPending hm))

-- The slot of a leader is completed with the result of its closure.
theorem Inv.complete (h : s.Inv cfg) {result : Result V E}
    (hp : s.calls i = .remove key slot result) (hx : (slot, key, result) ∈ s.executions) :
    { s with slots := s.slots.modify slot fun x =>
      { x with state := cfg.slotState result } }.Inv cfg := by
  have hkey : s.keyOf slot = some key := by
    simpa [hp, Good] using h.good i
  have hk (slot' : Nat) : { s with slots := s.slots.modify slot fun x =>
      { x with state := cfg.slotState result } }.keyOf slot' = s.keyOf slot' :=
    keyOf_modify (f := fun x => { x with state := cfg.slotState result }) (fun _ => rfl) slot'
  refine ⟨fun j => (h.good j).mono (fun _ _ hk' => (hk _).trans hk')
    (fun e he hc hs => ?_) fun _ hx =>
      hx, h.distinct, h.owned, h.placed, h.bounded, fun slot' value hr => ?_, h.joined⟩
  · have hji : j ≠ i := by
      intro hji
      rw [hji, hp] at hc
      cases hc
    have hne : slot ≠ e.2 := (h.distinct j i hji e (key, slot) he (hp ▸ rfl)).symm
    rwa [stateOf_modify_of_ne hne]
  · by_cases hs : slot = slot'
    case neg =>
      have ⟨key', hk', hx'⟩ := h.ready slot' value ((stateOf_modify_of_ne hs).symm.trans hr)
      exact ⟨key', (hk slot').trans hk', hx'⟩
    case pos =>
      subst hs
      refine ⟨key, (hk slot).trans hkey, ?_⟩
      have ⟨x, hx', hkx⟩ := Option.map_eq_some_iff.mp hkey
      simp only [stateOf, List.getElem?_modify_eq, hx'] at hr
      have hr : result = .ok value := by
        cases result <;> simp_all [Config.slotState]
      exact hr ▸ hx

theorem Inv.keyOf_of_leads (h : s.Inv cfg) {e : K × Nat} (hl : (s.calls i).leads = some e) :
    s.keyOf e.2 = some e.1 := by
  have hg := h.good i
  cases hp : s.calls i <;> rw [hp] at hl hg <;> cases hl
  case lead     => exact hg.left
  case complete => exact hg.left
  case remove   => exact hg

theorem lt_of_keyOf (h : s.keyOf slot = some key) : slot < s.slots.length := by
  have ⟨_, hx, _⟩ := Option.map_eq_some_iff.mp h
  exact (List.getElem?_eq_some_iff.mp hx).1

section

variable [DecidableEq K]

theorem mem_removeEntry {e e' : K × Nat} {shard' : Nat}
    (h : e' ∈ ((s.removeEntry shard e).shards shard').rows) :
    e' ∈ (s.shards shard').rows ∧ (shard' = shard → e'.1 ≠ e.1) := by
  by_cases hs : shard' = shard
  case pos => simpa [removeEntry, System.dropRef, Table.delete, hs] using h
  case neg => simpa [removeEntry, System.dropRef, hs] using h

theorem Inv.removeEntry (h : s.Inv cfg) {e : K × Nat} : (s.removeEntry shard e).Inv cfg := by
  refine Inv.dropRef ⟨?_, h.distinct, ?_, ?_, ?_, h.ready, h.joined⟩
  · exact fun i => (h.good i).mono (fun _ _ hk => hk) (fun _ _ _ hs => hs) fun _ hx => hx
  · exact fun shard' e' he => h.owned shard' e' (mem_removeEntry he).left
  · exact fun shard' e' he => h.placed shard' e' (mem_removeEntry he).left
  · intro shard'
    by_cases hs : shard' = shard
    case neg => simpa [hs] using h.bounded shard'
    case pos =>
      subst hs
      refine Nat.le_trans ?_ (h.bounded shard')
      simpa [Table.delete] using List.length_filter_le _ _

-- After a leader has run its removal step, its entry is not in the map.
theorem not_mem_removeOwn (h : s.Inv cfg) {shard' : Nat} :
    (key, slot) ∉ ((s.removeOwn cfg key slot).shards shard').rows := by
  intro he
  by_cases hg : (s.shards (cfg.shardIndex key)).get? key = some (key, slot)
  case neg =>
    rw [removeOwn, if_neg hg] at he
    exact hg (Table.get?_eq_some_iff.mpr ⟨h.placed _ _ he ▸ he, rfl⟩)
  case pos =>
    rw [removeOwn, if_pos hg] at he
    have ⟨hm, hne⟩ := mem_removeEntry he
    exact hne (h.placed _ _ hm).symm rfl

theorem Inv.removeOwn (h : s.Inv cfg) : (s.removeOwn cfg key slot).Inv cfg := by
  simp only [System.removeOwn]
  split
  case isTrue  => exact h.removeEntry
  case isFalse => exact h

theorem returned_removeOwn : (s.removeOwn cfg key slot).returned = s.returned := by
  simp only [System.removeOwn]
  split <;> rfl

theorem calls_removeOwn : (s.removeOwn cfg key slot).calls = s.calls := by
  simp only [System.removeOwn]
  split <;> rfl

theorem evict_cases {victim : Option (K × Nat)} (h : s.evict shard victim = some s') :
    s' = s ∧ (s.shards shard).rows = [] ∨
    ∃ e ∈ (s.shards shard).rows, s' = s.removeEntry shard e := by
  cases victim <;> simp only [evict] at h <;> split at h <;> cases h
  case none hr   => exact .inl ⟨rfl, hr⟩
  case some e hr => exact .inr ⟨e, hr.left, rfl⟩

theorem makeRoom_spec (h : s.Inv cfg) {victim : Option (K × Nat)}
    (hs : s.makeRoom cfg shard victim = some s') :
    s'.Inv cfg ∧ s'.calls = s.calls ∧ (s'.shards shard).rows ⊆ (s.shards shard).rows ∧
      (s'.shards shard).rows.length < max cfg.maxEntriesPerShard 1 := by
  unfold makeRoom at hs
  split at hs
  case isFalse hl =>
    cases hs
    exact ⟨h, rfl, List.Subset.refl _,
      Nat.lt_of_lt_of_le (Nat.lt_of_not_le hl) (Nat.le_max_left ..)⟩
  case isTrue =>
    obtain ⟨rfl, hr⟩ | ⟨e, he, rfl⟩ := evict_cases hs
    · refine ⟨h, rfl, List.Subset.refl _, ?_⟩
      simp [hr]
    · refine ⟨h.removeEntry, rfl, fun e' he' => (mem_removeEntry he').left, ?_⟩
      refine Nat.lt_of_lt_of_le ?_ (h.bounded shard)
      simpa [System.removeEntry, System.dropRef, Table.delete] using ⟨e.2, he⟩

theorem keyOf_insertSlot (h : s.keyOf slot = some key') :
    (s.insertSlot shard key).keyOf slot = some key' := by
  simpa [keyOf, System.insertSlot, List.getElem?_append_left (lt_of_keyOf h)] using h

theorem keyOf_insertSlot_length : (s.insertSlot shard key).keyOf s.slots.length = some key := by
  simp [keyOf, System.insertSlot]

theorem stateOf_insertSlot : (s.insertSlot shard key).stateOf slot =
    if slot = s.slots.length then some .pending else s.stateOf slot := by
  rw [stateOf, System.insertSlot, List.getElem?_append]
  split
  case isTrue hlt => rw [if_neg (Nat.ne_of_lt hlt), stateOf]
  case isFalse hn =>
    split
    case isTrue he => simp [he]
    case isFalse he =>
      have hge : s.slots.length < slot := Nat.lt_of_le_of_ne (Nat.le_of_not_lt hn) (Ne.symm he)
      simp [stateOf, Nat.le_of_lt hge, Nat.sub_ne_zero_of_lt hge]

-- The new entry is the last one of its shard.
theorem rows_insertSlot (h : (s.shards shard).get? key = none) :
    ((s.insertSlot shard key).shards shard).rows =
      (s.shards shard).rows ++ [(key, s.slots.length)] := by
  simpa [System.insertSlot] using Table.rows_insertOrIgnore h

theorem mem_insertSlot {e : K × Nat} {shard' : Nat} (hk : (s.shards shard).get? key = none)
    (he : e ∈ ((s.insertSlot shard key).shards shard').rows) :
    e ∈ (s.shards shard').rows ∨ shard' = shard ∧ e = (key, s.slots.length) := by
  by_cases hs : shard' = shard
  case neg => exact .inl (by simpa [System.insertSlot, hs] using he)
  case pos =>
    subst hs
    rw [rows_insertSlot hk] at he
    cases List.mem_append.mp he
    case inl he => exact .inl he
    case inr he => exact .inr ⟨rfl, List.mem_singleton.mp he⟩

-- An entry that has not been completed is pending.
theorem Inv.stateOf_of_find (h : s.Inv cfg) {e : K × Nat} (hf : (s.shards shard).get? key = some e)
    (hc : ∀ j, (s.calls j).completed ≠ some e.2) : s.stateOf e.2 = some .pending := by
  have ⟨j, hj⟩ := h.owned shard e (Table.get?_eq_some_iff.mp hf).left
  have hg := h.good j
  have hn := hc j
  cases hp : s.calls j <;> rw [hp] at hj hg hn <;> cases hj
  case lead     => exact hg.right
  case complete => exact hg.right.left
  case remove   => exact absurd rfl hn

end

variable [DecidableEq ι]

theorem calls_goto_self : (s.goto i phase).calls i = phase :=
  Function.update_self ..

theorem calls_goto_of_ne (h : j ≠ i) : (s.goto i phase).calls j = s.calls j :=
  Function.update_of_ne h ..

theorem good_goto : (s.goto i phase').Good phase ↔ s.Good phase := by
  cases phase <;> exact Iff.rfl

-- A call goes on with the slot that it leads, or it no longer leads a slot that is in the map.
theorem Inv.goto (h : s.Inv cfg) (hg : s.Good phase)
    (hd : ∀ e, phase.leads = some e → (s.calls i).leads = some e)
    (ho : ∀ shard, ∀ e ∈ (s.shards shard).rows, (s.calls i).leads = some e →
      phase.leads = some e) : (s.goto i phase).Inv cfg where
  good j   := by
    apply good_goto.mpr
    by_cases hj : j = i
    case pos =>
      subst hj
      rwa [calls_goto_self]
    case neg =>
      rw [calls_goto_of_ne hj]
      exact h.good j
  distinct := Threads.pairwise_update
    (R := fun p p' : Phase K V E => ∀ e e', p.leads = some e → p'.leads = some e' → e.2 ≠ e'.2)
    (fun hr e e' he he' => (hr e' e he' he).symm) h.distinct
    fun j hj e e' he => h.distinct i j hj.symm e e' (hd e he)
  owned shard e he := by
    have ⟨j, hj⟩ := h.owned shard e he
    by_cases hji : j = i
    case pos =>
      subst hji
      exact ⟨j, by rw [calls_goto_self, ho shard e he hj]⟩
    case neg => exact ⟨j, by rw [calls_goto_of_ne hji, hj]⟩
  placed   := h.placed
  bounded  := h.bounded
  ready    := h.ready
  joined   := h.joined

-- The call has no slot in the map, and it does not get one.
theorem Inv.goto_of_leads (h : s.Inv cfg) (hg : s.Good phase)
    (hl : phase.leads = (s.calls i).leads) : (s.goto i phase).Inv cfg :=
  h.goto hg (fun _ he => hl ▸ he) fun _ _ _ he => hl.trans he

theorem Inv.ret (h : s.Inv cfg) {outcome : Outcome V E}
    (hj : ∀ value slot wasPending, outcome = .joined value slot wasPending →
      (slot, key, .ok value) ∈ s.executions)
    (ho : ∀ shard, ∀ e ∈ (s.shards shard).rows, (s.calls i).leads ≠ some e) :
    (s.ret i key outcome).Inv cfg :=
  (h.append_returned hj).goto trivial nofun fun shard e he hl => absurd hl (ho shard e he)

variable [DecidableEq K]

theorem Inv.remove (h : s.Inv cfg) {result : Result V E}
    (hp : s.calls i = .remove key slot result) :
    (((s.removeOwn cfg key slot).dropRef slot).ret i key result.outcome).Inv cfg := by
  refine Inv.ret h.removeOwn.dropRef ?_ fun shard' e he hl => ?_
  · cases result <;> nofun
  · rw [System.dropRef, calls_removeOwn, hp] at hl
    cases hl
    exact not_mem_removeOwn h he

theorem Inv.join (h : s.Inv cfg) {e : K × Nat} {wasPending : Bool} (hp : s.calls i = .lookup key)
    (hf : (s.shards shard).get? key = some e) :
    ((s.addRef e.2).goto i (.wait key e.2 wasPending)).Inv cfg := by
  have ⟨he, hk⟩ := Table.get?_eq_some_iff.mp hf
  have ⟨j, hj⟩ := h.owned shard e he
  have hkey : (s.addRef e.2).keyOf e.2 = some key :=
    (h.addRef.keyOf_of_leads (i := j) hj).trans (congrArg some hk)
  refine h.addRef.goto_of_leads hkey ?_
  rw [System.addRef, hp]
  rfl

theorem Inv.insertSlot (h : s.Inv cfg) (hp : (s.calls i).leads = none)
    (hk : (s.shards (cfg.shardIndex key)).get? key = none)
    (hl : (s.shards (cfg.shardIndex key)).rows.length < max cfg.maxEntriesPerShard 1) :
    ((s.insertSlot (cfg.shardIndex key) key).goto i (.lead key s.slots.length)).Inv cfg := by
  have hlt {j : ι} {e : K × Nat} (he : (s.calls j).leads = some e) : e.2 ≠ s.slots.length :=
    Nat.ne_of_lt (lt_of_keyOf (h.keyOf_of_leads he))
  refine ⟨fun j => good_goto.mpr ?_, ?_, ?_, ?_, ?_, ?_, h.joined⟩
  · by_cases hj : j = i
    case pos =>
      subst hj
      rw [calls_goto_self]
      exact ⟨keyOf_insertSlot_length, stateOf_insertSlot.trans (if_pos rfl)⟩
    case neg =>
      rw [calls_goto_of_ne hj]
      refine (h.good j).mono (fun _ _ => keyOf_insertSlot) (fun e he _ hs => ?_) fun _ hx => hx
      rw [stateOf_insertSlot, if_neg (hlt he), hs]
  · refine Threads.pairwise_update
      (R := fun p p' : Phase K V E => ∀ e e', p.leads = some e → p'.leads = some e' → e.2 ≠ e'.2)
      (fun hr e e' he he' => (hr e' e he' he).symm) h.distinct fun j _ e e' he he' => ?_
    cases he
    exact (hlt he').symm
  · intro shard e he
    obtain he | ⟨_, rfl⟩ := mem_insertSlot hk he
    · have ⟨j, hj⟩ := h.owned shard e he
      have hji : j ≠ i := by
        intro hji
        cases hp.symm.trans (hji ▸ hj)
      exact ⟨j, (congrArg Phase.leads (calls_goto_of_ne hji)).trans hj⟩
    · exact ⟨i, by rw [calls_goto_self, Phase.leads]⟩
  · intro shard e he
    obtain he | ⟨rfl, rfl⟩ := mem_insertSlot hk he
    · exact h.placed shard e he
    · rfl
  · intro shard
    by_cases hs : shard = cfg.shardIndex key
    case neg => simpa [System.goto, System.insertSlot, hs] using h.bounded shard
    case pos =>
      subst hs
      refine Nat.le_trans (Nat.le_of_eq (congrArg List.length (rows_insertSlot hk))) ?_
      rw [List.length_append]
      exact hl
  · intro slot value hr
    have hs : s.stateOf slot = some (.ready value) := by
      have hr : (s.insertSlot (cfg.shardIndex key) key).stateOf slot = some (.ready value) := hr
      rw [stateOf_insertSlot] at hr
      split at hr
      case isTrue  => cases hr
      case isFalse => exact hr
    have ⟨key', hk', hx⟩ := h.ready slot value hs
    have hk' : (s.insertSlot (cfg.shardIndex key) key).keyOf slot = some key' :=
      keyOf_insertSlot hk'
    exact ⟨key', hk', hx⟩

theorem Inv.lookup (h : s.Inv cfg) {victim : Option (K × Nat)} (hp : s.calls i = .lookup key)
    (hs : s.lookup cfg i key victim = some s') : s'.Inv cfg := by
  simp only [System.lookup] at hs
  split at hs
  case h_1 e hf =>
    cases hs
    exact h.join hp hf
  case h_2 hf =>
    obtain ⟨t, ht, hs⟩ := Option.map_eq_some_iff.mp hs
    obtain ⟨hi, hc, hsub, hl⟩ := makeRoom_spec h ht
    have hk : (t.shards (cfg.shardIndex key)).get? key = none :=
      Table.get?_eq_none_iff.mpr fun e he => Table.get?_eq_none_iff.mp hf e (hsub he)
    have hn : (t.calls i).leads = none := by
      rw [hc, hp]
      rfl
    exact hs ▸ hi.insertSlot hn hk hl

theorem Inv.step (h : s.Inv cfg) {e : Event ι K V E} (hs : s.step cfg e = some s') :
    s'.Inv cfg := by
  cases e <;> simp only [System.step] at hs
  case call i key =>
    split at hs <;> cases hs
    case h_1 hp => exact h.goto_of_leads trivial (hp ▸ rfl)
  case lookup i victim =>
    split at hs
    case h_1 key hp => exact h.lookup hp hs
    case h_2        => cases hs
  case run i result =>
    split at hs <;> cases hs
    case h_1 key slot hp =>
      have ⟨hk, hst⟩ : s.Good (.lead key slot) := hp ▸ h.good i
      refine (h.append_executions (slot, key, result)).goto_of_leads ⟨hk, hst, ?_⟩ (hp ▸ rfl)
      exact List.mem_append.mpr (.inr (List.mem_singleton.mpr rfl))
    case h_2 key slot hp =>
      refine h.dropRef.ret ?_ fun shard e _ hl => ?_
      · cases result <;> nofun
      · rw [System.dropRef, hp] at hl
        cases hl
  case complete i =>
    split at hs <;> cases hs
    case h_1 key slot result hp =>
      have ⟨hk, _, hx⟩ : s.Good (.complete key slot result) := hp ▸ h.good i
      have hr : (s.goto i (.remove key slot result)).Inv cfg := h.goto_of_leads hk (hp ▸ rfl)
      exact Inv.complete hr (Function.update_self ..) hx
  case remove i =>
    split at hs <;> cases hs
    case h_1 hp => exact h.remove hp
  case wake i =>
    split at hs
    case h_2 => cases hs
    case h_1 key slot wasPending hp =>
      split at hs <;> cases hs
      case h_1 value hst =>
        have hk : s.keyOf slot = some key := by
          simpa [hp, Good] using h.good i
        have ⟨key', hk', hx⟩ := h.ready slot value hst
        cases hk'.symm.trans hk
        refine h.dropRef.ret (fun _ _ _ he => ?_) fun _ _ _ hl => ?_
        · cases he
          exact hx
        · rw [System.dropRef, hp] at hl
          cases hl
      case h_2 => exact h.goto_of_leads trivial (hp ▸ rfl)
  case timeout i =>
    split at hs
    case h_2 => cases hs
    case h_1 key slot wasPending hp =>
      split at hs <;> cases hs
      case h_1 => exact h.goto_of_leads trivial (hp ▸ rfl)

-- All slots that have been looked up by joiners were pending.
structure WerePending (s : System ι K V E) : Prop where
  waits  : ∀ i, ∀ key slot (wasPending : Bool), s.calls i = .wait key slot wasPending → wasPending
  joined : ∀ key value slot (wasPending : Bool),
    (key, .joined value slot wasPending) ∈ s.returned → wasPending

omit [DecidableEq ι] [DecidableEq K] in
theorem WerePending.of_eq (h : s.WerePending) (hc : s'.calls = s.calls)
    (hr : s'.returned = s.returned) : s'.WerePending where
  waits  := hc ▸ h.waits
  joined := hr ▸ h.joined

omit [DecidableEq K] in
theorem WerePending.goto (h : s.WerePending)
    (hp : ∀ key slot (wasPending : Bool), phase = .wait key slot wasPending → wasPending) :
    (s.goto i phase).WerePending where
  waits  := (Function.forall_update_iff s.calls fun _ p =>
    ∀ key slot (wasPending : Bool), p = .wait key slot wasPending → wasPending).mpr ⟨hp, fun j _ =>
      h.waits j⟩
  joined := h.joined

omit [DecidableEq K] in
theorem WerePending.ret (h : s.WerePending) {outcome : Outcome V E}
    (ho : ∀ value slot (wasPending : Bool), outcome = .joined value slot wasPending → wasPending) :
    (s.ret i key outcome).WerePending := by
  refine WerePending.goto ⟨h.waits, fun key' value slot wasPending hm => ?_⟩ nofun
  cases List.mem_append.mp hm
  case inl hm => exact h.joined key' value slot wasPending hm
  case inr hm =>
    cases List.mem_singleton.mp hm
    exact ho value slot wasPending rfl

theorem WerePending.lookup (h : s.WerePending) (hi : s.Inv cfg) {victim : Option (K × Nat)}
    (hc : ∀ e ∈ (s.shards (cfg.shardIndex key)).get? key, ∀ j, (s.calls j).completed ≠ some e.2)
    (hs : s.lookup cfg i key victim = some s') : s'.WerePending := by
  simp only [System.lookup] at hs
  split at hs
  case h_1 e hf =>
    cases hs
    refine WerePending.goto (h.of_eq rfl rfl) fun _ _ _ he => ?_
    cases he
    rw [hi.stateOf_of_find hf (hc e hf)]
  case h_2 hf =>
    obtain ⟨t, ht, hs⟩ := Option.map_eq_some_iff.mp hs
    subst hs
    obtain ⟨hcalls, hret⟩ : t.calls = s.calls ∧ t.returned = s.returned := by
      unfold makeRoom at ht
      split at ht
      case isFalse =>
        cases ht
        exact ⟨rfl, rfl⟩
      case isTrue =>
        obtain ⟨rfl, _⟩ | ⟨e, _, rfl⟩ := evict_cases ht <;> exact ⟨rfl, rfl⟩
    exact WerePending.goto (h.of_eq hcalls hret) (by rintro _ _ _ ⟨⟩)

theorem WerePending.step (h : s.WerePending) (hi : s.Inv cfg) {e : Event ι K V E}
    (hc : s.InFlight cfg e) (hs : s.step cfg e = some s') : s'.WerePending := by
  cases e <;> simp only [System.step] at hs
  case call i key =>
    split at hs <;> cases hs
    case h_1 => exact h.goto nofun
  case lookup i victim =>
    split at hs
    case h_1 key hp => exact h.lookup hi (hc key (by rw [hp]; rfl)) hs
    case h_2        => cases hs
  case run i result =>
    split at hs <;> cases hs
    case h_1 => exact WerePending.goto (h.of_eq rfl rfl) nofun
    case h_2 slot _ =>
      have hr : (s.dropRef slot).WerePending := h.of_eq rfl rfl
      refine hr.ret ?_
      cases result <;> nofun
  case complete i =>
    split at hs <;> cases hs
    case h_1 => exact WerePending.goto (h.of_eq rfl rfl) nofun
  case remove i =>
    split at hs <;> cases hs
    case h_1 key slot result hp =>
      have hr : ((s.removeOwn cfg key slot).dropRef slot).WerePending :=
        h.of_eq calls_removeOwn returned_removeOwn
      refine hr.ret ?_
      cases result <;> nofun
  case wake i =>
    split at hs
    case h_2 => cases hs
    case h_1 key slot wasPending hp =>
      split at hs <;> cases hs
      case h_1 =>
        have hr : (s.dropRef slot).WerePending := h.of_eq rfl rfl
        refine hr.ret fun _ _ _ he => ?_
        cases he
        exact h.waits i key slot wasPending hp
      case h_2 => exact h.goto nofun
  case timeout i =>
    split at hs
    case h_2 => cases hs
    case h_1 =>
      split at hs <;> cases hs
      case h_1 => exact h.goto nofun

omit [DecidableEq ι] [DecidableEq K] in
theorem Owned.drained (h : s.Owned) : s.Drained := by
  intro hidle shard
  refine List.eq_nil_iff_forall_not_mem.mpr fun e he => ?_
  have ⟨i, hi⟩ := h shard e he
  rw [hidle i] at hi
  cases hi

theorem run_singleflight {es : List (Event ι K V E)} (h : run (step cfg) init es = some s) :
    s.Owned ∧ s.Bounded cfg ∧ s.Drained ∧
    (Along (step cfg) (InFlight cfg) init es → s.JoinedInFlight) := by
  have hi : s.Inv cfg := Run.invariant (fun hi hs => hi.step hs) init_inv h
  refine ⟨hi.owned, hi.bounded, hi.owned.drained, fun hc => ?_⟩
  have hp : s.Inv cfg ∧ s.WerePending :=
    Run.invariant_along (I := fun s => s.Inv cfg ∧ s.WerePending)
      (fun hi hc hs => ⟨hi.left.step hs, hi.right.step hi.left hc hs⟩)
      ⟨init_inv, nofun, nofun⟩ hc h
  exact fun key value slot wasPending hm =>
    ⟨hp.right.joined key value slot wasPending hm, hi.joined key value slot wasPending hm⟩

-- One entry per shard, and all keys in one shard.
def oneEntry : Config Nat Unit where
  shardIndex         := fun _ => 0
  maxEntriesPerShard := 1
  display            := fun _ => ""

-- A leader is evicted, and a call joins the second leader for the same key.
def evictedLeader : List (Event (Fin 4) Nat Nat Unit) :=
  [.call 0 7, .lookup 0 none, .call 1 8, .lookup 1 (some (7, 0)), .run 1 (.panic none), .complete 1,
    .remove 1, .call 2 7, .lookup 2 none, .call 3 7, .lookup 3 none, .run 0 (.ok 1), .complete 0,
    .remove 0, .run 2 (.ok 2), .complete 2, .wake 3, .remove 2]

theorem run_singleflight_evicted : ∃ s, run (step oneEntry) init evictedLeader = some s ∧
    (7, .joined 2 2 true) ∈ s.returned ∧ s.Owned ∧ s.Bounded oneEntry ∧ s.Drained ∧
    s.JoinedInFlight := by
  have ⟨s, hs⟩ : ∃ s, run (step oneEntry) init evictedLeader = some s :=
    Option.isSome_iff_exists.mp (by decide +kernel)
  have hr : (run (step oneEntry) init evictedLeader).map (·.returned) =
      some [(8, .panic none), (7, .executed 1), (7, .joined 2 2 true), (7, .executed 2)] := by
    decide +kernel
  rw [hs] at hr
  have ⟨ho, hb, hd, hj⟩ := run_singleflight hs
  have hr : s.returned =
      [(8, .panic none), (7, .executed 1), (7, .joined 2 2 true), (7, .executed 2)] :=
    Option.some.inj hr
  exact ⟨s, hs, by simp [hr], ho, hb, hd, hj (by decide +kernel)⟩

-- A call looks up a slot after its leader has completed it, and before the leader has removed it.
def lateJoiner : List (Event Bool Nat Nat Unit) :=
  [.call true 7, .lookup true none, .run true (.ok 1), .complete true, .call false 7,
    .lookup false none, .wake false]

theorem not_joinedInFlight_late :
    ∃ s, run (step oneEntry) init lateJoiner = some s ∧ ¬s.JoinedInFlight := by
  have ⟨s, hs⟩ : ∃ s, run (step oneEntry) init lateJoiner = some s :=
    Option.isSome_iff_exists.mp (by decide +kernel)
  have hr : (run (step oneEntry) init lateJoiner).map (·.returned) =
      some [(7, .joined 1 0 false)] := by
    decide +kernel
  rw [hs] at hr
  refine ⟨s, hs, fun h => ?_⟩
  have hr : s.returned = [(7, .joined 1 0 false)] := Option.some.inj hr
  have ⟨hp, _⟩ := h 7 1 0 false (by simp [hr])
  cases hp

end System
end Coalesce
