import AgentMail.Cache.Theorems.Slot

open Inbox (InboxStatsRow)
open Pattern (Str)
open Search (eqIgnoreAsciiCase toAsciiLowercase)

namespace Cache

open ReadCache (insertAgentById insertAgentByKey)
open S3FifoCache Slot

variable {fp : Str → Nat} {cache : ReadCache} {scope scope' slug name : Str}
  {projectId agentId : Int} {now : Nat} {call : Call} {steps : List Step}

section Follows

-- Scopes with the same fingerprint as the one that is asked for are this one.
variable (hd : fp call.scope = fp scope → call.scope = scope)

include hd

section

variable {α κ : Type} [DecidableEq κ] {slot : Slot α} {column : α → κ}
  {index : S3FifoCache (Nat × κ) α} {key key' : κ} {baseTtl : Nat} {shouldMaintain : Bool}

-- An index with a column of the values as the key.
theorem follows_insert (values : List α)
    (hp : slot.puts call = values.filter fun value => call.scope = scope ∧ column value = key)
    (hv : ∀ value, ¬slot.voids call value) : slot.Follows now call (index.peek (fp scope, key))
      ((values.foldl (fun index value => index.insert (fp call.scope, column value)
        (.new value now)) index).peek
        (fp scope, key)) := by
  have hfp : fp call.scope = fp scope ↔ call.scope = scope := ⟨hd, congrArg fp⟩
  refine follows_put values hp hv fun index value => ?_
  rw [peek_insert]
  simp only [Prod.mk.injEq, hfp, decide_eq_true_eq]

theorem follows_get (hp : slot.puts call = []) (hv : ∀ value, ¬slot.voids call value)
    (hr : shouldMaintain → call.scope = scope → key' = key → slot.refreshes call) :
    slot.Follows now call (index.peek (fp scope, key))
      ((index.lookup baseTtl shouldMaintain now (fp call.scope, key')).2.peek (fp scope, key)) := by
  refine follows_lookup hp hv fun hm hk => ?_
  obtain ⟨hs, hk⟩ := Prod.mk.inj hk
  exact hr hm (hd hs) hk

end

theorem follows_projectsBySlug : (projectsBySlug scope slug).Follows now call
    (cache.projectsBySlug.peek (fp scope, slug))
      ((cache.exec fp now call).projectsBySlug.peek (fp scope, slug)) := by
  cases call
  case putProject scope' project    => exact follows_insert hd [project] rfl fun _ h => h
  case warmProjects scope' projects => exact follows_insert hd projects rfl fun _ h => h
  case getProject scope' slug'      =>
    exact follows_get hd rfl (fun _ h => h) fun _ hs hk => congrArg₂ Call.getProject hs hk
  all_goals exact follows_self rfl fun _ h => h

theorem follows_projectsByHumanKey : (projectsByHumanKey scope slug).Follows now call
    (cache.projectsByHumanKey.peek (fp scope, slug))
      ((cache.exec fp now call).projectsByHumanKey.peek (fp scope, slug)) := by
  cases call
  case putProject scope' project                 => exact follows_insert hd [project] rfl fun _ h =>
    h
  case warmProjects scope' projects              => exact follows_insert hd projects rfl fun _ h =>
    h
  case getProjectByHumanKey scope' humanKey =>
    exact follows_get hd rfl (fun _ h => h) fun _ hs hk => congrArg₂ Call.getProjectByHumanKey hs hk
  all_goals exact follows_self rfl fun _ h => h

theorem follows_agentsByKey : (agentsByKey scope projectId name).Follows now call
    (cache.agentsByKey.peek (fp scope, projectId, toAsciiLowercase name))
    ((cache.exec fp now call).agentsByKey.peek (fp scope, projectId, toAsciiLowercase name)) := by
  have hfp : fp call.scope = fp scope ↔ call.scope = scope := ⟨hd, congrArg fp⟩
  have hkey (index : S3FifoCache (Nat × Int × Str) AgentRow) (agent : AgentRow) :
      (insertAgentByKey (fp call.scope) now index agent).peek
        (fp scope, projectId, toAsciiLowercase name) =
        if decide (call.scope = scope ∧ isNamed projectId name agent) then some (.new agent now)
        else index.peek (fp scope, projectId, toAsciiLowercase name) := by
    rw [insertAgentByKey, peek_insert]
    simp only [Prod.mk.injEq, hfp, decide_eq_true_eq, isNamed, eqIgnoreAsciiCase]
  have hget {scope' name' : Str} {projectId' : Int} (hs : scope' = call.scope) :
      (fp scope', projectId', toAsciiLowercase name') =
        (fp scope, projectId, toAsciiLowercase name) ↔
        scope' = scope ∧ projectId' = projectId ∧ eqIgnoreAsciiCase name' name := by
    subst hs
    simp only [Prod.mk.injEq, hfp, eqIgnoreAsciiCase, decide_eq_true_eq]
  cases call
  case putAgent scope' agent    => exact follows_put [agent] rfl (fun _ h => h) hkey
  case warmAgents scope' agents => exact follows_put agents rfl (fun _ h => h) hkey
  case getAgent scope' projectId' name' => exact follows_lookup rfl (fun _ h => h) fun _ =>
    (hget rfl).mp
  case invalidateAgent scope' projectId' name' id =>
    refine follows_of_subset rfl fun entry' he => ?_
    obtain ⟨hn, he⟩ := peek_remove_eq_some.mp he
    exact ⟨he, fun hv => hn ((hget rfl).mpr hv).symm⟩
  all_goals exact follows_self rfl fun _ h => h

theorem follows_agentsById : (agentsById scope agentId).Follows now call
    (cache.agentsById.peek (fp scope, agentId))
      ((cache.exec fp now call).agentsById.peek (fp scope, agentId)) := by
  have hfp : fp call.scope = fp scope ↔ call.scope = scope := ⟨hd, congrArg fp⟩
  have hkey (index : S3FifoCache (Nat × Int) AgentRow) (agent : AgentRow) :
      (insertAgentById (fp call.scope) now index agent).peek (fp scope, agentId) =
        if decide (call.scope = scope ∧ agent.id = some agentId) then some (.new agent now)
        else index.peek (fp scope, agentId) := by
    rw [insertAgentById]
    cases agent.id
    case none => simp
    case some id =>
      dsimp only
      rw [peek_insert]
      simp only [Prod.mk.injEq, hfp, decide_eq_true_eq, Option.some_inj]
  cases call
  case putAgent scope' agent    => exact follows_put [agent] rfl (fun _ h => h) hkey
  case warmAgents scope' agents => exact follows_put agents rfl (fun _ h => h) hkey
  case getAgentById scope' agentId' =>
    refine follows_lookup rfl (fun _ h => h) fun _ h => ?_
    obtain ⟨hs, rfl⟩ := Prod.mk.inj h
    obtain rfl := hfp.mp hs
    rfl
  case invalidateAgent scope' projectId name id =>
    refine follows_of_subset rfl fun entry' he => ?_
    have he : peek (List.foldl _ cache.agentsById _) (fp scope, agentId) = some entry' := he
    rw [← List.foldl_map, peek_foldl_remove_eq_some] at he
    refine ⟨he.right, fun hv => he.left ?_⟩
    obtain ⟨rfl, hv⟩ := hv
    refine List.mem_map_of_mem (List.mem_append.mpr ?_)
    rcases hv with rfl | ⟨rfl, hnamed⟩
    · exact .inl (List.mem_singleton_self _)
    · refine .inr (List.mem_filterMap.mpr ⟨_, mem_of_peek he.right, ?_⟩)
      have hnamed := of_decide_eq_true hnamed
      dsimp only
      rw [if_neg (not_not.mpr rfl), he.right, Option.bind_some, if_pos hnamed]
  all_goals exact follows_self rfl fun _ h => h

theorem follows_inboxStats : (inboxStats scope agentId).Follows now call
    (cache.inboxStats.peek (fp scope, agentId))
      ((cache.exec fp now call).inboxStats.peek (fp scope, agentId)) := by
  cases call
  case putInboxStats scope' stats    => exact follows_insert hd [stats] rfl fun _ h => h
  case getInboxStats scope' agentId' =>
    exact follows_get hd rfl (fun _ h => h) fun hm => absurd hm Bool.false_ne_true
  case invalidateInboxStats scope' agentId' =>
    refine follows_of_subset rfl fun entry' he => ?_
    obtain ⟨hn, he⟩ := peek_remove_eq_some.mp he
    refine ⟨he, fun hv => hn ?_⟩
    obtain ⟨rfl, rfl⟩ := hv
    rfl
  case invalidateAllInboxStats scope' =>
    refine follows_of_subset rfl fun entry' he => ?_
    obtain ⟨hn, he⟩ := peek_foldl_remove_eq_some.mp he
    refine ⟨he, fun hv => hn (List.mem_filter.mpr ⟨List.mem_map_of_mem (mem_of_peek he), ?_⟩)⟩
    obtain rfl := hv
    exact decide_eq_true rfl
  all_goals exact follows_self rfl fun _ h => h

end Follows

section After

variable {α : Type} {slot : Slot α} {entry : CacheEntry α} {value : α} {limit : Nat}

theorem holds_after (peekOf : ReadCache → Option (CacheEntry α)) (hnew : peekOf .new = none)
    (hlose : ∀ cache loss, ∀ entry ∈ peekOf (cache.lose loss), entry ∈ peekOf cache)
    (hcall : ∀ now call, .call now call ∈ steps → ∀ cache,
      slot.Follows now call (peekOf cache) (peekOf (cache.exec fp now call))) :
    ∀ entry ∈ peekOf (.after fp steps), slot.Holds steps entry := by
  induction steps using List.reverseRecOn
  case nil =>
    intro entry he
    rw [show peekOf (.after fp []) = none from hnew] at he
    cases he
  case append_singleton steps step hi =>
    have hi := hi fun now call hm => hcall now call (List.mem_append_left _ hm)
    have ha : ReadCache.after fp (steps ++ [step]) = (ReadCache.after fp steps).step fp step := by
      rw [ReadCache.after, List.foldl_append]
      rfl
    rw [ha]
    cases step
    case lose loss     => exact fun entry he => holds_lose (hi entry (hlose _ loss entry he))
    case call now call =>
      exact holds_call hi (hcall now call (List.mem_append_right _ (List.mem_singleton_self _)) _)

theorem Slot.Holds.usedWithin (h : slot.Holds steps entry) (hl : now ≤ entry.lastAccessed + limit) :
    slot.UsedWithin limit steps now entry.value := by
  have ⟨t, later, hlt, ht⟩ := h
  refine ⟨t, later, hlt, entry.lastAccessed, ht, hl⟩

-- What a lookup finds under a key, by what the steps leave in the index.
theorem usedWithin_lookup {κ : Type} [DecidableEq κ] (index : ReadCache → S3FifoCache κ α) {key : κ}
    {baseTtl : Nat} {shouldMaintain : Bool} (hnew : (index .new).peek key = none)
    (hlose : ∀ cache loss, ∃ lost : κ →
      Bool, index (cache.lose loss) = (index cache).delete (lost ·.1))
    (hcall : ∀ now call, .call now call ∈ steps → ∀ cache,
      slot.Follows now call ((index cache).peek key) ((index (cache.exec fp now call)).peek key))
    (h : ((index (.after fp steps)).lookup baseTtl shouldMaintain now key).1 = some value) :
    slot.UsedWithin (2 * baseTtl) steps now value := by
  obtain ⟨entry, he, rfl, hl⟩ := value_lookup h
  refine (holds_after (fun cache => (index cache).peek key) hnew (fun cache loss entry he =>
    ?_) hcall entry he).usedWithin hl
  obtain ⟨lost, hi⟩ := hlose cache loss
  rw [hi, peek_delete] at he
  split at he
  case isTrue  => cases he
  case isFalse => exact he

end After

section Answers

variable {scopes : Set Str}

-- Without refreshes, an entry is as old as its value.
theorem Slot.UsedWithin.putWithin {α : Type} {slot : Slot α} {value : α} {limit : Nat}
    (hr : ∀ call, ¬slot.refreshes call) (h : slot.UsedWithin limit steps now value) :
    slot.PutWithin limit steps now value := by
  have ⟨t, later, hl, t', ht', hn⟩ := h
  rcases ht' with rfl | ⟨call, _, hc⟩
  · exact ⟨t', later, hl, hn⟩
  · exact absurd hc (hr call)

-- An invalidated value that is held again was put in between.
theorem Slot.UsedWithin.put_again {α : Type} {slot : Slot α} {value : α} {limit t : Nat}
    {earlier later : List Step} (h : slot.UsedWithin limit steps now value)
    (hs : steps = earlier ++ .call t call :: later) (hp : slot.puts call = [])
    (hv : slot.voids call value) :
    ∃ t' call', .call t' call' ∈ later ∧ value ∈ slot.puts call' := by
  have ⟨t', later', hl, _⟩ := h
  have ⟨earlier', call', hs', hp'⟩ := hl.put
  have hm : value ∈ slot.puts call' := List.mem_of_getLast? hp'
  rw [hs] at hs'
  rcases List.append_eq_append_iff.mp hs' with ⟨between, _, hb⟩ | ⟨between, _, hb⟩
  case inl =>
    cases between
    case nil =>
      obtain ⟨hc, _⟩ := List.cons.inj hb
      obtain ⟨_, rfl⟩ := Step.call.inj hc
      rw [hp] at hm
      cases hm
    case cons =>
      obtain ⟨_, rfl⟩ := List.cons.inj hb
      exact ⟨t', call', List.mem_append_right _ (List.mem_cons_self ..), hm⟩
  case inr =>
    -- The invalidation would be among the steps after the put.
    refine absurd hv (hl.current t call ?_).right
    cases between
    case nil =>
      obtain ⟨hc, _⟩ := List.cons.inj hb
      obtain ⟨_, rfl⟩ := Step.call.inj hc
      rw [hp] at hm
      cases hm
    case cons =>
      obtain ⟨_, rfl⟩ := List.cons.inj hb
      exact List.mem_append_right _ (List.mem_cons_self ..)

theorem mem_agents_of_mem_filter {agent : AgentRow} {agents : List AgentRow} {p : AgentRow → Prop}
    [DecidablePred p] (h : agent ∈ agents.filter fun agent => decide (scope' = scope ∧ p agent)) :
    agent ∈ if scope' = scope then agents else [] := by
  have ⟨hm, hp⟩ := List.mem_filter.mp h
  rw [if_pos (of_decide_eq_true hp).left]
  exact hm

theorem mem_agents_of_agentsByKey {agent : AgentRow}
    (h : agent ∈ (agentsByKey scope projectId name).puts call) : agent ∈ call.agents scope := by
  cases call
  case putAgent scope' agent'   =>
    exact mem_agents_of_mem_filter (p := fun agent => isNamed projectId name agent) h
  case warmAgents scope' agents => exact mem_agents_of_mem_filter h
  all_goals exact absurd h List.not_mem_nil

theorem mem_agents_of_agentsById {agent : AgentRow}
    (h : agent ∈ (agentsById scope agentId).puts call) : agent ∈ call.agents scope := by
  cases call
  case putAgent scope' agent'   =>
    exact mem_agents_of_mem_filter (p := fun agent => agent.id = some agentId) h
  case warmAgents scope' agents => exact mem_agents_of_mem_filter h
  all_goals exact absurd h List.not_mem_nil

variable (hd : scopes.InjOn fp) (hs : ∀ now call, .call now call ∈ steps → call.scope ∈ scopes)

include hd hs

theorem scope_eq (hm : scope ∈ scopes) {t : Nat} (hc : .call t call ∈ steps)
    (h : fp call.scope = fp scope) : call.scope = scope :=
  hd (hs t call hc) hm h

theorem usedWithin_agentsByKey {value : AgentRow} (hm : scope ∈ scopes)
    (h : ((ReadCache.after fp steps).getAgentScoped fp scope projectId name now).1 = some value) :
    (agentsByKey scope projectId name).UsedWithin (2 * agentTtl) steps now value :=
  usedWithin_lookup (·.agentsByKey) rfl (fun _ loss => ⟨loss.agentsByKey, rfl⟩)
    (fun _ _ hc _ => follows_agentsByKey (scope_eq hd hs hm hc)) h

theorem usedWithin_agentsById {value : AgentRow} (hm : scope ∈ scopes)
    (h : ((ReadCache.after fp steps).getAgentByIdScoped fp scope agentId now).1 = some value) :
    (agentsById scope agentId).UsedWithin (2 * agentTtl) steps now value :=
  usedWithin_lookup (·.agentsById) rfl (fun _ loss => ⟨loss.agentsById, rfl⟩)
    (fun _ _ hc _ => follows_agentsById (scope_eq hd hs hm hc)) h

theorem answers_usedWithin : Answers Slot.UsedWithin fp scopes steps now where
  projectsBySlug scope hm slug value h :=
    usedWithin_lookup (·.projectsBySlug) rfl (fun _ loss => ⟨loss.projectsBySlug, rfl⟩)
      (fun _ _ hc _ => follows_projectsBySlug (scope_eq hd hs hm hc)) h
  projectsByHumanKey scope hm humanKey value h :=
    usedWithin_lookup (·.projectsByHumanKey) rfl (fun _ loss => ⟨loss.projectsByHumanKey, rfl⟩)
      (fun _ _ hc _ => follows_projectsByHumanKey (scope_eq hd hs hm hc)) h
  agentsByKey scope hm projectId name value h := usedWithin_agentsByKey hd hs hm h
  agentsById scope hm agentId value h         := usedWithin_agentsById hd hs hm h
  inboxStats scope hm agentId value h :=
    Slot.UsedWithin.putWithin (fun _ => id) <|
      usedWithin_lookup (·.inboxStats) rfl (fun _ loss => ⟨loss.inboxStats, rfl⟩)
        (fun _ _ hc _ => follows_inboxStats (scope_eq hd hs hm hc)) h
  invalidated scope hm earlier t projectId name id later heq := by
    constructor
    case left =>
      intro name' value hn h
      have hu := usedWithin_agentsByKey hd hs hm h
      have hn : eqIgnoreAsciiCase name name' := by simpa [eqIgnoreAsciiCase, eq_comm] using hn
      have ⟨t', call, hc, hp⟩ := hu.put_again heq rfl ⟨rfl, rfl, hn⟩
      exact ⟨t', call, hc, mem_agents_of_agentsByKey hp⟩
    case right =>
      intro agentId value hid hn h
      have hu := usedWithin_agentsById hd hs hm h
      have ⟨t', call, hc, hp⟩ := hu.put_again heq rfl ⟨rfl, hid.symm.imp_right (⟨·, hn⟩)⟩
      exact ⟨t', call, hc, mem_agents_of_agentsById hp⟩

end Answers

-- A project that is read now and then, for a quarter of an hour.
def polled : List Step :=
  .call 0 (.putProject [] ⟨some 1, [], [], 0⟩) ::
    (List.replicate 4 (.call (seconds 299) (.getProject [] [])) ++
      List.replicate 4 (.call (seconds 598) (.getProject [] [])))

theorem scope_of_mem_polled (h : .call now call ∈ polled) : call.scope ∈ ({[]} : Set Str) := by
  simp only [polled, List.mem_cons, List.mem_append, List.mem_replicate, Step.call.injEq] at h
  rcases h with ⟨_, rfl⟩ | ⟨_, _, rfl⟩ | ⟨_, _, rfl⟩ <;> rfl

theorem clocked_polled : Clocked polled := by
  rw [Clocked]
  decide

theorem answers_usedWithin_polled :
    Answers Slot.UsedWithin (fun _ => 0) {[]} polled (seconds 897) :=
  answers_usedWithin (Set.injOn_singleton _ _) fun _ _ => scope_of_mem_polled

-- The reads keep the project in the cache for longer than twice the TTL.
theorem not_answers_putWithin :
    ¬∀ (fp : Str → Nat) (scopes : Set Str) (steps : List Step) (now : Nat), scopes.InjOn fp →
      (∀ now call, .call now call ∈ steps → call.scope ∈ scopes) → Clocked steps →
      (∀ t ∈ steps.filterMap Step.time?, t ≤ now) → Answers Slot.PutWithin fp scopes steps now := by
  intro h
  have ha := h (fun _ => 0) {[]} polled (seconds 897) (Set.injOn_singleton _ _)
    (fun _ _ => scope_of_mem_polled)
    clocked_polled (by decide)
  have ⟨t, later, hl, hn⟩ := ha.projectsBySlug [] rfl [] ⟨some 1, [], [], 0⟩ (by decide)
  have ⟨earlier, call, hs, hp⟩ := hl.put
  have hm : .call t call ∈ polled := hs ▸ List.mem_append_right _ (List.mem_cons_self ..)
  simp only [polled, List.mem_cons, List.mem_append, List.mem_replicate, Step.call.injEq] at hm
  rcases hm with ⟨rfl, rfl⟩ | ⟨_, _, rfl⟩ | ⟨_, _, rfl⟩
  · exact absurd hn (by decide)
  · cases hp
  · cases hp

end Cache
