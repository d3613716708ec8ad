import AgentMail.CommitTree.Basic

open Pattern (Str)

namespace CommitTree

variable {β : Type}

theorem components_ne_nil {path : Str} : components path ≠ [] := by
  simp [components]

theorem components_of_none {path : Str} (h : splitSlash path = none) :
    components path = [path] := by
  induction path
  case nil => rfl
  case cons c cs hi =>
    rw [splitSlash] at h
    split at h
    case isTrue => contradiction
    case isFalse hc =>
      have hi := hi (Option.map_eq_none_iff.mp h)
      rw [components] at hi ⊢
      simp [List.splitOn_cons_eq_if_modifyHead, hc, hi]

theorem components_of_some {path name rest : Str} (h : splitSlash path = some (name, rest)) :
    components path = name :: components rest := by
  induction path generalizing name rest
  case nil => simp [splitSlash] at h
  case cons c cs hi =>
    rw [splitSlash] at h
    split at h
    case isTrue hc =>
      injection h with h
      injection h with hn hr
      simp [components, List.splitOn_cons_eq_if_modifyHead, hc, ← hn, ← hr]
    case isFalse hc =>
      obtain ⟨⟨n, r⟩, hp, he⟩ := Option.map_eq_some_iff.mp h
      injection he with hn hr
      have hi := hi hp
      rw [components] at hi ⊢
      simp [List.splitOn_cons_eq_if_modifyHead, hc, hi, ← hn, ← hr, components]

section Updates

variable {ups : List (List Str × Option β)} {path : List Str}

theorem lastUpdate_eq_none_iff : lastUpdate ups path = none ↔ ∀ u ∈ ups, u.1 ≠ path := by
  induction ups
  case nil => simp [lastUpdate]
  case cons u us hi =>
    rw [lastUpdate, List.forall_mem_cons, ← hi, Option.or_eq_none_iff]
    simp [and_comm]

theorem mem_of_lastUpdate {o : Option β} (h : lastUpdate ups path = some o) : (path, o) ∈ ups := by
  induction ups
  case nil => contradiction
  case cons u us hi =>
    rw [lastUpdate] at h
    cases hl : lastUpdate us path
    case some =>
      rw [hl] at h
      exact List.mem_cons_of_mem _ (hi (hl.trans h))
    case none =>
      rw [hl, Option.none_or] at h
      split at h
      case isTrue hp =>
        injection h with h
        exact hp ▸ h ▸ List.mem_cons_self
      case isFalse => contradiction

theorem ne_nil_of_mem_parsed {updates : List (Update β)} {u : List Str × Option β}
    (h : u ∈ parsed updates) : u.1 ≠ [] := by
  have ⟨_, _, he⟩ := List.mem_map.mp h
  exact he ▸ components_ne_nil

theorem below_eq_some {name : Str} {u u' : Update β} (h : below name u = some u') :
    ∃ rest, splitSlash u.1 = some (name, rest) ∧ u' = (rest, u.2) := by
  rw [below] at h
  split at h
  case h_1 n rest hs =>
    split at h
    case isTrue hn => exact ⟨rest, hn ▸ hs, (Option.some.inj h).symm⟩
    case isFalse => contradiction
  case h_2 => contradiction

theorem mem_parsed_below {updates : List (Update β)} {name : Str} {p : List Str} {o : Option β} :
    (p, o) ∈ parsed (updates.filterMap <| below name) ↔ (name :: p, o) ∈ parsed updates ∧
      p ≠ [] := by
  simp only [parsed, List.mem_map, List.mem_filterMap, Prod.mk.injEq]
  constructor
  case mp =>
    intro ⟨u', ⟨u, hu, hb⟩, hp, ho⟩
    have ⟨rest, hs, he⟩ := below_eq_some hb
    subst he
    exact ⟨⟨u, hu, by rw [components_of_some hs, hp], ho⟩, hp ▸ components_ne_nil⟩
  case mpr =>
    intro ⟨⟨u, hu, hp, ho⟩, hn⟩
    cases hs : splitSlash u.1
    case none =>
      rw [components_of_none hs] at hp
      injection hp with _ hp
      exact absurd hp.symm hn
    case some s =>
      rw [components_of_some hs] at hp
      injection hp with hs' hp
      exact ⟨(s.2, u.2), ⟨u, hu, by simp [below, hs, hs']⟩, hp, ho⟩

theorem lastUpdate_below {updates : List (Update β)} {name : Str} (h : path ≠ []) :
    lastUpdate (parsed <| updates.filterMap <| below name) path = lastUpdate (parsed updates)
      (name :: path) := by
  induction updates
  case nil => rfl
  case cons u us hi =>
    simp only [parsed, List.map_cons, lastUpdate, List.filterMap_cons, below] at hi ⊢
    cases hs : splitSlash u.1
    case none => simpa [components_of_none hs, h, Ne.symm h] using hi
    case some s =>
      by_cases hn : s.1 = name
      case pos =>
        simpa [components_of_some hs, hn,
          lastUpdate] using congrArg (·.or (if components s.2 = path then some u.2 else none)) hi
      case neg => simpa [components_of_some hs, hn] using hi

end Updates

section Tree

variable {t : Tree β} {name : Str}

theorem lookup_filter_ne {n : Str} :
    (t.filter (·.1 ≠ n)).lookup name = if name = n then none else t.lookup name := by
  induction t
  case nil => simp
  case cons e es hi =>
    have ⟨k, v⟩ := e
    rw [List.filter_cons, List.lookup_cons]
    by_cases hk : k = n
    case pos =>
      by_cases hn : name = n
      case pos => simpa [hk, hn] using hi
      case neg => simpa [hk, hn, beq_eq_false_iff_ne.mpr hn] using hi
    case neg =>
      cases hn : name == k
      case true  => simp [hk, eq_of_beq hn]
      case false => simpa [hk, List.lookup_cons, hn] using hi

theorem lookup_insert {n : Str} {e : Entry β} : (t.insert n e).lookup name = if name = n then some e
    else t.lookup name := by
  by_cases hn : name = n
  case pos => simp [Tree.insert, hn]
  case neg =>
    rw [Tree.insert, List.lookup_cons, beq_eq_false_iff_ne.mpr hn, lookup_filter_ne]
    simp [hn]

theorem lookup_remove {n : Str} : (t.remove n).lookup name = if name = n then none
    else t.lookup name :=
  lookup_filter_ne

-- What the direct entries leave under a name.
theorem lookup_applyDirect {updates : List (Update β)} :
    ((directEntries updates).foldl applyDirect t).lookup name =
      match lastUpdate (parsed updates) [name] with
      | some (some oid) => some (.blob oid)
      | some none       => none
      | none            => t.lookup name := by
  rw [directEntries, parsed]
  induction updates generalizing t
  case nil => rfl
  case cons u us hi =>
    rw [List.filter_cons, List.map_cons, lastUpdate]
    cases hs : splitSlash u.1
    case some s =>
      have hn : components u.1 ≠ [name] := by
        rw [components_of_some hs]
        exact fun h => components_ne_nil (List.cons.inj h).right
      simpa [hn] using hi
    case none =>
      simp only [Option.isNone_none, if_true, List.foldl_cons, hi, components_of_none hs]
      cases lastUpdate (us.map fun u => (components u.1, u.2)) [name]
      case some o => cases o <;> rfl
      case none =>
        by_cases hn : u.1 = name
        case pos => cases ho : u.2 <;> simp [applyDirect, ho, lookup_insert, lookup_remove, hn]
        case neg =>
          cases ho : u.2 <;> simp [applyDirect, ho, lookup_insert, lookup_remove, hn, Ne.symm hn]

end Tree

section Build

variable {order : HashOrder (Str × List (Update β))} {base : Option (Tree β)}
  {updates : List (Update β)} {name : Str}

theorem lookup_foldl_insert {α : Type} {groups : List (Str × α)} {t : Tree β}
    {f : Str × α → Entry β} {e : Entry β} (h : ∀ g ∈ groups, g.1 = name → f g = e) :
    (groups.foldl (fun t g => t.insert g.1 (f g)) t).lookup name =
      if ∃ g ∈ groups, g.1 = name then some e else t.lookup name := by
  induction groups generalizing t
  case nil => simp
  case cons g gs hi =>
    have ⟨hg, hgs⟩ := List.forall_mem_cons.mp h
    rw [List.foldl_cons, hi hgs, lookup_insert]
    by_cases hn : g.1 = name
    case pos => simp [hn, hg hn]
    case neg =>
      have he : (∃ g' ∈ g :: gs, g'.1 = name) ↔ ∃ g' ∈ gs, g'.1 = name := by simp [hn]
      simp only [he, Ne.symm hn, if_false]

theorem buildTreeWithUpdates_eq :
    buildTreeWithUpdates order base updates =
      (order.iter (byPrefix updates).entries).foldl (fun t group =>
        t.insert group.1 (.tree <|
          buildTreeWithUpdates order (base.bind (·.subTree? group.1)) group.2))
        ((directEntries updates).foldl applyDirect (base.getD [])) := by
  rw [buildTreeWithUpdates]
  exact List.foldl_attach (f := fun (t : Tree β) (group : Str × List (Update β)) =>
    t.insert group.1 (.tree <| buildTreeWithUpdates order (base.bind (·.subTree? group.1)) group.2))

theorem lookup_build :
    (buildTreeWithUpdates order base updates).lookup name =
      let sub := updates.filterMap (below name)
      if sub ≠ [] then
        some (.tree <| buildTreeWithUpdates order (base.bind (·.subTree? name)) sub)
      else
        match lastUpdate (parsed updates) [name] with
        | some (some oid) => some (.blob oid)
        | some none       => none
        | none            => (base.getD []).lookup name := by
  have hm (group : Str × List (Update β)) : group ∈ order.iter (byPrefix updates).entries ↔
      group.2 = updates.filterMap (below group.1) ∧ group.2 ≠ [] :=
    (order.perm _).mem_iff.trans byPrefix_entries
  have hg : ∀ group ∈ order.iter (byPrefix updates).entries, group.1 = name →
      Entry.tree (buildTreeWithUpdates order (base.bind (·.subTree? group.1)) group.2) =
        .tree (buildTreeWithUpdates order (base.bind (·.subTree? name)) (updates.filterMap <|
          below name)) := by
    intro group hg hn
    rw [((hm group).mp hg).left, hn]
  rw [buildTreeWithUpdates_eq, lookup_foldl_insert hg, lookup_applyDirect]
  have he : (∃ g ∈ order.iter (byPrefix updates).entries, g.1 = name) ↔
      updates.filterMap (below name) ≠ [] := by
    constructor
    case mp =>
      intro ⟨g, hg, hn⟩
      have ⟨hs, hne⟩ := (hm g).mp hg
      rwa [hs, hn] at hne
    case mpr => exact fun h => ⟨(name, _), (hm _).mpr ⟨rfl, h⟩, rfl⟩
  simp only [he]

end Build

end CommitTree
