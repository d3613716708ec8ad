import AgentMail.CommitTree.Theorems.Basic

open Pattern (Str)

namespace CommitTree

variable {β : Type} {ups : List (List Str × Option β)} {path : List Str}

-- What the updates leave in place of `base`, which is what the base tree has at the path.
def place (ups : List (List Str × Option β)) (base : Option (Kind β)) (path : List Str) :
    Option (Kind β) :=
  match lastUpdate ups path with
  | some (some oid) => some (.file oid)
  | some none       => none
  | none            =>
    if ∃ u ∈ ups, path <+: u.1 then
      some .dir
    else if ∃ u ∈ ups, u.1 <+: path then
      none
    else
      base

theorem place_above {base : Option (Kind β)} {u : List Str × Option β}
    (hn : lastUpdate ups path = none) (hu : u ∈ ups) (h : path <+: u.1) :
    place ups base path = some .dir := by
  have h : ∃ u ∈ ups, path <+: u.1 := ⟨u, hu, h⟩
  simp only [place, hn, h, if_true]

theorem lastUpdate_eq_none_of_related (hp : NoPrefix ups) {u : List Str × Option β} (hu : u ∈ ups)
    (h : path <+: u.1 ∨ u.1 <+: path) (hne : path ≠ u.1) : lastUpdate ups path = none := by
  refine lastUpdate_eq_none_iff.mpr fun u' hu' he => ?_
  cases h
  case inl h => exact hne (he.symm.trans (hp u' hu' u hu (he ▸ h)))
  case inr h => exact hne (he.symm.trans (hp u hu u' hu' (he ▸ h)).symm)

theorem place_below {base : Option (Kind β)} (hp : NoPrefix ups) {u : List Str × Option β}
    (hu : u ∈ ups) (h : u.1 <+: path) (hne : path ≠ u.1) : place ups base path = none := by
  have hl := lastUpdate_eq_none_of_related hp hu (.inr h) hne
  have ha : ¬∃ u' ∈ ups, path <+: u'.1 := by
    intro ⟨u', hu', h'⟩
    have he := hp u hu u' hu' (h.trans h')
    exact hne (h'.eq_of_length_le (he ▸ h.length_le) |>.trans he.symm)
  have hb : ∃ u ∈ ups, u.1 <+: path := ⟨u, hu, h⟩
  simp only [place, hl, ha, hb, if_false, if_true]

theorem place_unrelated {base : Option (Kind β)} (ha : ∀ u ∈ ups, ¬path <+: u.1)
    (hb : ∀ u ∈ ups, ¬u.1 <+: path) : place ups base path = base := by
  have hl : lastUpdate ups path = none := lastUpdate_eq_none_iff.mpr fun u hu he =>
    ha u hu (he ▸ List.prefix_rfl)
  have ha : ¬∃ u ∈ ups, path <+: u.1 := fun ⟨u, hu, h⟩ => ha u hu h
  have hb : ¬∃ u ∈ ups, u.1 <+: path := fun ⟨u, hu, h⟩ => hb u hu h
  simp only [place, hl, ha, hb, if_false]

inductive Placed (ups : List (List Str × Option β)) (path : List Str) (base : Option (Kind β)) :
    Option (Kind β) → Prop
  | file (oid : β) : lastUpdate ups path = some (some oid) →
      Placed ups path base (some <| .file oid)
  | deleted        : lastUpdate ups path = some none → Placed ups path base none
  | above          : lastUpdate ups path = none → AboveUpdate ups path →
      Placed ups path base (some .dir)
  | below {u}      : lastUpdate ups path = none → u ∈ ups → u.1 <+: path → path ≠ u.1 →
      Placed ups path base none
  | unrelated {k}  : (∀ u ∈ ups, ¬path <+: u.1) → ¬AtOrBelowUpdate ups path → base = k →
      Placed ups path base k

theorem placed {base : Option (Kind β)} : Placed ups path base (place ups base path) := by
  rw [place]
  cases hl : lastUpdate ups path
  case some o =>
    cases o
    case some oid => exact .file oid hl
    case none     => exact .deleted hl
  case none =>
    have hne := lastUpdate_eq_none_iff.mp hl
    by_cases ha : ∃ u ∈ ups, path <+: u.1
    case pos =>
      have ⟨u, hu, hpre⟩ := ha
      simp only [ha, if_true]
      exact .above hl ⟨u, hu, hpre, (hne u hu).symm⟩
    case neg =>
      by_cases hb : ∃ u ∈ ups, u.1 <+: path
      case pos =>
        have ⟨u, hu, hpre⟩ := hb
        simp only [ha, hb, if_false, if_true]
        exact .below hl hu hpre (hne u hu).symm
      case neg =>
        simp only [ha, hb, if_false]
        exact .unrelated (fun u hu hpre => ha ⟨u, hu, hpre⟩) hb rfl

section KindAt

variable {t : Tree β} {name : Str} {base : Option (Tree β)}

theorem kindAt_cons :
    (Entry.tree t).kindAt (name :: path) = (t.lookup name).bind (·.kindAt path) := by
  rw [Entry.kindAt, Entry.find, Option.map_bind]
  rfl

theorem kindAt_blob {oid : β} (h : path ≠ []) : (Entry.blob oid).kindAt path = none := by
  cases path
  case nil  => contradiction
  case cons => rfl

theorem kindAt_empty (h : path ≠ []) : (Entry.tree (β := β) []).kindAt path = none := by
  cases path
  case nil  => contradiction
  case cons => rfl

theorem kindAt_subTree (h : path ≠ []) :
    (root (base.bind (·.subTree? name))).kindAt path = (root base).kindAt (name :: path) := by
  cases base
  case none => simp [root, kindAt_cons, kindAt_empty h]
  case some t =>
    rw [root, root, kindAt_cons, Option.bind_some, Tree.subTree?, Option.getD_some]
    cases hl : t.lookup name
    case some e =>
      cases e
      case tree => rfl
      case blob => rw [Option.bind_some, kindAt_blob h, Option.getD_none, kindAt_empty h]
    case none => rw [Option.bind_none, Option.getD_none, kindAt_empty h]

end KindAt

theorem noPrefix_below {updates : List (Update β)} {name : Str} (hp : NoPrefix (parsed updates)) :
    NoPrefix (parsed <| updates.filterMap <| below name) := by
  intro u hu u' hu' h
  have h := hp _ (mem_parsed_below.mp hu).left _ (mem_parsed_below.mp hu').left
    (List.cons_prefix_cons.mpr ⟨rfl, h⟩)
  exact (List.cons.inj h).right

theorem filterMap_below_ne_nil_iff {updates : List (Update β)} {name : Str} :
    updates.filterMap (below name) ≠ [] ↔ ∃ p o, (name :: p, o) ∈ parsed updates ∧ p ≠ [] := by
  constructor
  case mp =>
    intro hs
    have ⟨u, hu⟩ := List.exists_mem_of_ne_nil _ hs
    exact ⟨_, _, mem_parsed_below.mp (List.mem_map_of_mem (f := fun u => (components u.1, u.2)) hu)⟩
  case mpr =>
    intro ⟨p, o, hm⟩ hs
    have hm := mem_parsed_below.mpr hm
    rw [hs] at hm
    contradiction

-- Below a name, the updates leave what those below it leave in its directory.
theorem place_below_name {base : Option (Kind β)} {updates : List (Update β)} {name : Str}
    (hp : NoPrefix (parsed updates)) (hs : updates.filterMap (below name) ≠ []) (h : path ≠ []) :
    place (parsed <| updates.filterMap <| below name) base path =
      place (parsed updates) base (name :: path) := by
  have ha : (∃ u ∈ parsed (updates.filterMap <| below name), path <+: u.1) ↔
      ∃ u ∈ parsed updates, name :: path <+: u.1 := by
    constructor
    case mp =>
      intro ⟨u, hu, h⟩
      exact ⟨(name :: u.1, u.2), (mem_parsed_below.mp hu).left, List.cons_prefix_cons.mpr ⟨rfl, h⟩⟩
    case mpr =>
      intro ⟨u, hu, hpre⟩
      have ⟨p, he, hpre⟩ := List.cons_prefix_iff.mp hpre
      exact ⟨(p, u.2), mem_parsed_below.mpr ⟨he ▸ hu, fun hp => h (List.prefix_nil.mp (hp ▸ hpre))⟩,
        hpre⟩
  have hb : (∃ u ∈ parsed (updates.filterMap <| below name), u.1 <+: path) ↔
      ∃ u ∈ parsed updates, u.1 <+: name :: path := by
    constructor
    case mp =>
      intro ⟨u, hu, h⟩
      exact ⟨(name :: u.1, u.2), (mem_parsed_below.mp hu).left, List.cons_prefix_cons.mpr ⟨rfl, h⟩⟩
    case mpr =>
      intro ⟨u, hu, hpre⟩
      have ⟨p, o, hm, hne⟩ := filterMap_below_ne_nil_iff.mp hs
      cases List.prefix_cons_iff.mp hpre
      case inl he => exact absurd he (ne_nil_of_mem_parsed hu)
      case inr he =>
        have ⟨q, he, hq⟩ := he
        refine ⟨(q, u.2), mem_parsed_below.mpr ⟨he ▸ hu, fun hq' => ?_⟩, hq⟩
        -- The update would be above the one of the group.
        have hn := hp u hu _ hm (by simp [he, hq'])
        simp only [he, hq', List.cons.injEq, true_and] at hn
        exact hne hn.symm
  simp only [place, lastUpdate_below h, ha, hb]

theorem kindAt_build {order : HashOrder (Str × List (Update β))} {base : Option (Tree β)}
    {updates : List (Update β)} (hp : NoPrefix (parsed updates)) :
    (Entry.tree <| buildTreeWithUpdates order base updates).kindAt path =
      place (parsed updates) ((root base).kindAt path) path := by
  induction path generalizing base updates
  case nil =>
    have hl : lastUpdate (parsed updates) [] = none :=
      lastUpdate_eq_none_iff.mpr fun u hu => ne_nil_of_mem_parsed hu
    cases updates
    case nil => rfl
    case cons u us => exact (place_above hl List.mem_cons_self List.nil_prefix).symm
  case cons name path hi =>
    rw [kindAt_cons, lookup_build]
    by_cases hs : updates.filterMap (below name) = []
    case neg =>
      rw [if_pos hs, Option.bind_some, hi (noPrefix_below hp)]
      by_cases h : path = []
      case neg => rw [kindAt_subTree h, place_below_name hp hs h]
      case pos =>
        have ⟨p, o, hm, hne⟩ := filterMap_below_ne_nil_iff.mp hs
        have hpre : [name] <+: name :: p := List.cons_prefix_cons.mpr ⟨rfl, List.nil_prefix⟩
        have hl : lastUpdate (parsed updates) [name] = none :=
          lastUpdate_eq_none_of_related hp hm (.inl hpre) (by simpa using hne.symm)
        have hl' : lastUpdate (parsed <| updates.filterMap <| below name) [] = none :=
          lastUpdate_eq_none_iff.mpr fun u hu => ne_nil_of_mem_parsed hu
        rw [h, place_above hl hm hpre,
          place_above hl' (mem_parsed_below.mpr ⟨hm, hne⟩) List.nil_prefix]
    case pos =>
      rw [if_neg (not_not_intro hs)]
      have hno (p) (o) (hm : (name :: p, o) ∈ parsed updates) : p = [] := by
        by_contra hne
        exact filterMap_below_ne_nil_iff.mpr ⟨p, o, hm, hne⟩ hs
      cases hl : lastUpdate (parsed updates) [name]
      case none =>
        have hne : ∀ u ∈ parsed updates, u.1 ≠ [name] := lastUpdate_eq_none_iff.mp hl
        rw [place_unrelated]
        case ha =>
          intro u hu hpre
          have ⟨p, he, _⟩ := List.cons_prefix_iff.mp hpre
          exact hne u hu (hno p u.2 (he ▸ hu) ▸ he)
        case hb =>
          intro u hu hpre
          cases List.prefix_cons_iff.mp hpre
          case inl he => exact ne_nil_of_mem_parsed hu he
          case inr he =>
            have ⟨p, he, _⟩ := he
            exact hne u hu (hno p u.2 (he ▸ hu) ▸ he)
        exact kindAt_cons.symm
      case some o =>
        by_cases h : path = []
        case pos =>
          rw [h, place, hl]
          cases o <;> rfl
        case neg =>
          rw [place_below hp (mem_of_lastUpdate hl)
            (List.cons_prefix_cons.mpr ⟨rfl, List.nil_prefix⟩) (by simpa using h)]
          cases o
          case none     => rfl
          case some oid => exact kindAt_blob h

end CommitTree
