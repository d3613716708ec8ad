import AgentMail.CommitTree.Theorems.Index

open Pattern (Str)

namespace CommitTree

variable {β : Type} {ups : List (List Str × Option β)} {base : Entry β}

-- If the tree is the one of the index then no directory is emptied.
theorem LikeIndex.emptiesNothing (h : LikeIndex ups base) : EmptiesNothing ups base := by
  intro path hn ⟨ha, hd, hk⟩
  cases h.above path hn ha
  case inl hs =>
    have ⟨p, oid, hl, hpre, _⟩ := hs
    have hl' := (hd _ (mem_of_lastUpdate hl) hpre).right
    simp [hl] at hl'
  case inr hs =>
    have ⟨p, hpre, hne, hkept⟩ := hs
    have ⟨oid, hf⟩ := hkept.left
    have ⟨u, hu, hup⟩ := hk p hpre hne (by simp [hf])
    exact absurd hkept (h.not_keptFile hu hup)

theorem buildTreeWithUpdates_exact (order : HashOrder (Str × List (Update β)))
    (base : Option (Tree β)) (updates : List (Update β)) (hp : NoPrefix (parsed updates)) :
    let result := buildTreeWithUpdates order base updates
    (Applied (parsed updates) (root base) (.tree result) ↔
      EmptiesNothing (parsed updates) (root base)) ∧
    (Applied (parsed updates) (root base) (.tree result) ∧
      (commitPaths base updates).WritesTree result ↔ LikeIndex (parsed updates) (root base)) := by
  have hr (path : List Str) : (Entry.tree <| buildTreeWithUpdates order base updates).kindAt path =
      place (parsed updates) ((root base).kindAt path) path :=
    kindAt_build hp
  have ha := applied_iff hp rfl hr
  have hw := writesTree_iff hp hr fun _ _ => commitPaths_eq_some_iff hp
  exact ⟨ha, fun h => hw.mp h.right, fun h => ⟨ha.mpr h.emptiesNothing, hw.mpr h⟩⟩

section Sample

def sampleOrder : HashOrder (Str × List (Update Nat)) where
  iter := id
  perm := .refl

def sampleBase : Option (Tree Nat) :=
  some [("a".toList, .tree [("b".toList, .blob 1)])]

def sampleUpdates : List (Update Nat) :=
  [("a/b".toList, none)]

-- The last of two contents, a removed file, and a directory in the place of a file.
def mixedBase : Option (Tree Nat) :=
  some [("a".toList, .tree [("b".toList, .blob 1), ("c".toList, .blob 2)]), ("d".toList, .blob 3)]

def mixedUpdates : List (Update Nat) :=
  [("a/b".toList, some 4), ("a/c".toList, none), ("a/b".toList, some 5), ("d/e".toList, some 6)]

theorem emptiesNothing_mixed : EmptiesNothing (parsed mixedUpdates) (root mixedBase) := by
  intro path hn ⟨⟨u, hu, hpre, hne⟩, hd, _⟩
  have dirs : ∀ u ∈ parsed mixedUpdates, ∀ n < u.1.length, u.1.take n ≠ [] →
      u.1.take n = ["a".toList] ∨ u.1.take n = ["d".toList] := by
    decide
  have hlt : path.length < u.1.length :=
    lt_of_le_of_ne hpre.length_le fun hl => hne (hpre.eq_of_length hl)
  have dir := dirs u hu path.length hlt
  rw [← List.prefix_iff_eq_take.mp hpre] at dir
  obtain rfl | rfl := dir hn
  · exact absurd (hd (["a".toList, "b".toList], some 4) (by decide) (by decide)).right (by decide)
  · exact absurd (hd (["d".toList, "e".toList], some 6) (by decide) (by decide)).right (by decide)

theorem buildTreeWithUpdates_exact_mixed :
    let result := buildTreeWithUpdates sampleOrder mixedBase mixedUpdates
    NoPrefix (parsed mixedUpdates) ∧ Applied (parsed mixedUpdates) (root mixedBase) (.tree result) ∧
    (Applied (parsed mixedUpdates) (root mixedBase) (.tree result) ∧
      (commitPaths mixedBase mixedUpdates).WritesTree result ↔
      LikeIndex (parsed mixedUpdates) (root mixedBase)) := by
  have hp : NoPrefix (parsed mixedUpdates) := by
    unfold NoPrefix
    decide
  have ⟨happlied, hlike⟩ := buildTreeWithUpdates_exact sampleOrder mixedBase mixedUpdates hp
  exact ⟨hp, happlied.mpr emptiesNothing_mixed, hlike⟩

theorem build_sample : buildTreeWithUpdates sampleOrder sampleBase sampleUpdates =
    [("a".toList, .tree [])] := by
  rw [buildTreeWithUpdates_eq]
  change [("a".toList, Entry.tree (buildTreeWithUpdates sampleOrder (some [("b".toList, .blob 1)])
    [("b".toList, none)]))] = _
  rw [buildTreeWithUpdates_eq]
  rfl

-- The directory of the only file stays as an empty one, which the index does not have.
theorem not_applied_onlyFile :
    let result := buildTreeWithUpdates sampleOrder sampleBase sampleUpdates
    NoPrefix (parsed sampleUpdates) ∧
      ¬Applied (parsed sampleUpdates) (root sampleBase) (.tree result) ∧
    ¬(commitPaths sampleBase sampleUpdates).WritesTree result := by
  have hp : NoPrefix (parsed sampleUpdates) := by
    unfold NoPrefix
    decide
  rw [build_sample]
  refine ⟨hp, fun h => ?_, fun h => ?_⟩
  · have he : (Entry.tree (β := Nat) [("a".toList, .tree [])]).EmptyDir ["a".toList] := by
      refine ⟨rfl, fun p hpre hne => ?_⟩
      obtain ⟨q, hq⟩ := hpre
      subst hq
      rw [kindAt_append]
      exact kindAt_empty (by simpa using hne)
    have hb :=
      (h.none_emptied _ (by simp) he).right ["a".toList, "b".toList] (by decide) (by decide)
    simp [Entry.kindAt, Entry.find, root, sampleBase] at hb
  · have hd : (Entry.tree (β := Nat) [("a".toList, .tree [])]).kindAt ["a".toList] = some .dir :=
      rfl
    obtain ⟨p, hpre, hne, hi⟩ := (h ["a".toList] (by simp)).right.mp hd
    cases (ne_none_iff (fun path oid => commitPaths_eq_some_iff hp)).mp hi
    case inl hs =>
      obtain ⟨oid, hl⟩ := hs
      have hm := mem_of_lastUpdate hl
      simp [sampleUpdates, parsed] at hm
    case inr hk =>
      obtain ⟨⟨oid, hf⟩, hu, _⟩ := hk
      have hb : (root sampleBase).kindAt ["a".toList, "b".toList] = some (.file 1) := by decide
      obtain ⟨q, hq⟩ := hpre
      cases q
      case nil         => exact hne (by simpa using hq.symm)
      case cons name r =>
        subst hq
        by_cases hn : name = "b".toList
        case pos =>
          subst hn
          by_cases hr : r = []
          case pos => exact hu (["a".toList, "b".toList], none) (by decide) (by simp [hr])
          case neg =>
            have hk :=
              kindAt_of_file hb (p := ["a".toList] ++ "b".toList :: r) ⟨r, rfl⟩ (by simpa using hr)
            rw [hk] at hf
            contradiction
        case neg =>
          have hk : (root sampleBase).kindAt (["a".toList] ++ name :: r) = none := by
            have hl : List.lookup name [("b".toList, Entry.blob 1)] = none := by
              rw [List.lookup_cons, beq_eq_false_iff_ne.mpr hn, List.lookup_nil]
            rw [root, sampleBase, Option.getD_some, List.singleton_append, kindAt_cons,
              List.lookup_cons_self, Option.bind_some, kindAt_cons, hl, Option.bind_none]
          rw [hk] at hf
          contradiction

end Sample

end CommitTree
