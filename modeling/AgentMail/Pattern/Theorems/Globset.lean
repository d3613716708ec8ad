import AgentMail.Pattern.Globset

open Wildcard (Item meets meets_ones_iff Spells)

namespace Pattern.Globset

variable {ci : Bool} {glob segment component text : Str} {m : Str → Bool}

theorem matchSegment_iff :
    matchSegment ci segment component ↔
      Spells (acceptsChar ci) (segment.map charItem) component := by
  rw [matchSegment, meets_ones_iff, Spells.map_iff]
  have h : (fun s c => charOverlaps ci s (some c) = true) = acceptsChar ci := by
    funext s c
    cases s <;> simp [charOverlaps, acceptsChar, textEq_iff]
  rw [h]

theorem wildcard_build (h : wildcard.build ci glob = some m) :
    (∀ c ∈ glob, c ∉ ['[', '{', '}', '\\']) ∧
      ∀ text, m text ↔ Spells (fun s c => matchSegment ci s c) (pathItems (glob.splitOn '/'))
        (text.splitOn '/') := by
  simp only [wildcard] at h
  split at h
  case isTrue => cases h
  case isFalse hc =>
    cases h
    refine ⟨?_, fun text => meets_ones_iff⟩
    simpa [and_assoc] using hc

theorem wildcard_isSome (h : ∀ c ∈ glob, c ∉ ['[', '{', '}', '\\']) :
    ∃ m, wildcard.build ci glob = some m := by
  simp only [wildcard]
  split
  case isTrue hc =>
    have ⟨c, hm, hc⟩ := List.any_eq_true.mp hc
    simp_all
  case isFalse => exact ⟨_, rfl⟩

theorem charItem_of_not_meta {c : Char} (h : hasGlobMeta [c] = false) :
    charItem c = .one (some c) := by
  unfold charItem
  split <;> simp_all [hasGlobMeta]

theorem hasGlobMeta_cons {c : Char} {s : Str} :
    hasGlobMeta (c :: s) = (hasGlobMeta [c] || hasGlobMeta s) := by
  simp [hasGlobMeta]

theorem map_charItem_literal (h : hasGlobMeta segment = false) :
    segment.map charItem = (segment.map some).map .one := by
  induction segment
  case nil => rfl
  case cons c s hi =>
    rw [hasGlobMeta_cons, Bool.or_eq_false_iff] at h
    simp [charItem_of_not_meta h.left, hi h.right]

theorem matchSegment_literal (h : hasGlobMeta segment = false) :
    matchSegment ci segment component ↔ fold ci segment = fold ci component := by
  rw [matchSegment_iff, map_charItem_literal h, Spells.ones_iff, List.forall₂_map_left_iff,
    fold_eq_iff_forall₂]
  rfl

theorem matchSegment_fold {component' : Str} (hf : fold ci component = fold ci component')
    (h : matchSegment ci segment component) : matchSegment ci segment component' := by
  rw [matchSegment_iff] at h ⊢
  apply h.congr
  apply (fold_eq_iff_forall₂.mp hf).imp
  intro c d hcd s hs
  cases s
  case none   => trivial
  case some e => exact Eq.trans hs hcd

-- At least one component is taken by a path glob.
theorem pathItems_nil {segments : List Str} {accepts : Str → Str → Prop}
    (h : Spells accepts (pathItems segments) []) : segments = [] := by
  fun_induction pathItems segments
  case case1 => rfl
  case case2 =>
    rw [Spells.many_nil_iff] at h
    cases h
  case case3 => cases h
  case case4 seg segs hn hi =>
    unfold segmentItem at h
    split at h
    case isTrue  => exact absurd (hi (Spells.many_nil_iff.mp h)) hn
    case isFalse => cases h

theorem spells_segmentItem {segments components : List Str} {accepts : Str → Str → Prop}
    (h : Spells accepts (pathItems segments) components) :
    Spells accepts (segments.map segmentItem) components := by
  fun_induction pathItems segments generalizing components
  case case1 => exact h
  case case2 => exact .many_all _
  case case3 hs => simpa [segmentItem, hs] using h
  case case4 hi => exact h.cons_mono fun _ => hi

theorem pathItems_literal {segments : List Str} (h : ∀ s ∈ segments, hasGlobMeta s = false) :
    pathItems segments = segments.map .one := by
  have hs {s : Str} (hs : hasGlobMeta s = false) : s ≠ ['*', '*'] := by rintro rfl; cases hs
  fun_induction pathItems segments
  case case1 => rfl
  case case2 => exact absurd rfl (hs (h _ List.mem_cons_self))
  case case3 => rfl
  case case4 s segs _ hi =>
    have hi := hi fun s hm => h s (List.mem_cons_of_mem _ hm)
    simp [hi, segmentItem, hs (h s List.mem_cons_self)]

theorem hasGlobMeta_eq_false : hasGlobMeta glob = false ↔ ∀ c ∈ glob, hasGlobMeta [c] = false := by
  induction glob
  case nil         => simp [hasGlobMeta]
  case cons c s hi => simp [hasGlobMeta_cons (s := s), hi]

-- A segment on its own.
theorem wildcard_segment (h : wildcard.build ci segment = some m) (hs : '/' ∉ segment)
    (hn : segment ≠ ['*', '*']) (text : Str) :
    m text ↔ '/' ∉ text ∧ matchSegment ci segment text := by
  have ⟨_, hm⟩ := wildcard_build h
  have hp : pathItems (segment.splitOn '/') = [segment].map .one := by
    simp [List.splitOn_eq_singleton hs, pathItems, hn]
  rw [hm, hp, Spells.ones_iff]
  constructor
  case mp =>
    intro h
    have ⟨c, hc, hm⟩ : ∃ c, text.splitOn '/' = [c] ∧ matchSegment ci segment c := by
      generalize text.splitOn '/' = components at h
      cases h with | cons hm h => cases h; exact ⟨_, rfl, hm⟩
    have he : text = c := by
      have := join_splitOn text
      simpa [hc] using this.symm
    subst he
    exact ⟨(of_mem_splitOn (hc ▸ List.mem_singleton_self text)).left, hm⟩
  case mpr =>
    intro ⟨ht, hm⟩
    simpa [List.splitOn_eq_singleton ht] using hm

theorem wildcard_lawful : wildcard.Lawful where
  caseInsensitive := by
    intro glob m s t hm hf
    have ⟨_, hm⟩ := wildcard_build hm
    have h {s t : Str} (hf : fold true s = fold true t) (h : m s) : m t := by
      rw [hm] at h ⊢
      apply h.congr
      have hf := congrArg (List.splitOn '/') hf
      rw [splitOn_fold, splitOn_fold, ← List.forall₂_eq_eq_eq, List.forall₂_map_left_iff,
        List.forall₂_map_right_iff] at hf
      exact hf.imp fun _ _ hc _ => matchSegment_fold hc
    exact Bool.eq_iff_iff.mpr ⟨h hf, h hf.symm⟩
  literal_isSome := by
    intro ci glob hg hb
    constructor
    case mp =>
      intro h hm
      have ⟨m, h⟩ := Option.isSome_iff_exists.mp h
      have := (wildcard_build h).left _ hm
      simp at this
    case mpr =>
      intro hm
      have ⟨m, h⟩ : ∃ m, wildcard.build ci glob = some m := by
        refine wildcard_isSome fun c hc => ?_
        have := hasGlobMeta_eq_false.mp hg c hc
        simp only [List.mem_cons, List.not_mem_nil, or_false, not_or]
        refine ⟨?_, ?_, ?_, ?_⟩ <;> rintro rfl <;> contradiction
      simp [h]
  literal := by
    intro ci glob m hg _ h text
    have ⟨_, hm⟩ := wildcard_build h
    have hs : ∀ s ∈ glob.splitOn '/', hasGlobMeta s = false := by
      intro s hs
      exact hasGlobMeta_eq_false.mpr fun c hc =>
        hasGlobMeta_eq_false.mp hg c ((of_mem_splitOn hs).right c hc)
    rw [hm, pathItems_literal hs, Spells.ones_iff, fold_eq_iff_splitOn]
    exact forall₂_congr_mem fun s hm _ => matchSegment_literal (hs s hm)
  literalLead := by
    intro ci lead rest m h _ hs hg text ht
    have ⟨_, hm⟩ := wildcard_build h
    rw [hm, List.splitOn_append_cons_self_of_not_mem hs] at ht
    have hn : lead ≠ ['*', '*'] := by rintro rfl; cases hg
    have ⟨r, rs, hr⟩ := List.exists_cons_of_ne_nil (List.splitOn_ne_nil '/' rest)
    have ⟨c, cs, hc⟩ := List.exists_cons_of_ne_nil (List.splitOn_ne_nil '/' text)
    rw [hr, hc, pathItems, segmentItem, if_neg hn, Spells.one_iff] at ht
    case x_1 => simp
    cases cs
    case nil       => exact absurd (pathItems_nil ht.right) nofun
    case cons d ds =>
      refine ⟨c, ['/'].intercalate (d :: ds), ?_, ((matchSegment_literal hg).mp ht.left).symm⟩
      rw [← join_splitOn text, hc, List.intercalate_cons_cons]
      simp
  segmentwise := by
    intro ci glob m h _ _ path _ hp
    have ⟨_, hm⟩ := wildcard_build h
    refine (spells_segmentItem ((hm path).mp hp)).mono fun s hs c hc hsc => ?_
    have ⟨s', hs', he⟩ := List.mem_map.mp hs
    have hn : s' ≠ ['*', '*'] := by rintro rfl; cases he
    cases (if_neg hn).symm.trans he
    unfold accepts
    split
    case isFalse hg => exact (matchSegment_literal (by simpa using hg)).mp hsc
    case isTrue =>
      have ⟨m', h'⟩ : ∃ m', wildcard.build ci s = some m' :=
        wildcard_isSome fun d hd => (wildcard_build h).left d ((of_mem_splitOn hs').right d hd)
      exact ⟨m', h', (wildcard_segment h' (of_mem_splitOn hs').left hn c).mpr
        ⟨(of_mem_splitOn hc).left, hsc⟩⟩
  wildcards := by
    intro ci segment m h hs text ht hm
    by_cases hn : segment = ['*', '*']
    case pos => exact hn ▸ .skip (.many_all _)
    case neg =>
      have hs : '/' ∉ segment := fun hc => by simpa using hs _ hc
      exact matchSegment_iff.mp ((wildcard_segment h hs hn text).mp hm).right

-- The components of a path are spelled, but for the one that a `**` at the end takes.
theorem spells_pathItems {segments components : List Str} {accepts : Str → Str → Prop}
    (h : Spells accepts (segments.map segmentItem) components) :
    (segments.getLast? ≠ some ['*', '*'] → Spells accepts (pathItems segments) components) ∧
      ∀ component, segments.getLast? = some ['*', '*'] → accepts ['*'] component →
        Spells accepts (pathItems segments) (components ++ [component]) := by
  fun_induction pathItems segments generalizing components
  case case1 => exact ⟨fun _ => h, fun _ hl => by cases hl⟩
  case case2 =>
    refine ⟨fun hl => absurd rfl hl, fun component _ ha => ?_⟩
    exact (Spells.many_all components).append (.one ha .nil)
  case case3 hs =>
    refine ⟨fun _ => by simpa [segmentItem, hs] using h, fun component hl => ?_⟩
    exact absurd (by simpa using hl) hs
  case case4 segment segments hn hi =>
    have hl : (segment :: segments).getLast? = segments.getLast? := List.getLast?_cons_of_ne_nil hn
    rw [hl]
    rw [List.map_cons] at h
    refine ⟨fun hl => h.cons_mono fun w hw => (hi hw).left hl, fun component hl ha => ?_⟩
    generalize segmentItem segment = x at h ⊢
    generalize hq : x :: segments.map segmentItem = q at h
    induction h <;> cases hq
    case one ha' hw _  => exact .one ha' ((hi hw).right component hl ha)
    case skip hw _     => exact .skip ((hi hw).right component hl ha)
    case take _ hi'    => exact .take (hi' rfl)

theorem wildcard_complete : wildcard.Complete where
  segmentwise := by
    intro ci glob m h _ _ path _ hp
    have ⟨hc, hm⟩ := wildcard_build h
    have hp : Spells (fun s c => matchSegment ci s c) ((glob.splitOn '/').map segmentItem)
        (if (glob.splitOn '/').getLast? = some ['*', '*'] then (path.splitOn '/').dropLast
          else path.splitOn '/') := by
      refine hp.mono fun s hs c _ ha => ?_
      have ⟨s', hs', he⟩ := List.mem_map.mp hs
      have hn : s' ≠ ['*', '*'] := by rintro rfl; cases he
      cases (if_neg hn).symm.trans he
      unfold accepts at ha
      split at ha
      case isFalse hg => exact (matchSegment_literal (by simpa using hg)).mpr ha
      case isTrue     =>
        have ⟨m', h', ha⟩ := ha
        exact ((wildcard_segment h' (of_mem_splitOn hs').left hn c).mp ha).right
    rw [hm]
    split at hp
    case isFalse hl => exact (spells_pathItems hp).left hl
    case isTrue hl  =>
      have hpath := List.dropLast_concat_getLast (List.splitOn_ne_nil '/' path)
      rw [← hpath]
      refine (spells_pathItems hp).right _ hl (matchSegment_iff.mpr ?_)
      exact .many_all _

end Pattern.Globset
