import AgentMail.Pattern.Theorems.Cover

open Wildcard (Item Spells meets meets_of_common common_of_meets)
open Pattern.Globset (charItem acceptsChar)

namespace Pattern

variable {gs : Globset} {ci : Bool} {l r s t : Str}

-- The texts that are matched by tokens: a literal stands for its character, `?` for any character,
-- and `*` for any number of them.

def SimpleGlobToken.accepts : Option Char → Char → Prop
  | none, _   => True
  | some c, d => c = d

def TokensMatch (tokens : List SimpleGlobToken) (text : Str) : Prop :=
  Spells SimpleGlobToken.accepts (tokens.map SimpleGlobToken.item) text

namespace PatternSegment

def accepts (ci : Bool) : PatternSegment → Str → Bool
  | literal s, component => textEq ci s component
  | glob _ m, component  => m component
  | recursive, _         => true

end PatternSegment

def IsSegment (component : Str) : Prop :=
  component ≠ [] ∧ '/' ∉ component

instance (component : Str) : Decidable (IsSegment component) :=
  inferInstanceAs (Decidable (_ ∧ _))

-- A path is matched segment by segment, where `**` takes any number of components.
def SegmentsMatch (ci : Bool) (segments : List PatternSegment) (path : List Str) : Prop :=
  Spells (fun s component => s.accepts ci component) (segments.map PatternSegment.item) path

def IsSimpleGlob (segment : Str) : Prop :=
  hasGlobMeta segment ∧ ∀ c ∈ segment, c ∉ ['[', ']', '{', '}', '\\', '/']

-- What the segments of a pattern are compiled to, without groups and classes.
inductive IsSimple (gs : Globset) (ci : Bool) : PatternSegment → Prop
  | literal {s : Str} (h : IsSegment s) : IsSimple gs ci (.literal s)
  | glob {raw : Str} {m : Str → Bool} (hb : gs.build ci raw = some m) (hs : IsSimpleGlob raw) :
      IsSimple gs ci (.glob raw m)
  | recursive : IsSimple gs ci .recursive

-- The documented behaviour of `*` and `?` with `literal_separator(true)`, on text without
-- separators.
structure Globset.MatchesWildcards (gs : Globset) : Prop where
  wildcards : ∀ {ci segment m}, gs.build ci segment = some m →
    (∀ c ∈ segment, c ∉ ['[', ']', '{', '}', '\\', '/']) →
    ∀ text, '/' ∉ text → (m text ↔ Spells (acceptsChar ci) (segment.map charItem) text)

theorem Globset.wildcard_matchesWildcards : wildcard.MatchesWildcards where
  wildcards := by
    intro ci segment m h hs text ht
    have hs : '/' ∉ segment := fun hc => by simpa using hs _ hc
    by_cases hn : segment = ['*', '*']
    case neg => rw [wildcard_segment h hs hn, matchSegment_iff, and_iff_right ht]
    case pos =>
      have ⟨_, hm⟩ := wildcard_build h
      subst hn
      refine iff_of_true ((hm text).mpr ?_) (.skip (.many_all _))
      have hp : pathItems (['*', '*'].splitOn '/') = [.many, .one ['*']] := by
        rw [List.splitOn_eq_singleton hs]
        rfl
      rw [hp, List.splitOn_eq_singleton ht]
      exact .skip (.one (matchSegment_iff.mpr (.many_all _)) .nil)

-- Tokens.

theorem simpleGlobTokensOverlap_iff (l r : List SimpleGlobToken) :
    simpleGlobTokensOverlap l r ↔ ∃ text, TokensMatch l text ∧ TokensMatch r text := by
  have letter (o : Option Char) : ∃ c, True ∧ SimpleGlobToken.accepts o c := by
    cases o
    case none   => exact ⟨'a', trivial, trivial⟩
    case some c => exact ⟨c, trivial, rfl⟩
  constructor
  case mp =>
    intro h
    refine have ⟨w, _, hl, hr⟩ := common_of_meets ?_ (fun o _ => letter o) (fun o _ => letter o) h
      ⟨w, hl, hr⟩
    intro o o' _ _ ho
    match o, o' with
    | some c, some d =>
      have ho : c = d := by simpa using ho
      exact ⟨c, trivial, rfl, ho.symm⟩
    | some c, none => exact ⟨c, trivial, rfl, trivial⟩
    | none, o      =>
      have ⟨c, hp, hc⟩ := letter o
      exact ⟨c, hp, trivial, hc⟩
  case mpr =>
    intro ⟨w, hl, hr⟩
    refine meets_of_common (fun o o' c ho ho' => ?_) hl hr
    cases o <;> cases o'
    case some.some =>
      have := Eq.trans ho (Eq.symm ho')
      simpa using this
    all_goals rfl

theorem exists_parseSimpleGlobTokens (h : ∀ c ∈ s, c ∉ ['[', ']', '{', '}']) :
    ∃ tokens, parseSimpleGlobTokens ci s = some tokens := by
  have h : ∀ tokens, ∃ tokens', s.foldlM (pushToken ci) tokens = some tokens' := by
    induction s
    case nil => exact fun tokens => ⟨tokens, rfl⟩
    case cons c s hi =>
      intro tokens
      have ⟨tokens₁, h₁⟩ : ∃ tokens', pushToken ci tokens c = some tokens' := by
        have hc := h c List.mem_cons_self
        unfold pushToken
        split
        case h_1 => split <;> exact ⟨_, rfl⟩
        all_goals simp_all
      have ⟨tokens₂, h₂⟩ := hi (fun c hc => h c (List.mem_cons_of_mem _ hc)) tokens₁
      exact ⟨tokens₂, by simp [List.foldlM_cons, h₁, h₂]⟩
  exact h []

theorem tokenItem_eq {c d : Char} (h : tokenItem ci c = .one (some d)) : [d] = fold ci [c] := by
  unfold tokenItem at h
  split at h
  case h_3 =>
    cases h
    cases ci <;> rfl
  all_goals cases h

-- Texts of the tokens are texts of the segment that they have been parsed from.
theorem spells_charItem {tokens : List SimpleGlobToken}
    (h : parseSimpleGlobTokens ci s = some tokens) (ht : TokensMatch tokens t) :
    Spells (acceptsChar ci) (s.map charItem) t := by
  have ht := ((foldlM_pushToken h).right.right _ t).mpr ht
  refine Spells.relabel (by simpa using ht) (fun c _ hc => ?_) (fun c _ o ho => ?_)
  · unfold tokenItem at hc
    split at hc <;> simp_all [charItem]
  · cases o
    case none =>
      unfold tokenItem at ho
      split at ho <;> simp_all [charItem, acceptsChar]
    case some d =>
      have hd := tokenItem_eq ho
      refine ⟨some c, ?_, fun a _ ha => ?_⟩
      · unfold tokenItem at ho
        split at ho <;> simp_all [charItem]
      · cases ha
        show fold ci [c] = fold ci [d]
        rw [hd, fold_fold]

-- Segments.

theorem isSimple_compileSegment (hs : IsSegment s)
    (hg : hasGlobMeta s → (gs.build ci s).isSome ∧ ∀ c ∈ s, c ∉ ['[', ']', '{', '}', '\\', '/']) :
    IsSimple gs ci (compileSegment gs ci s) := by
  unfold compileSegment
  split
  case isTrue  => exact .recursive
  case isFalse =>
    split
    case isFalse   => exact .literal hs
    case isTrue hm =>
      have ⟨hb, hc⟩ := hg hm
      have ⟨m, hb⟩ := Option.isSome_iff_exists.mp hb
      rw [hb]
      exact .glob hb ⟨hm, hc⟩

theorem IsSegment.of_glob (h : IsSimpleGlob s) : IsSegment s := by
  refine ⟨?_, fun hc => by simpa using h.right _ hc⟩
  rintro rfl
  cases h.left

-- A glob stands for its own text.
theorem spells_self (s : Str) : Spells (acceptsChar ci) (s.map charItem) s := by
  induction s
  case nil => exact .nil
  case cons c s hi =>
    rw [List.map_cons]
    unfold charItem
    split
    case h_1 => exact .take (.skip hi)
    case h_2 => exact .one trivial hi
    case h_3 => exact .one rfl hi

theorem charItem_ne_nil (h : IsSimpleGlob s) : s.map charItem ≠ [] := by
  simpa using (IsSegment.of_glob h).left

-- Globs that overlap have a component in common. If it is empty then all their characters are
-- stars.
theorem common_of_simpleGlobPatternsOverlap (hl : IsSimpleGlob l) (hr : IsSimpleGlob r)
    (h : (simpleGlobPatternsOverlap ci l r).getD true) :
    ∃ t, IsSegment t ∧ Spells (acceptsChar ci) (l.map charItem) t ∧
      Spells (acceptsChar ci) (r.map charItem) t := by
  have parse {s : Str} (hs : IsSimpleGlob s) : ∃ tokens, parseSimpleGlobTokens ci s = some tokens :=
    exists_parseSimpleGlobTokens fun c hc hm => hs.right c hc <| by
      simp only [List.mem_cons, List.not_mem_nil, or_false] at hm ⊢
      rcases hm with h | h | h | h <;> simp [h]
  obtain ⟨tl, hpl⟩ := parse hl
  obtain ⟨tr, hpr⟩ := parse hr
  have letter {s : Str} {tokens : List SimpleGlobToken} (hs : IsSimpleGlob s)
      (hp : parseSimpleGlobTokens ci s = some tokens) (o : Option Char)
      (ho : Item.one o ∈ tokens.map SimpleGlobToken.item) :
      ∃ c, c ≠ '/' ∧ SimpleGlobToken.accepts o c := by
    cases o
    case none => exact ⟨'a', by decide, trivial⟩
    case some c =>
      obtain ⟨token, ht, hi⟩ := List.mem_map.mp ho
      rcases (foldlM_pushToken hp).right.left token ht with ht | ⟨d, hd, ht⟩
      · cases ht
      · have hc := tokenItem_eq (ht.symm.trans hi)
        refine ⟨c, ?_, rfl⟩
        rintro rfl
        obtain ⟨_, hd', _⟩ := fold_eq_slash hc.symm
        cases hd'
        exact absurd (hs.right _ hd) (by decide)
  simp only [simpleGlobPatternsOverlap, hpl, hpr] at h
  obtain ⟨w, hw, hwl, hwr⟩ : ∃ w : Str, (∀ c ∈ w, c ≠ '/') ∧ TokensMatch tl w ∧
    TokensMatch tr w := by
    refine common_of_meets (fun o o' ho ho' ho'' => ?_) (letter hl hpl) (letter hr hpr) h
    cases o
    case none =>
      obtain ⟨c, hp, hc⟩ := letter hr hpr o' ho'
      exact ⟨c, hp, trivial, hc⟩
    case some c =>
      obtain ⟨e, hp, he⟩ := letter hl hpl _ ho
      cases o'
      case none   => exact ⟨e, hp, he, trivial⟩
      case some d =>
        have hcd : c = d := by simpa using ho''
        exact ⟨e, hp, he, hcd ▸ he⟩
  have hwl := spells_charItem hpl hwl
  have hwr := spells_charItem hpr hwr
  by_cases hn : w = []
  case neg => exact ⟨w, ⟨hn, fun hc => hw _ hc rfl⟩, hwl, hwr⟩
  case pos =>
    subst hn
    exact ⟨['a'], by simp [IsSegment], hwl.of_nil (charItem_ne_nil hl) 'a',
      hwr.of_nil (charItem_ne_nil hr) 'a'⟩

section Segments

variable (hg : gs.MatchesWildcards)

include hg

theorem accepts_glob {m : Str → Bool} (hb : gs.build ci s = some m) (hs : IsSimpleGlob s)
    (ht : '/' ∉ t) : m t ↔ Spells (acceptsChar ci) (s.map charItem) t :=
  hg.wildcards hb hs.right t ht

theorem accepts_glob_fold {m : Str → Bool} {t' : Str} (hb : gs.build ci s = some m)
    (hs : IsSimpleGlob s) (ht : '/' ∉ t) (ht' : '/' ∉ t') (h : fold ci t = fold ci t') (hm : m t) :
    m t' := by
  rw [accepts_glob hg hb hs ht']
  refine ((accepts_glob hg hb hs ht).mp hm).congr ((fold_eq_iff_forall₂.mp h).imp ?_)
  intro c d hcd o ho
  cases o
  case none   => trivial
  case some e => exact Eq.trans ho hcd

theorem overlaps_of_accepts {s s' : PatternSegment} (hs : IsSimple gs ci s)
    (hs' : IsSimple gs ci s') (ht : IsSegment t) (h : s.accepts ci t) (h' : s'.accepts ci t) :
    s.overlaps ci s' := by
  cases hs <;> cases hs' <;> simp only [PatternSegment.overlaps]
  case literal.literal => exact textEq_iff.mpr ((textEq_iff.mp h).trans (textEq_iff.mp h').symm)
  case literal.glob hl _ _ hb hs =>
    exact accepts_glob_fold hg hb hs ht.right hl.right (textEq_iff.mp h).symm h'
  case glob.literal hb hs _ hl =>
    exact accepts_glob_fold hg hb hs ht.right hl.right (textEq_iff.mp h').symm h
  case glob.glob hb hs _ _ hb' hs' =>
    exact simpleGlobPatternsOverlap_of_spells ((accepts_glob hg hb hs ht.right).mp h)
      ((accepts_glob hg hb' hs' ht.right).mp h')

theorem accepts_of_overlaps {s s' : PatternSegment} (hs : IsSimple gs ci s)
    (hs' : IsSimple gs ci s') (h : s.overlaps ci s') : ∃ t, IsSegment t ∧ s.accepts ci t ∧
    s'.accepts ci t := by
  have self {s : PatternSegment} (hs : IsSimple gs ci s) : ∃ t, IsSegment t ∧ s.accepts ci t := by
    cases hs
    case literal s hl  => exact ⟨s, hl, textEq_iff.mpr rfl⟩
    case glob s _ hb hs =>
      have ht := IsSegment.of_glob hs
      exact ⟨s, ht, (accepts_glob hg hb hs ht.right).mpr (spells_self s)⟩
    case recursive => exact ⟨['a'], by simp [IsSegment], rfl⟩
  cases hs
  case recursive =>
    have ⟨t, ht, h'⟩ := self hs'
    exact ⟨t, ht, rfl, h'⟩
  case literal s hl =>
    cases hs'
    case literal       => exact ⟨s, hl, textEq_iff.mpr rfl, textEq_iff.mpr (textEq_iff.mp h).symm⟩
    case glob          => exact ⟨s, hl, textEq_iff.mpr rfl, h⟩
    case recursive     => exact ⟨s, hl, textEq_iff.mpr rfl, rfl⟩
  case glob hb hs =>
    cases hs'
    case literal s hl  => exact ⟨s, hl, h, textEq_iff.mpr rfl⟩
    case glob hb' hs'  =>
      have ⟨t, ht, h, h'⟩ := common_of_simpleGlobPatternsOverlap hs hs' h
      exact ⟨t, ht, (accepts_glob hg hb hs ht.right).mpr h,
        (accepts_glob hg hb' hs' ht.right).mpr h'⟩
    case recursive     =>
      have ⟨t, ht, h'⟩ := self (.glob hb hs)
      exact ⟨t, ht, h', rfl⟩

theorem segmentsOverlap_iff_common {l r : List PatternSegment} (hl : ∀ s ∈ l, IsSimple gs ci s)
    (hr : ∀ s ∈ r, IsSimple gs ci s) :
    segmentsOverlap ci l r ↔
      ∃ path, (∀ component ∈ path, IsSegment component) ∧ SegmentsMatch ci l path ∧
        SegmentsMatch ci r path := by
  have simple {l : List PatternSegment} (hl : ∀ s ∈ l, IsSimple gs ci s) {s : PatternSegment}
      (hs : Item.one s ∈ l.map PatternSegment.item) : IsSimple gs ci s := by
    have ⟨s', hm, hi⟩ := List.mem_map.mp hs
    cases s' <;> cases hi <;> exact hl _ hm
  constructor
  case mp =>
    have self {l : List PatternSegment} (hl : ∀ s ∈ l, IsSimple gs ci s) (s : PatternSegment)
        (hs : Item.one s ∈ l.map PatternSegment.item) : ∃ t, IsSegment t ∧ s.accepts ci t := by
      have ⟨t, ht, h, _⟩ := accepts_of_overlaps hg (simple hl hs) .recursive (by cases s <;> rfl)
      exact ⟨t, ht, h⟩
    exact common_of_meets (fun s s' hs hs' => accepts_of_overlaps hg (simple hl hs) (simple hr hs'))
      (self hl) (self hr)
  case mpr =>
    intro ⟨path, hp, h, h'⟩
    have refined {l : List PatternSegment} (hl : ∀ s ∈ l, IsSimple gs ci s)
        (h : SegmentsMatch ci l path) :
        Spells (fun s t => IsSimple gs ci s ∧ IsSegment t ∧
          s.accepts ci t) (l.map PatternSegment.item) path :=
      h.mono fun s hs t ht ha => ⟨simple hl hs, hp t ht, ha⟩
    exact meets_of_common
      (fun s s' t ⟨hs, ht, h⟩ ⟨hs', _, h'⟩ => overlaps_of_accepts hg hs hs' ht h h')
      (refined hl h) (refined hr h')

end Segments

-- Both searches are exact: the one for the characters of a segment, and the one for the segments of
-- a path.
theorem wildcards_overlap_exactly (hg : gs.MatchesWildcards) :
    (∀ l r : List SimpleGlobToken,
      simpleGlobTokensOverlap l r ↔ ∃ text, TokensMatch l text ∧ TokensMatch r text) ∧
    ∀ l r : List PatternSegment, (∀ s ∈ l, IsSimple gs ci s) → (∀ s ∈ r, IsSimple gs ci s) →
      (segmentsOverlap ci l r ↔ ∃ path, (∀ component ∈ path, IsSegment component) ∧
        SegmentsMatch ci l path ∧ SegmentsMatch ci r path) :=
  ⟨simpleGlobTokensOverlap_iff, fun _ _ => segmentsOverlap_iff_common hg⟩

theorem wildcards_overlap_exactly_rust_files :
    segmentsOverlap false [.literal "src".toList, compileSegment .wildcard false "*.rs".toList]
      [.recursive, .literal "main.rs".toList] ↔
    ∃ path, (∀ component ∈ path, IsSegment component) ∧
      SegmentsMatch false [.literal "src".toList, compileSegment .wildcard false "*.rs".toList]
        path ∧
      SegmentsMatch false [.recursive, .literal "main.rs".toList] path := by
  have simple (s : String) (h : IsSegment s.toList) :
      IsSimple .wildcard false (.literal s.toList) := .literal h
  refine (wildcards_overlap_exactly Globset.wildcard_matchesWildcards).right _ _ ?_ ?_
  · simp only [List.forall_mem_cons, List.not_mem_nil, false_imp_iff, implies_true, and_true]
    exact ⟨simple "src" (by decide), isSimple_compileSegment (by decide) fun _ => ⟨rfl, by simp⟩⟩
  · simp only [List.forall_mem_cons, List.not_mem_nil, false_imp_iff, implies_true, and_true]
    exact ⟨.recursive, simple "main.rs" (by decide)⟩

-- The pattern of the project root consists of one empty literal. It overlaps with itself, but it
-- matches no segments that are not empty.
theorem wildcards_overlap_root :
    segmentsOverlap false [.literal []] [.literal []] ∧
    ¬∃ path, (∀ component ∈ path, IsSegment component) ∧
      SegmentsMatch false [.literal []] path ∧ SegmentsMatch false [.literal []] path := by
  refine ⟨by simp [segmentsOverlap, PatternSegment.item, PatternSegment.overlaps, meets, textEq],
    ?_⟩
  rintro ⟨path, hp, h, _⟩
  cases h with | one ha h =>
  refine (hp _ List.mem_cons_self).left ?_
  simpa [PatternSegment.accepts, textEq, eq_comm] using ha

end Pattern
