import AgentMail.Pattern.Cover
import AgentMail.Pattern.Theorems.Globset

open Wildcard (Item Spells meets_of_common)
open Pattern.Globset (segmentItem charItem acceptsChar)

namespace Pattern

variable {gs : Globset} {ci : Bool} {l r s t path : Str}

-- The tokens of a segment stand for the same texts as the segment itself.

def tokenAccepts (ci : Bool) : Option Char → Char → Prop
  | none, _   => True
  | some c, d => [c] = fold ci [d]

def tokenItem (ci : Bool) : Char → Item (Option Char)
  | '*' => .many
  | '?' => .one none
  | c   => .one (some (if ci then c.toLower else c))

theorem spells_tokenItem (h : Spells (acceptsChar ci) (s.map charItem) t) :
    Spells (tokenAccepts ci) (s.map (tokenItem ci)) t := by
  refine h.relabel (fun c _ hc => ?_) (fun c _ o ho => ?_)
  · unfold charItem at hc
    split at hc <;> simp_all [tokenItem]
  · unfold charItem at ho
    split at ho
    case h_1 => cases ho
    case h_2 =>
      cases ho
      exact ⟨none, rfl, fun _ _ => id⟩
    case h_3 h₁ h₂ =>
      cases ho
      refine ⟨some (if ci then c.toLower else c), ?_, fun d _ hd => ?_⟩
      · unfold tokenItem
        split <;> simp_all
      · cases ci <;> simpa [acceptsChar, tokenAccepts, fold] using hd

-- A star after a star is dropped, whatever the letters are accepted for.
theorem pushToken_spec {tokens tokens' : List SimpleGlobToken} {c : Char}
    (h : pushToken ci tokens c = some tokens') :
    c ∉ ['[', ']', '{', '}'] ∧
    (∀ token ∈ tokens', token ∈ tokens ∨ token.item = tokenItem ci c) ∧
    ∀ accepts rest (w : Str),
      Spells accepts (tokens.map SimpleGlobToken.item ++ tokenItem ci c :: rest) w ↔
        Spells accepts (tokens'.map SimpleGlobToken.item ++ rest) w := by
  have mem {token : SimpleGlobToken} (ht : token.item = tokenItem ci c) :
      ∀ token' ∈ tokens ++ [token], token' ∈ tokens ∨ token'.item = tokenItem ci c := by
    intro token' hm
    refine (List.mem_append.mp hm).imp_right fun hm => ?_
    rw [List.mem_singleton.mp hm, ht]
  have spells {token : SimpleGlobToken} (ht : token.item = tokenItem ci c)
      (accepts : Option Char → Char → Prop) (rest : List (Item (Option Char))) (w : Str) :
      Spells accepts (tokens.map SimpleGlobToken.item ++ tokenItem ci c :: rest) w ↔
        Spells accepts ((tokens ++ [token]).map SimpleGlobToken.item ++ rest) w := by
    simp [ht]
  unfold pushToken at h
  split at h
  case h_1 =>
    refine ⟨by decide, ?_⟩
    split at h
    case isTrue hl =>
      cases h
      refine ⟨fun _ => .inl, fun accepts rest w => ?_⟩
      have ⟨init, hi⟩ := List.getLast?_eq_some_iff.mp hl
      simp only [hi, List.map_append, List.map_cons, List.map_nil, List.append_assoc,
        List.cons_append, List.nil_append]
      exact ⟨Spells.collapse, Spells.expand⟩
    case isFalse =>
      cases h
      exact ⟨mem rfl, spells rfl⟩
  case h_2 =>
    cases h
    exact ⟨by decide, mem rfl, spells rfl⟩
  case h_7 =>
    cases h
    have hi : SimpleGlobToken.item (.literal (if ci then c.toLower else c)) = tokenItem ci c := by
      unfold tokenItem
      split <;> simp_all [SimpleGlobToken.item]
    exact ⟨by simp_all, mem hi, spells hi⟩
  all_goals cases h

theorem foldlM_pushToken {tokens tokens' : List SimpleGlobToken}
    (h : s.foldlM (pushToken ci) tokens = some tokens') :
    (∀ c ∈ s, c ∉ ['[', ']', '{', '}']) ∧
    (∀ token ∈ tokens', token ∈ tokens ∨ ∃ c ∈ s, token.item = tokenItem ci c) ∧
    ∀ accepts (w : Str),
      Spells accepts (tokens.map SimpleGlobToken.item ++ s.map (tokenItem ci)) w ↔
      Spells accepts (tokens'.map SimpleGlobToken.item) w := by
  induction s generalizing tokens
  case nil =>
    cases h
    exact ⟨by simp, fun _ => .inl, fun _ _ => by simp⟩
  case cons c s hi =>
    rw [List.foldlM_cons] at h
    have ⟨tokens₁, h₁, h⟩ := Option.bind_eq_some_iff.mp h
    have ⟨hc, ht₁, hw₁⟩ := pushToken_spec h₁
    have ⟨hs, ht₂, hw₂⟩ := hi h
    refine ⟨List.forall_mem_cons.mpr ⟨hc, hs⟩, fun token ht => ?_, fun accepts w => ?_⟩
    · rcases ht₂ token ht with ht | ⟨d, hd, ht⟩
      · exact (ht₁ token ht).imp_right fun ht => ⟨c, List.mem_cons_self, ht⟩
      · exact .inr ⟨d, List.mem_cons_of_mem _ hd, ht⟩
    · exact (hw₁ accepts _ w).trans (hw₂ accepts w)

-- Segments that cannot be parsed are taken to overlap.
theorem simpleGlobPatternsOverlap_of_parsed (h : ∀ tl tr, parseSimpleGlobTokens ci l = some tl →
    parseSimpleGlobTokens ci r = some tr → (simpleGlobPatternsOverlap ci l r).getD true) :
    (simpleGlobPatternsOverlap ci l r).getD true := by
  cases hpl : parseSimpleGlobTokens ci l
  case none => simp [simpleGlobPatternsOverlap, hpl]
  case some tl =>
    cases hpr : parseSimpleGlobTokens ci r
    case none    => simp [simpleGlobPatternsOverlap, hpl, hpr]
    case some tr => exact h tl tr hpl hpr

-- Two segments that stand for the same text are found to overlap.
theorem simpleGlobPatternsOverlap_of_spells (hl : Spells (acceptsChar ci) (l.map charItem) t)
    (hr : Spells (acceptsChar ci) (r.map charItem) t) :
    (simpleGlobPatternsOverlap ci l r).getD true := by
  refine simpleGlobPatternsOverlap_of_parsed fun tl tr hpl hpr => ?_
  simp only [simpleGlobPatternsOverlap, hpl, hpr]
  have tokens {s : Str} {tokens : List SimpleGlobToken}
      (hp : parseSimpleGlobTokens ci s = some tokens)
      (hs : Spells (acceptsChar ci) (s.map charItem) t) :
      Spells (tokenAccepts ci) (tokens.map SimpleGlobToken.item) t :=
    ((foldlM_pushToken hp).right.right _ t).mp (by simpa using spells_tokenItem hs)
  refine meets_of_common ?_ (tokens hpl hl) (tokens hpr hr)
  intro o o' c ho ho'
  cases o <;> cases o'
  case some.some =>
    have := ho.trans ho'.symm
    simpa using this
  all_goals rfl

section Common

variable (hg : gs.Lawful)

include hg

-- Two segments that match the same component are found to overlap.
theorem simpleGlobPatternsOverlap_of_common {m m' : Str → Bool}
    (hl : gs.build ci l = some m) (hr : gs.build ci r = some m') (hl' : '/' ∉ l ∧ '\\' ∉ l)
    (hr' : '/' ∉ r ∧ '\\' ∉ r) (ht : '/' ∉ t) (hm : m t) (hm' : m' t) :
    (simpleGlobPatternsOverlap ci l r).getD true := by
  refine simpleGlobPatternsOverlap_of_parsed fun tl tr hpl hpr => ?_
  have spells {s : Str} {m : Str → Bool} {tokens : List SimpleGlobToken}
      (hs : gs.build ci s = some m) (hs' : '/' ∉ s ∧ '\\' ∉ s) (hm : m t)
      (hp : parseSimpleGlobTokens ci s = some tokens) :
      Spells (acceptsChar ci) (s.map charItem) t := by
    have hc := (foldlM_pushToken hp).left
    refine hg.wildcards hs (fun c hc' hm => ?_) t ht hm
    simp only [List.mem_cons, List.not_mem_nil, or_false] at hm
    rcases hm with h | h | h | h | rfl | rfl
    · exact hc c hc' (by simp [h])
    · exact hc c hc' (by simp [h])
    · exact hc c hc' (by simp [h])
    · exact hc c hc' (by simp [h])
    · exact hs'.right hc'
    · exact hs'.left hc'
  exact simpleGlobPatternsOverlap_of_spells (spells hl hl' hm hpl) (spells hr hr' hm' hpr)

-- What a segment of a compiled pattern stands for.
def segmentAccepts (gs : Globset) (ci : Bool) : PatternSegment → Str → Prop
  | .literal s, t  => fold ci s = fold ci t
  | .glob raw m, t => gs.build ci raw = some m ∧ ('/' ∉ raw ∧ '\\' ∉ raw) ∧ '/' ∉ t ∧ m t
  | .recursive, _  => True

theorem overlaps_of_common {s s' : PatternSegment} (h : segmentAccepts gs ci s t)
    (h' : segmentAccepts gs ci s' t) : s.overlaps ci s' := by
  have invariant {raw l : Str} {m : Str → Bool} (hb : gs.build ci raw = some m)
      (hl : fold ci l = fold ci t) (hm : m t) : m l := by
    cases ci
    case false => exact (show l = t from hl) ▸ hm
    case true  => exact hg.caseInsensitive hb hl ▸ hm
  cases s <;> cases s' <;> simp only [PatternSegment.overlaps]
  case literal.literal => exact textEq_iff.mpr (h.trans h'.symm)
  case literal.glob    => exact invariant h'.left h h'.right.right.right
  case glob.literal    => exact invariant h.left h' h.right.right.right
  case glob.glob       =>
    exact simpleGlobPatternsOverlap_of_common hg h.left h'.left h.right.left h'.right.left
      h.right.right.left h.right.right.right h'.right.right.right

end Common

open CompiledPattern

theorem spells_segments (h : Reaches gs ci (new gs ci l).norm path) :
    Spells (segmentAccepts gs ci) ((new gs ci l).segments.map PatternSegment.item)
      (path.splitOn '/') := by
  rw [segments_items]
  refine spells_compileSegment h fun s hm hn t ht ha => ?_
  unfold Globset.accepts at ha
  split at ha
  case isFalse hmeta =>
    rw [compileSegment_literal (by simpa using hmeta)]
    exact ha
  case isTrue hmeta =>
    have ⟨m, hb, hm'⟩ := ha
    have hb' : '\\' ∉ s := fun hc =>
      (new_normalized l).no_backslash ((of_mem_splitOn hm).right _ hc)
    have hc : compileSegment gs ci s = .glob s m := by simp [compileSegment, hn, hmeta, hb]
    rw [hc]
    exact ⟨hb, ⟨(of_mem_splitOn hm).left, hb'⟩, (of_mem_splitOn ht).left, hm'⟩

theorem reaches_head (h : Reaches gs ci s t) (hs : hasGlobMeta (head s) = false) :
    fold ci (head s) = fold ci (head t) := by
  have ⟨ss, hss⟩ := splitOn_eq_head_cons s
  have ⟨ts, hts⟩ := splitOn_eq_head_cons t
  have hn : head s ≠ ['*', '*'] := by
    intro he
    rw [he] at hs
    cases hs
  rw [Reaches, hss, hts, List.map_cons, segmentItem, if_neg hn, Spells.one_iff] at h
  simpa [Globset.accepts, hs] using h.left

-- Patterns that reach a common path do not differ in their leading literal segments.
theorem not_firstSegmentMismatch (hl : Reaches gs ci (new gs ci l).norm path)
    (hr : Reaches gs ci (new gs ci r).norm path) :
    (new gs ci l).firstSegmentMismatch ci (new gs ci r) = false := by
  unfold firstSegmentMismatch
  split
  case h_2 => rfl
  case h_1 s t hs ht =>
    have ⟨hs, _, hs'⟩ := firstLiteralSegment_iff.mp hs
    have ⟨ht, _, ht'⟩ := firstLiteralSegment_iff.mp ht
    have h₁ := reaches_head hl (hs ▸ hs')
    have h₂ := reaches_head hr (ht ▸ ht')
    simpa [textEq_iff, ← hs, ← ht] using h₁.trans h₂.symm

-- Two literals above the same path are in one line.
theorem overlaps_of_covers_literal (hl : (new gs ci l).isGlob = false)
    (hr : (new gs ci r).isGlob = false) (hp : Covers (new gs ci l) path)
    (hp' : Covers (new gs ci r) path) : (new gs ci l).overlaps ci (new gs ci r) = some true := by
  simp only [Covers, hl, hr, Bool.false_eq_true, if_false] at hp hp'
  -- Followed by a separator, both texts are prefixes of the path.
  have pre {s : Str} (h : s = path ∨ s ++ ['/'] <+: path) : s ++ ['/'] <+: path ++ ['/'] := by
    cases h
    case inl h => exact h ▸ List.prefix_rfl
    case inr h => exact h.trans (List.prefix_append ..)
  have below {s t : Str} (h : s ++ ['/'] <+: t ++ ['/']) : s = t ∨ Below ci s t := by
    cases List.prefix_concat_iff.mp h
    case inl h => exact .inl (List.append_cancel_right h)
    case inr h =>
      have ⟨u, hu⟩ := h
      exact .inr ⟨s, u, by simp [← hu], rfl⟩
  have root {l r : Str} (hl : (new gs ci l).isGlob = false) (h : (new gs ci l).norm = []) :
      (new gs ci l).overlaps ci (new gs ci r) = some true :=
    overlaps_of_isDirectory ⟨hl, .inl h⟩
  have line {l r : Str} (hl : (new gs ci l).isGlob = false)
      (h : (new gs ci l).norm ++ ['/'] <+: (new gs ci r).norm ++ ['/']) :
      (new gs ci l).overlaps ci (new gs ci r) = some true := by
    cases below h
    case inl h => exact overlaps_of_fold_eq (by rw [h])
    case inr h => exact overlaps_of_isDirectory ⟨hl, .inr h⟩
  cases or_left_comm.mp hp
  case inl h => exact root hl h
  case inr h =>
  cases or_left_comm.mp hp'
  case inl h' => exact overlaps_comm.trans (root hr h')
  case inr h' =>
  cases List.prefix_or_prefix_of_prefix (pre h) (pre h')
  case inl h => exact line hl h
  case inr h => exact overlaps_comm.trans (line hr h)

theorem fold_ne_of_literal_glob (hl : (new gs ci l).isGlob = false) (hr : (new gs ci r).isGlob) :
    fold ci (new gs ci l).norm ≠ fold ci (new gs ci r).norm := by
  intro h
  have h := congrArg hasGlobMeta h
  rw [hasGlobMeta_fold, hasGlobMeta_fold, ← new_isGlob, ← new_isGlob, hl, hr] at h
  cases h

theorem conflict_literal_glob (hl : (new gs ci l).isGlob = false) (hr : (new gs ci r).isGlob)
    (hm : (new gs ci r).isMatchable) :
    Conflict ci (new gs ci l) (new gs ci r) ↔
      (new gs ci l).norm = [] ∨ Below ci (new gs ci l).norm (new gs ci r).norm ∨
        (new gs ci r).globMatches (new gs ci l).norm ∨
        Reaches gs ci (new gs ci r).norm (new gs ci l).norm := by
  have hf := fold_ne_of_literal_glob hl hr
  have hself : Reaches gs ci (new gs ci l).norm (new gs ci l).norm := (reaches_literal hl).mpr rfl
  have htouch : touches ci (new gs ci l) (new gs ci r) ↔
      (new gs ci r).globMatches (new gs ci l).norm ∨
        Reaches gs ci (new gs ci r).norm (new gs ci l).norm := by
    rw [← segmentsOverlap_literal hl, segmentsOverlap_comm]
    simp only [touches, globMatches_literal hl, isMatchable_literal hl, hm, Bool.and_false,
      Bool.false_or, Bool.true_and, Bool.or_eq_true, Bool.and_eq_true, Bool.not_eq_true']
    refine or_congr_right ⟨And.right, fun h => ⟨?_, h⟩⟩
    rw [segmentsOverlap_comm] at h
    exact not_firstSegmentMismatch hself ((segmentsOverlap_literal hl).mp h)
  simp [Conflict, IsDirectory, hf, hl, hr, htouch, or_assoc]

theorem overlaps_literal_glob_iff (hl : (new gs ci l).isGlob = false) (hr : (new gs ci r).isGlob)
    (hm : (new gs ci r).isMatchable) :
    (new gs ci l).overlaps ci (new gs ci r) = some true ↔
      isDirectoryPrefix ci (new gs ci l).norm (new gs ci r).norm ≠ none ∧
      ((new gs ci l).norm = [] ∨ Below ci (new gs ci l).norm (new gs ci r).norm ∨
        (new gs ci r).globMatches (new gs ci l).norm ∨
        Reaches gs ci (new gs ci r).norm (new gs ci l).norm) := by
  rw [← conflict_literal_glob hl hr hm]
  have hd : (new gs ci l).isDirectoryOf ci (new gs ci r) =
      isDirectoryPrefix ci (new gs ci l).norm (new gs ci r).norm := by
    simp [isDirectoryOf, hl]
  constructor
  case mp =>
    intro h
    refine ⟨fun hn => ?_, conflict_of_overlaps h⟩
    rw [overlaps_eq, hd, hn] at h
    split at h
    case isTrue he => exact absurd (textEq_iff.mp he) (fold_ne_of_literal_glob hl hr)
    case isFalse   => cases h
  case mpr =>
    rintro ⟨hn, h⟩
    exact overlaps_of_conflict (hd ▸ hn) (by simp [isDirectoryOf_glob hr]) h

theorem globMatches_of_isMatchable (hr : (new gs ci r).isGlob) (hm : (new gs ci r).isMatchable) :
    ∃ m, gs.build ci (new gs ci r).norm = some m ∧
      ∀ text, (new gs ci r).globMatches text = m text := by
  have hmatcher : (new gs ci r).matcher = gs.build ci (new gs ci r).norm := if_pos hr
  cases hb : gs.build ci (new gs ci r).norm
  case none   => simp [isMatchable, hr, hmatcher, hb] at hm
  case some m => exact ⟨m, rfl, fun text => by simp [globMatches, hmatcher, hb]⟩

theorem reaches_of_globMatches (hg : gs.Lawful) (ha : Aligned gs ci (new gs ci r))
    (h : (new gs ci r).globMatches path) (hp : IsPath path) :
    Reaches gs ci (new gs ci r).norm path := by
  have ⟨_, m, hm, hpath⟩ := of_globMatches h
  exact hg.segmentwise hm (new_normalized r).no_backslash ha path hp hpath

-- There is a path with the given components below the literal.
theorem exists_path {literal : Str} (components : List Str) (hl : IsPath literal)
    (hc : ∀ component ∈ components, component ≠ [] ∧ '/' ∉ component) :
    ∃ path, IsPath path ∧ path.splitOn '/' = literal.splitOn '/' ++ components ∧
      (literal = path ∨ literal ++ ['/'] <+: path) := by
  have hn : ∀ component ∈ literal.splitOn '/' ++ components, component ≠ [] := fun component hm =>
    (List.mem_append.mp hm).elim (hl component) fun hm => (hc component hm).left
  cases components
  case nil => exact ⟨literal, hl, by simp, .inl rfl⟩
  case cons c cs =>
    let path := literal ++ '/' :: ['/'].intercalate (c :: cs)
    have hs : path.splitOn '/' = literal.splitOn '/' ++ c :: cs := by
      rw [List.splitOn_append_cons_self,
        List.splitOn_intercalate '/' (fun component hm => (hc component hm).right)
          (List.cons_ne_nil c cs)]
    exact ⟨path, by rwa [IsPath, hs], hs, .inr ⟨['/'].intercalate (c :: cs), by simp [path]⟩⟩

-- The glob matches a path below the literal exactly if it leads there.
theorem shared_iff_leads (hg : gs.Lawful) (hc : gs.Complete) (hl : (new gs ci l).isGlob = false)
    (hr : (new gs ci r).isGlob) (hm : (new gs ci r).isMatchable)
    (ha : Aligned gs ci (new gs ci r)) (hn : (new gs ci l).norm ≠ []) :
    (∃ path, IsPath path ∧ Covers (new gs ci l) path ∧ Covers (new gs ci r) path) ↔
      Leads gs ci (new gs ci r).norm (new gs ci l).norm := by
  simp only [Covers, hl, hr, Bool.false_eq_true, if_false, if_true, hn, false_or]
  constructor
  case mp =>
    rintro ⟨path, hp, hcov, hmatch⟩
    obtain ⟨below, hbelow⟩ : ∃ below, path.splitOn '/' = (new gs ci l).norm.splitOn '/' ++
      below := by
      rcases hcov with rfl | ⟨rest, rfl⟩
      · exact ⟨[], by simp⟩
      · exact ⟨rest.splitOn '/', by simp [List.splitOn_append_cons_self]⟩
    have hreach := reaches_of_globMatches hg ha hmatch hp
    rw [Reaches, hbelow] at hreach
    obtain ⟨front, rest, hitems, hfront, hrest⟩ := hreach.split
    obtain ⟨front', rest', hglob, hfront', hrest'⟩ := List.map_eq_append_iff.mp hitems
    refine ⟨front', rest', hglob, hfront' ▸ hfront, fun segment hs hmany => ?_⟩
    have hitem : Item.one segment ∈ rest :=
      hrest' ▸ List.mem_map.mpr ⟨segment, hs, if_neg hmany⟩
    obtain ⟨component, hcomp, hacc⟩ := hrest segment hitem
    have hcomp : component ∈ path.splitOn '/' := hbelow ▸ List.mem_append_right _ hcomp
    exact ⟨component, hp component hcomp, (of_mem_splitOn hcomp).left, hacc⟩
  case mpr =>
    rintro ⟨front, rest, hglob, hfront, hrest⟩
    obtain ⟨below, hbelow, hspell⟩ : ∃ below : List Str,
        (∀ component ∈ below, component ≠ [] ∧ '/' ∉ component) ∧
        Spells (gs.accepts ci) (rest.map segmentItem) below := by
      refine Spells.exists_of_items fun s hs => ?_
      obtain ⟨segment, hm, he⟩ := List.mem_map.mp hs
      have hmany : segment ≠ ['*', '*'] := by rintro rfl; cases he
      cases (if_neg hmany).symm.trans he
      obtain ⟨component, hne, hsep, hacc⟩ := hrest s hm hmany
      exact ⟨component, ⟨hne, hsep⟩, hacc⟩
    have hspell := hfront.append hspell
    rw [← List.map_append, ← hglob] at hspell
    -- A `**` at the end takes one more component.
    let last : List Str :=
      if ((new gs ci r).norm.splitOn '/').getLast? = some ['*', '*'] then [['x']] else []
    have hl' : IsPath (new gs ci l).norm := isPath_normalizePattern hn
    obtain ⟨path, hp, hs, hcov⟩ :=
      exists_path (below ++ last) hl' fun component hm => by
        cases List.mem_append.mp hm
        case inl hm => exact hbelow component hm
        case inr hm =>
          simp only [last] at hm
          split at hm
          case isTrue  => simp_all
          case isFalse => cases hm
    obtain ⟨m, hb, hmatch⟩ := globMatches_of_isMatchable hr hm
    refine ⟨path, hp, hcov, hmatch path ▸ ?_⟩
    refine hc.segmentwise hb (new_normalized r).no_backslash ha path hp ?_
    rw [hs]
    simp only [last]
    split
    case isTrue  => simpa [List.dropLast_append_of_ne_nil] using hspell
    case isFalse => simpa using hspell

-- A literal and a glob.

theorem overlaps_iff_meets (hl : (new gs ci l).isGlob = false) (hr : (new gs ci r).isGlob)
    (hm : (new gs ci r).isMatchable) :
    (new gs ci l).overlaps ci (new gs ci r) = some true ↔ (new gs ci l).norm = [] ∨
      Meets gs ci (new gs ci l) (new gs ci r) ∧ ¬Cuts ci (new gs ci l) (new gs ci r) := by
  have hroot : (new gs ci l).norm = [] → ¬Cuts ci (new gs ci l) (new gs ci r) := by
    rintro hn ⟨_, _, _, _, _, hlt, _⟩
    simp [hn, byteLen] at hlt
  rw [overlaps_literal_glob_iff hl hr hm, Ne, isDirectoryPrefix_eq_none]
  show ¬Cuts ci _ _ ∧ (_ ∨ Meets gs ci _ _) ↔ _
  tauto

theorem noMissed_of_beside (hg : gs.Lawful) (hc : gs.Complete) (hl : (new gs ci l).isGlob = false)
    (hr : (new gs ci r).isGlob) (hm : (new gs ci r).isMatchable)
    (h : Detected.beside gs ci (new gs ci l) (new gs ci r)) (hp : IsPath path)
    (hcov : Covers (new gs ci l) path) (hcov' : Covers (new gs ci r) path) :
    (new gs ci l).overlaps ci (new gs ci r) = some true := by
  rw [overlaps_iff_meets hl hr hm]
  rcases h with h | h | ⟨ha, hlead⟩
  · exact .inl h
  · exact .inr h
  · refine .inl ?_
    by_contra hn
    exact hlead ((shared_iff_leads hg hc hl hr hm ha hn).mp ⟨path, hp, hcov, hcov'⟩)

theorem beside_of_noMissed (hg : gs.Lawful) (hc : gs.Complete) (hl : (new gs ci l).isGlob = false)
    (hr : (new gs ci r).isGlob) (hm : (new gs ci r).isMatchable) (ha : Aligned gs ci (new gs ci r))
    (h : ∀ path, IsPath path → Covers (new gs ci l) path → Covers (new gs ci r) path →
      (new gs ci l).overlaps ci (new gs ci r) = some true) :
    Detected.beside gs ci (new gs ci l) (new gs ci r) := by
  by_cases hn : (new gs ci l).norm = []
  case pos => exact .inl hn
  case neg =>
    refine .inr ?_
    by_cases hlead : Leads gs ci (new gs ci r).norm (new gs ci l).norm
    case neg => exact .inr ⟨ha, hlead⟩
    case pos =>
      have ⟨path, hp, hcov, hcov'⟩ := (shared_iff_leads hg hc hl hr hm ha hn).mpr hlead
      have h := (overlaps_iff_meets hl hr hm).mp (h path hp hcov hcov')
      exact .inl (h.resolve_left hn)

-- Two globs.

-- Where no group or class goes across a separator, a shared path lines up the segments.
theorem overlaps_of_aligned (hg : gs.Lawful) (hl : (new gs ci l).isGlob) (hr : (new gs ci r).isGlob)
    (ha : Aligned gs ci (new gs ci l)) (ha' : Aligned gs ci (new gs ci r)) (hp : IsPath path)
    (hcov : Covers (new gs ci l) path) (hcov' : Covers (new gs ci r) path) :
    (new gs ci l).overlaps ci (new gs ci r) = some true := by
  simp only [Covers, hl, hr, if_true] at hcov hcov'
  have hreach := reaches_of_globMatches hg ha hcov hp
  have hreach' := reaches_of_globMatches hg ha' hcov' hp
  have hsegs : segmentsOverlap ci (new gs ci l).segments (new gs ci r).segments := by
    refine meets_of_common ?_ (spells_segments hreach) (spells_segments hreach')
    exact fun _ _ _ => overlaps_of_common hg
  have matchable {raw : Str} (h : (new gs ci raw).globMatches path) :
      (new gs ci raw).isMatchable := by
    have ⟨m, hm, _⟩ := (Option.any_eq_true _ _).mp h
    simp [isMatchable, hm]
  refine overlaps_of_conflict (by simp [isDirectoryOf_glob hl]) (by simp [isDirectoryOf_glob hr]) ?_
  refine .inr (.inr (.inr ?_))
  simp [touches, matchable hcov, matchable hcov', not_firstSegmentMismatch hreach hreach', hsegs]

-- Wildcards do not go across separators.
theorem aligned_wildcard (hm : (new .wildcard ci r).isMatchable) :
    Aligned .wildcard ci (new .wildcard ci r) := by
  intro segment hs hglob
  have hr : (new .wildcard ci r).isGlob := by
    by_contra hn
    have := hasGlobMeta_of_mem hs (by simpa [new_isGlob] using hn)
    simp [hglob] at this
  have ⟨m, hb, _⟩ := globMatches_of_isMatchable hr hm
  have hs' := of_mem_splitOn hs
  by_cases hn : segment = ['*', '*']
  case pos => exact .inl hn
  case neg =>
    have ⟨m', hb'⟩ : ∃ m, Globset.wildcard.build ci segment = some m :=
      Globset.wildcard_isSome fun c hc => (Globset.wildcard_build hb).left c (hs'.right c hc)
    exact .inr ⟨m', hb',
      fun text ht => ((Globset.wildcard_segment hb' hs'.left hn text).mp ht).left⟩

end Pattern
