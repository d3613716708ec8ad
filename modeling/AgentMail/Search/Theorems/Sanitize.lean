import AgentMail.Pattern.Theorems.Normalize
import AgentMail.Search.Theorems.Quote

open Pattern

namespace Search

variable {s t r q : Str} {c : Char}

-- Words.

theorem splitWhitespace_append (hc : isWhitespace c) :
    splitWhitespace (s ++ c :: t) = splitWhitespace s ++ splitWhitespace t := by
  rw [splitWhitespace, List.splitOnP_append_cons _ _ hc, List.filter_append]
  rfl

theorem splitWhitespace_cons (hc : isWhitespace c) : splitWhitespace (c :: t) = splitWhitespace t :=
  splitWhitespace_append (s := []) hc

theorem splitWhitespace_word (hn : s ≠ []) (hs : ∀ c ∈ s, ¬isWhitespace c) :
    splitWhitespace s = [s] := by
  rw [splitWhitespace, List.splitOnP_eq_singleton fun c hc => Bool.eq_false_iff.mpr (hs c hc)]
  simp [hn]

theorem splitWhitespace_wildcard : splitWhitespace ['*'] = [['*']] :=
  splitWhitespace_word (List.cons_ne_nil _ _) (List.forall_mem_singleton.mpr (by decide))

theorem splitWhitespace_whitespace {ws : Str} (h : ∀ c ∈ ws, isWhitespace c) :
    splitWhitespace (ws ++ t) = splitWhitespace t := by
  induction ws
  case nil => rfl
  case cons c ws hi =>
    rw [List.cons_append, splitWhitespace_cons (h c List.mem_cons_self),
      hi fun c hc => h c (List.mem_cons_of_mem _ hc)]

theorem splitWhitespace_append_whitespace {ws : Str} (h : ∀ c ∈ ws, isWhitespace c) :
    splitWhitespace (s ++ ws) = splitWhitespace s := by
  cases ws
  case nil => rw [List.append_nil]
  case cons c ws =>
    have hw := splitWhitespace_whitespace (t := []) fun c hc => h c (List.mem_cons_of_mem _ hc)
    rw [List.append_nil] at hw
    rw [splitWhitespace_append (h c List.mem_cons_self), hw]
    exact List.append_nil _

theorem splitWhitespace_trim : splitWhitespace (trim s) = splitWhitespace s := by
  have ⟨ws, hs, hw⟩ := exists_trimStart_append s
  have ⟨ws', hs', hw'⟩ := exists_trimEnd_append (trimStart s)
  rw [trim_eq, ← splitWhitespace_append_whitespace hw', ← hs',
    ← splitWhitespace_whitespace hw, ← hs]

-- The characters up to the next whitespace.
theorem exists_word (s : Str) : ∃ word r, s = word ++ r ∧ (∀ c ∈ word, ¬isWhitespace c) ∧
    (r = [] ∨ ∃ c r', isWhitespace c ∧ r = c :: r') := by
  induction s
  case nil => exact ⟨[], [], rfl, nofun, .inl rfl⟩
  case cons c s hi =>
    by_cases hc : isWhitespace c
    case pos => exact ⟨[], c :: s, rfl, nofun, .inr ⟨c, s, hc, rfl⟩⟩
    case neg =>
      have ⟨word, r, hs, hw, hr⟩ := hi
      exact ⟨c :: word, r, by rw [hs]; rfl, List.forall_mem_cons.mpr ⟨hc, hw⟩, hr⟩

theorem splitWhitespace_word_append {word : Str} (hn : word ≠ []) (hw : ∀ c ∈ word, ¬isWhitespace c)
    (hr : r = [] ∨ ∃ c r', isWhitespace c ∧ r = c :: r') :
    splitWhitespace (word ++ r) = word :: splitWhitespace r := by
  rcases hr with rfl | ⟨c, r, hc, rfl⟩
  · rw [List.append_nil, splitWhitespace_word hn hw]
    rfl
  · rw [splitWhitespace_append hc, splitWhitespace_word hn hw, splitWhitespace_cons hc]
    rfl

theorem splitWhitespace_cons_of_neg (hc : ¬isWhitespace c) : splitWhitespace (c :: s) =
    if s.head?.all isWhitespace then [c] :: splitWhitespace s
      else (splitWhitespace s).modifyHead (c :: ·) := by
  have ⟨word, r, hs, hw, hr⟩ := exists_word s
  have hw' : ∀ d ∈ c :: word, ¬isWhitespace d := List.forall_mem_cons.mpr ⟨hc, hw⟩
  subst hs
  rw [← List.cons_append, splitWhitespace_word_append (List.cons_ne_nil _ _) hw' hr]
  cases word
  case cons d word =>
    rw [splitWhitespace_word_append (List.cons_ne_nil _ _) hw hr, if_neg]
    · rfl
    · simpa using hw d List.mem_cons_self
  case nil =>
    rw [List.nil_append, if_pos]
    rcases hr with rfl | ⟨d, r, hd, rfl⟩
    · rfl
    · exact hd

-- Words without the wildcards at their start.
def dropWildcards : List Str → List Str
  | []            => []
  | word :: words =>
    let word := word.dropWhile (· = '*')
    if word = [] then dropWildcards words else word :: words

theorem dropWildcards_wildcard :
    dropWildcards (splitWhitespace ('*' :: s)) = dropWildcards (splitWhitespace s) := by
  have ⟨word, r, hs, hw, hr⟩ := exists_word s
  have hw' : ∀ c ∈ '*' :: word, ¬isWhitespace c := List.forall_mem_cons.mpr ⟨by decide, hw⟩
  have hd : ('*' :: word).dropWhile (· = '*') = word.dropWhile (· = '*') :=
    List.dropWhile_cons_of_pos rfl
  subst hs
  rw [← List.cons_append, splitWhitespace_word_append (List.cons_ne_nil _ _) hw' hr,
    dropWildcards, hd]
  cases word
  case nil       => rfl
  case cons c word => rw [splitWhitespace_word_append (List.cons_ne_nil _ _) hw hr, dropWildcards]

theorem splitWhitespace_stripLeadingWildcards (h : trimStart s = s) :
    splitWhitespace (stripLeadingWildcards s) = dropWildcards (splitWhitespace s) := by
  fun_induction stripLeadingWildcards s
  case case1 => rfl
  case case2 s hi =>
    obtain ⟨ws, hs, hw⟩ := exists_trimStart_append s
    rw [hi trimStart_trimStart, dropWildcards_wildcard]
    conv_rhs => rw [hs]
    rw [splitWhitespace_whitespace hw]
  case case3 c s hc =>
    have hw : ¬isWhitespace c := by
      intro hw
      have hl := length_trimStart_le s
      have h := congrArg List.length h
      rw [trimStart, List.dropWhile_cons_of_pos hw] at h
      simp only [trimStart, List.length_cons] at h hl
      omega
    obtain ⟨word, r, hs, hws, hr⟩ := exists_word s
    have hw' : ∀ d ∈ c :: word, ¬isWhitespace d := List.forall_mem_cons.mpr ⟨hw, hws⟩
    have hd : (c :: word).dropWhile (· = '*') = c :: word :=
      List.dropWhile_cons_of_neg (by simpa using hc)
    subst hs
    rw [← List.cons_append, splitWhitespace_word_append (List.cons_ne_nil _ _) hw' hr,
      dropWildcards, hd]
    rfl

-- Blanks.

theorem head?_collapseSpaces : (collapseSpaces s).head? = s.head? := by
  induction s
  case nil => rfl
  case cons c s hi =>
    rw [collapseSpaces]
    split
    case isFalse   => rfl
    case isTrue h  => rw [hi, h.right, h.left]; rfl

theorem mem_collapseSpaces (h : c ∈ collapseSpaces s) : c ∈ s := by
  induction s
  case nil => exact h
  case cons d s hi =>
    rw [collapseSpaces] at h
    split at h
    case isTrue  => exact List.mem_cons_of_mem _ (hi h)
    case isFalse =>
      cases List.mem_cons.mp h
      case inl h => exact h ▸ List.mem_cons_self
      case inr h => exact List.mem_cons_of_mem _ (hi h)

-- Blanks are collapsed apart from each other in texts that are joined without two of them.
theorem collapseSpaces_append (h : s.getLast? = some ' ' → t.head? ≠ some ' ') :
    collapseSpaces (s ++ t) = collapseSpaces s ++ collapseSpaces t := by
  induction s
  case nil => rfl
  case cons c s hi =>
    rw [List.cons_append, collapseSpaces, collapseSpaces]
    cases s
    case nil =>
      have hc : ¬(c = ' ' ∧ t.head? = some ' ') := fun ⟨hc, ht⟩ => h (hc ▸ rfl) ht
      rw [List.nil_append, if_neg hc, if_neg (fun h => nomatch h.right)]
      rfl
    case cons d s =>
      have hh : (d :: s ++ t).head? = (d :: s).head? := rfl
      rw [hi h, hh]
      split <;> rfl

theorem no_double_collapseSpaces : ¬[' ', ' '] <:+: collapseSpaces s := by
  induction s
  case nil =>
    intro h
    cases List.infix_nil.mp h
  case cons c s hi =>
    rw [collapseSpaces]
    split
    case isTrue     => exact hi
    case isFalse hc =>
      intro h
      cases List.infix_cons_iff.mp h
      case inr h => exact hi h
      case inl h =>
        have ⟨hc', hp⟩ := List.cons_prefix_cons.mp h
        have ⟨t, ht⟩ := hp
        have hh := head?_collapseSpaces (s := s)
        rw [← ht] at hh
        exact hc ⟨hc'.symm, hh.symm⟩

theorem collapseSpaces_eq_self (h : ¬[' ', ' '] <:+: s) : collapseSpaces s = s := by
  induction s
  case nil => rfl
  case cons c s hi =>
    have hs : ¬[' ', ' '] <:+: s := fun hs => h (hs.trans (List.suffix_cons c s).isInfix)
    rw [collapseSpaces, if_neg, hi hs]
    intro ⟨hc, hh⟩
    have ⟨t, ht⟩ := List.head?_eq_some_iff.mp hh
    exact h (by rw [hc, ht]; exact ⟨[], t, rfl⟩)

theorem splitWhitespace_collapseSpaces :
    splitWhitespace (collapseSpaces s) = splitWhitespace s := by
  induction s
  case nil => rfl
  case cons c s hi =>
    rw [collapseSpaces]
    split
    case isTrue h =>
      have hc : isWhitespace c := h.left ▸ rfl
      rw [splitWhitespace_cons hc, hi]
    case isFalse =>
      by_cases hc : isWhitespace c
      case pos => rw [splitWhitespace_cons hc, splitWhitespace_cons hc, hi]
      case neg => rw [splitWhitespace_cons_of_neg hc, splitWhitespace_cons_of_neg hc, hi,
        head?_collapseSpaces]

theorem getLast?_collapseSpaces : (collapseSpaces s).getLast? = s.getLast? := by
  induction s
  case nil => rfl
  case cons c s hi =>
    rw [collapseSpaces]
    split
    case isFalse  => rw [List.getLast?_cons, hi, ← List.getLast?_cons]
    case isTrue h =>
      have ⟨t, ht⟩ := List.head?_eq_some_iff.mp h.right
      rw [hi, ht, List.getLast?_cons_cons]

theorem ne_space_of_not_whitespace (h : ∀ c, s.head? = some c → ¬isWhitespace c) :
    s.head? ≠ some ' ' :=
  fun hs => h ' ' hs rfl

theorem trimStart_collapseSpaces : trimStart (collapseSpaces s) = collapseSpaces (trimStart s) := by
  have ⟨ws, hs, hw⟩ := exists_trimStart_append s
  have hh := trimStart_eq_self.mp (trimStart_trimStart (s := s))
  have ht : trimStart (collapseSpaces (trimStart s)) = collapseSpaces (trimStart s) :=
    trimStart_eq_self.mpr (by rw [head?_collapseSpaces]; exact hh)
  conv_lhs => rw [hs]
  rw [collapseSpaces_append fun _ => ne_space_of_not_whitespace hh,
    trimStart_whitespace fun c hc => hw c (mem_collapseSpaces hc), ht]

theorem trimEnd_collapseSpaces : trimEnd (collapseSpaces s) = collapseSpaces (trimEnd s) := by
  have ⟨ws, hs, hw⟩ := exists_trimEnd_append s
  have hh := trimEnd_eq_self.mp (trimEnd_trimEnd (s := s))
  have ht : trimEnd (collapseSpaces (trimEnd s)) = collapseSpaces (trimEnd s) :=
    trimEnd_eq_self.mpr (by rw [getLast?_collapseSpaces]; exact hh)
  conv_lhs => rw [hs]
  rw [collapseSpaces_append fun hl => absurd rfl (hh ' ' hl),
    trimEnd_whitespace fun c hc => hw c (mem_collapseSpaces hc), ht]

theorem trim_collapseSpaces : trim (collapseSpaces s) = collapseSpaces (trim s) := by
  rw [trim_eq, trim_eq, trimStart_collapseSpaces, trimEnd_collapseSpaces]

-- Special characters.

theorem blankSpecials_append : blankSpecials (s ++ t) = blankSpecials s ++ blankSpecials t := by
  simp [blankSpecials]

theorem isWhitespace_blankSpecials (h : ∀ c ∈ s, isWhitespace c) :
    ∀ c ∈ blankSpecials s, isWhitespace c := by
  intro c hc
  simp only [blankSpecials, List.mem_map] at hc
  have ⟨d, ⟨e, he, hd⟩, hc⟩ := hc
  have hw := h e he
  split at hd <;> subst hd <;> split at hc <;> subst hc
  · rfl
  · rfl
  · rfl
  · exact hw

theorem of_mem_blankSpecials (h : c ∈ blankSpecials s) : ¬isSpecialChar c ∧ c ∉ ['(', ')'] := by
  simp only [blankSpecials, List.mem_map] at h
  have ⟨d, ⟨e, _, hd⟩, hc⟩ := h
  split at hd <;> subst hd <;> split at hc <;> subst hc
  · decide
  · decide
  · decide
  · exact ⟨‹_›, ‹_›⟩

theorem blankSpecials_eq_self (h : ∀ c ∈ s, ¬isSpecialChar c ∧ c ∉ ['(', ')']) :
    blankSpecials s = s := by
  rw [blankSpecials, List.map_map]
  refine (List.map_congr_left fun c hc => ?_).trans (List.map_id s)
  have ⟨hs, hp⟩ := h c hc
  simp only [Function.comp_apply]
  rw [if_neg hs, if_neg hp]
  rfl

theorem trim_blankSpecials_trim : trim (blankSpecials (trim s)) = trim (blankSpecials s) := by
  have ⟨ws, hs, hw⟩ := exists_trimStart_append s
  have ⟨ws', hs', hw'⟩ := exists_trimEnd_append (trimStart s)
  have hb :
      blankSpecials s = blankSpecials ws ++ (blankSpecials (trim s) ++ blankSpecials ws') := by
    rw [← blankSpecials_append, ← blankSpecials_append, trim_eq, ← hs', ← hs]
  rw [hb, ← trim_trimStart (s := blankSpecials ws ++ _),
    trimStart_whitespace (isWhitespace_blankSpecials hw), trim_trimStart,
    ← trim_trimEnd (s := _ ++ blankSpecials ws'),
    trimEnd_whitespace (isWhitespace_blankSpecials hw'), trim_trimEnd]

-- The text that trailing wildcards are stripped from.
def cleaned (query : Str) : Str :=
  stripLeadingWildcards (trim (collapseSpaces (blankSpecials (trim query))))

theorem cleaned_eq :
    cleaned s = stripLeadingWildcards (collapseSpaces (trim (blankSpecials s))) := by
  rw [cleaned, trim_collapseSpaces, trim_blankSpecials_trim]

theorem stripLeadingWildcards_suffix : stripLeadingWildcards s <:+ s := by
  fun_induction stripLeadingWildcards s
  case case1 => exact List.suffix_rfl
  case case2 s hi => exact hi.trans (trimStart_suffix.trans (List.suffix_cons _ _))
  case case3 => exact List.suffix_rfl

theorem head?_stripLeadingWildcards (h : trimStart s = s) :
    ∀ c, (stripLeadingWildcards s).head? = some c → ¬isWhitespace c ∧ c ≠ '*' := by
  fun_induction stripLeadingWildcards s
  case case1 => nofun
  case case2 hi => exact hi trimStart_trimStart
  case case3 c s hc =>
    intro d hd
    have hd' := trimStart_eq_self.mp h d hd
    cases hd
    exact ⟨hd', hc⟩

theorem stripLeadingWildcards_eq_self (h : s.head? ≠ some '*') : stripLeadingWildcards s = s := by
  cases s
  case nil => rw [stripLeadingWildcards]
  case cons c s =>
    rw [stripLeadingWildcards, if_neg]
    exact fun hc => h (hc ▸ rfl)

-- Texts that are not changed until wildcards are stripped from the end.
structure Clean (s : Str) : Prop where
  ne_nil    : s ≠ []
  plain     : ∀ c ∈ s, ¬isSpecialChar c ∧ c ∉ ['(', ')']
  no_double : ¬[' ', ' '] <:+: s
  start     : ∀ c, s.head? = some c → ¬isWhitespace c ∧ c ≠ '*'
  stop      : ∀ c, s.getLast? = some c → ¬isWhitespace c

namespace Clean

theorem trimStart (h : Clean s) : trimStart s = s :=
  trimStart_eq_self.mpr fun c hc => (h.start c hc).left

theorem trim (h : Clean s) : trim s = s := by
  rw [trim_eq, h.trimStart, trimEnd_eq_self.mpr h.stop]

theorem cleaned (h : Clean s) : cleaned s = s := by
  rw [Search.cleaned, h.trim, blankSpecials_eq_self h.plain,
    collapseSpaces_eq_self h.no_double, h.trim]
  exact stripLeadingWildcards_eq_self fun hs => (h.start _ hs).right rfl

-- Quotes do not change that.
theorem inserts (h : Clean s) (hi : Inserts s t) : Clean t where
  ne_nil := by
    rintro rfl
    exact h.ne_nil (hi.eq_of_not_mem List.not_mem_nil)
  plain c hc := by
    cases hi.mem hc
    case inl hq => subst hq; decide
    case inr hs => exact h.plain c hs
  no_double := by
    intro ⟨a, b, hab⟩
    have ⟨s', r, hs, hs', _⟩ := (hab ▸ hi).split
    have ⟨s'', hs''⟩ := hs'.ending (by decide)
    exact h.no_double ⟨s'', r, by rw [hs, hs'']⟩
  start c hc := by
    by_cases hq : c = '"'
    case pos => subst hq; decide
    case neg =>
      have ⟨t', ht⟩ := List.head?_eq_some_iff.mp hc
      have ⟨s', hs, _⟩ := (ht ▸ hi).head hq
      exact h.start c (hs ▸ rfl)
  stop c hc := by
    by_cases hq : c = '"'
    case pos => subst hq; decide
    case neg =>
      have ⟨t', ht⟩ := List.getLast?_eq_some_iff.mp hc
      have ⟨s', hs⟩ := (ht ▸ hi).ending (by simpa using Ne.symm hq)
      exact h.stop c (by rw [hs, List.getLast?_concat])

end Clean

theorem clean_cleaned (h : cleaned s ≠ []) : Clean (cleaned s) := by
  rw [cleaned_eq] at h ⊢
  have hs := stripLeadingWildcards_suffix (s := collapseSpaces (Pattern.trim (blankSpecials s)))
  refine ⟨h, fun c hc => ?_, fun hd => no_double_collapseSpaces (hd.trans hs.isInfix),
    ?_, fun c hc => ?_⟩
  · exact of_mem_blankSpecials (trim_infix_self.subset (mem_collapseSpaces (hs.subset hc)))
  · apply head?_stripLeadingWildcards
    rw [trimStart_collapseSpaces, (trimmed_eq_self trim_trim).left]
  · have ⟨t, ht⟩ := List.getLast?_eq_some_iff.mp hc
    have ⟨u, hu⟩ := hs
    have hl : (Pattern.trim (blankSpecials s)).getLast? = some c := by
      rw [← getLast?_collapseSpaces, ← hu, ht, ← List.append_assoc, List.getLast?_concat]
    exact trimEnd_eq_self.mp trimEnd_trimEnd c hl

-- The words of a query that remain: special characters count as blanks, and wildcards are dropped
-- from the start, and after a blank from the end.
def remainingWords (query : Str) : List Str :=
  let text  := blankSpecials query
  let words := dropWildcards (splitWhitespace text)
  if endsWithWildcard (trim text) then words.dropLast else words

theorem splitWhitespace_cleaned :
    splitWhitespace (cleaned s) = dropWildcards (splitWhitespace (blankSpecials s)) := by
  rw [cleaned_eq, splitWhitespace_stripLeadingWildcards, splitWhitespace_collapseSpaces,
    splitWhitespace_trim]
  rw [trimStart_collapseSpaces, (trimmed_eq_self trim_trim).left]

theorem endsWithWildcard_iff : endsWithWildcard s ↔ ∃ t, s = t ++ [' ', '*'] := by
  rw [endsWithWildcard, List.isSuffixOf_iff_suffix]
  exact ⟨fun ⟨t, ht⟩ => ⟨t, ht.symm⟩, fun ⟨t, ht⟩ => ⟨t, ht.symm⟩⟩

theorem endsWithWildcard_collapseSpaces : endsWithWildcard (collapseSpaces s) ↔
    endsWithWildcard s := by
  have star {t : Str} : collapseSpaces (t ++ ['*']) = collapseSpaces t ++ ['*'] :=
    collapseSpaces_append fun _ => by decide
  rw [endsWithWildcard_iff, endsWithWildcard_iff]
  constructor
  case mp =>
    intro ⟨t, ht⟩
    have hl : s.getLast? = some '*' := by
      rw [← getLast?_collapseSpaces, ht]
      simp
    have ⟨u, hu⟩ := List.getLast?_eq_some_iff.mp hl
    rw [hu, star, show t ++ [' ', '*'] = (t ++ [' ']) ++ ['*'] by simp] at ht
    have hl' : u.getLast? = some ' ' := by
      rw [← getLast?_collapseSpaces, List.append_cancel_right ht, List.getLast?_concat]
    have ⟨v, hv⟩ := List.getLast?_eq_some_iff.mp hl'
    exact ⟨v, by simp [hu, hv]⟩
  case mpr =>
    intro ⟨t, ht⟩
    have hl : (collapseSpaces (t ++ [' '])).getLast? = some ' ' := by
      rw [getLast?_collapseSpaces, List.getLast?_concat]
    have ⟨u, hu⟩ := List.getLast?_eq_some_iff.mp hl
    rw [show t ++ [' ', '*'] = (t ++ [' ']) ++ ['*'] by simp] at ht
    exact ⟨u, by rw [ht, star, hu]; simp⟩

theorem endsWithWildcard_cleaned (h : cleaned s ≠ []) :
    endsWithWildcard (cleaned s) ↔ endsWithWildcard (trim (blankSpecials s)) := by
  rw [← endsWithWildcard_collapseSpaces (s := trim _)]
  have hs : cleaned s <:+ collapseSpaces (trim (blankSpecials s)) := by
    rw [cleaned_eq]
    exact stripLeadingWildcards_suffix
  simp only [endsWithWildcard, List.isSuffixOf_iff_suffix]
  refine ⟨fun hw => hw.trans hs, fun hw => ?_⟩
  refine (List.suffix_or_suffix_of_suffix hw hs).resolve_right fun hc => ?_
  have ⟨c, r, hr⟩ := List.exists_cons_of_ne_nil h
  have ⟨hb, hst⟩ := (clean_cleaned h).start c (by rw [hr]; rfl)
  rw [hr] at hc
  cases hc.subset List.mem_cons_self
  case head => exact hb rfl
  case tail hm =>
    cases hm
    case head => exact hst rfl
    case tail hm => cases hm

section

variable (h : Clean s)

include h

-- A wildcard that is stripped from the end is the last word.
theorem Clean.strip (he : endsWithWildcard s) :
    Clean (trimEnd s.dropLast.dropLast) ∧
      splitWhitespace s = splitWhitespace (trimEnd s.dropLast.dropLast) ++ [['*']] := by
  have ⟨t, ht⟩ := endsWithWildcard_iff.mp he
  have hd : s.dropLast.dropLast = t := by simp [ht]
  rw [hd]
  have hp : trimEnd t <+: s := trimEnd_prefix_self.trans (ht ▸ List.prefix_append _ _)
  have hn : trimEnd t ≠ [] := by
    cases t
    case nil => exact absurd rfl (h.start ' ' (by rw [ht]; rfl)).left
    case cons c t =>
      rw [trimEnd_cons (h.start c (by rw [ht]; rfl)).left]
      exact List.cons_ne_nil _ _
  constructor
  case left =>
    refine ⟨hn, fun c hc => h.plain c (hp.subset hc),
      fun hd => h.no_double (hd.trans hp.isInfix), ?_, ?_⟩
    · intro c hc
      have ⟨u, hu⟩ := hp
      refine h.start c ?_
      rw [← hu, List.head?_append, hc]
      rfl
    · exact trimEnd_eq_self.mp trimEnd_trimEnd
  case right =>
    have ⟨ws, hs, hw⟩ := exists_trimEnd_append t
    have ht' : splitWhitespace t = splitWhitespace (trimEnd t) := by
      conv_lhs => rw [hs]
      rw [splitWhitespace_append_whitespace hw]
    rw [ht, splitWhitespace_append rfl, splitWhitespace_wildcard, ht']

theorem Clean.stripTrailingWildcard : Clean (stripTrailingWildcard s) := by
  unfold Search.stripTrailingWildcard
  split
  case isTrue he => exact (h.strip he).left
  case isFalse   => exact h

end

theorem splitWhitespace_stripTrailingWildcard (h : cleaned s ≠ []) :
    splitWhitespace (stripTrailingWildcard (cleaned s)) = remainingWords s := by
  simp only [remainingWords, ← splitWhitespace_cleaned]
  by_cases he : endsWithWildcard (cleaned s)
  case pos =>
    rw [stripTrailingWildcard, if_pos he, if_pos ((endsWithWildcard_cleaned h).mp he),
      ((clean_cleaned h).strip he).right, List.dropLast_concat]
  case neg =>
    rw [stripTrailingWildcard, if_neg he, if_neg (mt (endsWithWildcard_cleaned h).mpr he)]

theorem endsWithWildcard_getLast? (h : endsWithWildcard s) :
    (splitWhitespace s).getLast? = some ['*'] := by
  have ⟨t, ht⟩ := endsWithWildcard_iff.mp h
  rw [ht, splitWhitespace_append rfl, splitWhitespace_wildcard, List.getLast?_concat]

-- The characters after the last whitespace.
theorem exists_last_word (hn : s ≠ []) (hs : ∀ c, s.getLast? = some c → ¬isWhitespace c) :
    ∃ word, (splitWhitespace s).getLast? = some word ∧
      (s = word ∨ ∃ t c, isWhitespace c ∧ s = t ++ c :: word ∧
        splitWhitespace s = splitWhitespace t ++ [word]) := by
  have ⟨word, r, hw, hc, hr⟩ := exists_word s.reverse
  have hw : s = r.reverse ++ word.reverse := by
    rw [← List.reverse_append, ← hw, List.reverse_reverse]
  have hc : ∀ c ∈ word.reverse, ¬isWhitespace c := fun c hm => hc c (List.mem_reverse.mp hm)
  have hn : word.reverse ≠ [] := by
    intro he
    rw [he, List.append_nil] at hw
    rcases hr with rfl | ⟨c, r, hc, rfl⟩
    · exact hn hw
    · exact hs c (by rw [hw, List.reverse_cons, List.getLast?_concat]) hc
  rcases hr with rfl | ⟨c, r, hd, rfl⟩
  · rw [List.reverse_nil, List.nil_append] at hw
    exact ⟨word.reverse, by rw [hw, splitWhitespace_word hn hc]; rfl, .inl hw⟩
  · rw [List.reverse_cons, List.append_assoc, List.singleton_append] at hw
    have hs : splitWhitespace s = splitWhitespace r.reverse ++ [word.reverse] := by
      rw [hw, splitWhitespace_append hd, splitWhitespace_word hn hc]
    exact ⟨word.reverse, by rw [hs, List.getLast?_concat], .inr ⟨r.reverse, c, hd, hw, hs⟩⟩

theorem exists_word_mem (hc : c ∈ s) (hw : ¬isWhitespace c) :
    ∃ word ∈ splitWhitespace s, c ∈ word := by
  induction s generalizing c
  case nil => cases hc
  case cons d s hi =>
    by_cases hd : isWhitespace d
    case pos =>
      rw [splitWhitespace_cons hd]
      cases List.mem_cons.mp hc
      case inl hc => exact absurd (hc ▸ hd) hw
      case inr hc => exact hi hc hw
    case neg =>
      rw [splitWhitespace_cons_of_neg hd]
      split
      case isTrue =>
        cases List.mem_cons.mp hc
        case inl hc => exact ⟨[d], List.mem_cons_self, hc ▸ List.mem_cons_self⟩
        case inr hc =>
          have ⟨word, hm, hc⟩ := hi hc hw
          exact ⟨word, List.mem_cons_of_mem _ hm, hc⟩
      case isFalse hs =>
        have ⟨word, words, hws⟩ : ∃ word words, splitWhitespace s = word :: words := by
          cases s
          case nil => exact absurd rfl hs
          case cons e s =>
            have ⟨word, hm, _⟩ := hi List.mem_cons_self (by simpa using hs)
            exact List.exists_cons_of_ne_nil (List.ne_nil_of_mem hm)
        rw [hws] at hi
        rw [hws, List.modifyHead_cons]
        cases List.mem_cons.mp hc
        case inl hc => exact ⟨d :: word, List.mem_cons_self, hc ▸ List.mem_cons_self⟩
        case inr hc =>
          have ⟨word', hm, hc⟩ := hi hc hw
          cases List.mem_cons.mp hm
          case inl hm => exact ⟨d :: word, List.mem_cons_self, List.mem_cons_of_mem _ (hm ▸ hc)⟩
          case inr hm => exact ⟨word', List.mem_cons_of_mem _ hm, hc⟩

theorem splitWhitespace_of_isUnsearchable (h : isUnsearchable s) : splitWhitespace s = [s] := by
  simp only [isUnsearchable, Bool.and_eq_true, decide_eq_true_eq, List.all_eq_true] at h
  refine splitWhitespace_word h.left fun c hc => ?_
  have hm := h.right c hc
  simp only [List.mem_cons, List.not_mem_nil, or_false] at hm
  rcases hm with rfl | rfl | rfl | rfl | rfl | rfl <;> decide

theorem Clean.eq_of_splitWhitespace (h : Clean s) {word : Str} (hs : splitWhitespace s = [word]) :
    s = word := by
  have ⟨word', hl, hw⟩ := exists_last_word h.ne_nil h.stop
  rw [hs] at hl
  cases hl
  rcases hw with hw | ⟨t, c, hc, ht, hw⟩
  · exact hw
  · have htn : splitWhitespace t = [] := by
      have hl := congrArg List.length (hw.symm.trans hs)
      rw [List.length_append, List.length_singleton, List.length_singleton] at hl
      exact List.eq_nil_of_length_eq_zero (by omega)
    cases t
    case nil       => exact absurd hc (h.start c (ht ▸ rfl)).left
    case cons d t  =>
      have ⟨word, hm, _⟩ :=
        exists_word_mem (s := d :: t) List.mem_cons_self (h.start d (ht ▸ rfl)).left
      rw [htn] at hm
      cases hm

-- Stages.

def finish (strip : Str → Str) (result : Str) : Option Str :=
  if result = [] then none
  else if strip result = [] then none
  else if isOperatorsOnly (strip result) then none
  else if trim (quoteHyphenatedTokens (strip result)) = [] then none
  else some (quoteHyphenatedTokens (strip result))

theorem sanitizeWith_eq {strip : Str → Str} : sanitizeWith strip s =
    if trim s = [] ∨ isUnsearchable (trim s) then none else finish strip (cleaned s) := by
  unfold sanitizeWith
  by_cases hn : trim s = []
  case pos => simp [hn]
  case neg =>
    by_cases hu : isUnsearchable (trim s)
    case pos => simp [hu]
    case neg => simp only [hn, hu, if_false, or_false, Bool.false_eq_true]; rfl

theorem finish_clean {strip : Str → Str} (hr : s ≠ []) (h : Clean (strip s)) : finish strip s =
    if isOperatorsOnly (strip s) then none else some (quoteHyphenatedTokens (strip s)) := by
  have hq := h.inserts quoteHyphenatedTokens_inserts
  rw [finish, if_neg hr, if_neg h.ne_nil, hq.trim, if_neg hq.ne_nil]

theorem not_operatorsOnly_of_mem {word : Str} (hm : word ∈ splitWhitespace s)
    (hw : ¬booleanOperators.any (eqIgnoreAsciiCase word)) : ¬isOperatorsOnly s :=
  fun h => hw (List.all_eq_true.mp h word hm)

-- A word with a character that no operator has.
theorem not_operator_of_mem {word : Str} {c : Char} (hc : c ∈ word)
    (hn : ∀ op ∈ booleanOperators, c.toLower ∉ toAsciiLowercase op) :
    ¬booleanOperators.any (eqIgnoreAsciiCase word) := by
  intro h
  have ⟨op, ho, he⟩ := List.any_eq_true.mp h
  simp only [eqIgnoreAsciiCase, decide_eq_true_eq] at he
  exact hn op ho (he ▸ List.mem_map.mpr ⟨c, hc, rfl⟩)

theorem not_operatorsOnly_of_quote (h : '"' ∈ s) : ¬isOperatorsOnly s := by
  have ⟨word, hm, hq⟩ := exists_word_mem h (by decide)
  exact not_operatorsOnly_of_mem hm (not_operator_of_mem hq (by decide))

theorem isStop_of_whitespace (h : isWhitespace c) : isStop c := by
  simp only [isWhitespace, Bool.or_eq_true, Bool.and_eq_true, decide_eq_true_eq] at h
  have ha : c.isAlphanum = false := by
    rw [Bool.eq_false_iff]
    intro ha
    have ha : ((decide ('A'.val ≤ c.val ∧ c.val ≤ 'Z'.val) || 'a'.val ≤ c.val && c.val ≤ 'z'.val) ||
        '0'.val ≤ c.val && c.val ≤ '9'.val) = true := ha
    simp only [Bool.or_eq_true, Bool.and_eq_true, decide_eq_true_eq, UInt32.le_iff_toNat_le] at ha
    have hv : c.val.toNat = c.toNat := rfl
    simp at ha
    omega
  have hd : c ≠ '-' := by rintro rfl; revert h; decide
  have hq : c ≠ '"' := by rintro rfl; revert h; decide
  simp [isStop, ha, hd, hq]

theorem stripTrailingWildcards_eq (h : ¬endsWithWildcard (stripTrailingWildcard s)) :
    stripTrailingWildcards s = stripTrailingWildcard s := by
  rw [stripTrailingWildcards]
  unfold stripTrailingWildcard at h ⊢
  split at h
  case isTrue he  => rw [if_pos he, if_pos he, stripTrailingWildcards, if_neg h]
  case isFalse he => rw [if_neg he, if_neg he]

-- What is wanted of a query: what it is sanitized to stays when it is sanitized again, it is not of
-- a form that is rejected, it does not end with a wildcard, and the two copies agree on it.
structure Settled (query : Str) : Prop where
  fixed       : ∀ q, sanitizeQuery query = some q → sanitizeQuery q = some q
  searchable  : ∀ q, sanitizeQuery query = some q →
    trim q ≠ [] ∧ ¬isUnsearchable (trim q) ∧ ¬isOperatorsOnly q
  no_wildcard : ∀ q, sanitizeQuery query = some q → (splitWhitespace q).getLast? ≠ some ['*']
  copies      : coreSanitizeQuery query = sanitizeQuery query

-- Neither is the last word a wildcard, nor is the only word one that is rejected on its own.
structure Searchable (words : List Str) : Prop where
  no_wildcard : words.getLast? ≠ some ['*']
  searchable  : ∀ word, words = [word] → ¬isUnsearchable word

theorem Settled.of_none (h : sanitizeQuery s = none) (hc : coreSanitizeQuery s = none) :
    Settled s where
  fixed _ hq       := by rw [h] at hq; cases hq
  searchable _ hq  := by rw [h] at hq; cases hq
  no_wildcard _ hq := by rw [h] at hq; cases hq
  copies           := by rw [h, hc]

section

variable (h : Clean s)

include h

-- Texts with searchable words are only quoted.
theorem Clean.quoted (hs : Searchable (splitWhitespace s)) (ho : ¬isOperatorsOnly s) :
    let q := quoteHyphenatedTokens s
    sanitizeQuery q = some q ∧ ¬isUnsearchable q ∧ ¬isOperatorsOnly q ∧
      (splitWhitespace q).getLast? ≠ some ['*'] := by
  intro q
  have hi : Inserts s q := quoteHyphenatedTokens_inserts
  have hq : Clean q := h.inserts hi
  have hu : ¬isUnsearchable q := by
    intro hu
    have hn : '"' ∉ q := fun hm => by
      simp only [isUnsearchable, Bool.and_eq_true, List.all_eq_true] at hu
      exact absurd (hu.right _ hm) (by decide)
    rw [← hi.eq_of_not_mem hn] at hu
    exact hs.searchable s (splitWhitespace_of_isUnsearchable hu) hu
  have ho : ¬isOperatorsOnly q := by
    by_cases hm : '"' ∈ q
    case pos => exact not_operatorsOnly_of_quote hm
    case neg => rwa [← hi.eq_of_not_mem hm]
  have hw : (splitWhitespace q).getLast? ≠ some ['*'] := by
    intro hl
    obtain ⟨word, hl', hw⟩ := exists_last_word hq.ne_nil hq.stop
    cases hl.symm.trans hl'
    rcases hw with hw | ⟨t, c, hc, ht, _⟩
    · exact (hq.start '*' (by rw [hw]; rfl)).right rfl
    · have hc' : '"' ∉ [c, '*'] := by
        intro hm
        cases hm
        case head       => cases hc
        case tail hm    => exact absurd (show '"' ∈ ['*'] from hm) (by decide)
      obtain ⟨t', ht'⟩ := (show Inserts s (t ++ [c, '*']) from ht ▸ hi).ending hc'
      exact hs.no_wildcard (by rw [ht', splitWhitespace_append hc, splitWhitespace_wildcard,
        List.getLast?_concat])
  have he : ¬endsWithWildcard q := fun he => hw (endsWithWildcard_getLast? he)
  have hst : Search.stripTrailingWildcard q = q := if_neg he
  refine ⟨?_, hu, ho, hw⟩
  rw [sanitizeQuery, sanitizeWith_eq, hq.trim, if_neg (not_or_intro hq.ne_nil hu), hq.cleaned,
    finish_clean hq.ne_nil (by rw [hst]; exact hq), hst, if_neg ho]
  exact congrArg some quoteHyphenatedTokens_idempotent

-- Texts with other words keep a wildcard at their end, or are rejected the next time.
theorem Clean.not_searchable (hs : ¬Searchable (splitWhitespace s)) : ¬isOperatorsOnly s ∧
    ((splitWhitespace (quoteHyphenatedTokens s)).getLast? = some ['*'] ∨
      isUnsearchable (quoteHyphenatedTokens s)) := by
  by_cases hl : (splitWhitespace s).getLast? = some ['*']
  case pos =>
    refine ⟨not_operatorsOnly_of_mem (List.mem_of_getLast? hl) (by decide), .inl ?_⟩
    obtain ⟨word, hl', hw⟩ := exists_last_word h.ne_nil h.stop
    cases hl.symm.trans hl'
    rcases hw with hw | ⟨t, c, hc, ht, _⟩
    · exact absurd rfl (h.start '*' (by rw [hw]; rfl)).right
    · obtain ⟨t', ht'⟩ := quoteHyphenatedTokens_wildcard (s := t) (isStop_of_whitespace hc)
      rw [ht, ht', splitWhitespace_append hc, splitWhitespace_wildcard, List.getLast?_concat]
  case neg =>
    obtain ⟨word, hw, hu⟩ : ∃ word, splitWhitespace s = [word] ∧ isUnsearchable word := by
      by_contra hn
      exact hs ⟨hl, fun word hw hu => hn ⟨word, hw, hu⟩⟩
    have hsw := h.eq_of_splitWhitespace hw
    subst hsw
    have hu' := hu
    simp only [isUnsearchable, Bool.and_eq_true, decide_eq_true_eq, List.all_eq_true] at hu'
    have hd : '-' ∉ s := fun hm => absurd (hu'.right _ hm) (by decide)
    have hq : quoteHyphenatedTokens s = s := if_neg hd
    obtain ⟨c, r, hr⟩ := List.exists_cons_of_ne_nil hu'.left
    have hn : ∀ c ∈ ['*', '.', '?', '!', '(', ')'], ∀ op ∈ booleanOperators,
        c.toLower ∉ toAsciiLowercase op := by
      simp only [List.forall_mem_cons, List.not_mem_nil, false_imp_iff, implies_true, and_true]
      decide
    have ho :=
      not_operator_of_mem (hr ▸ List.mem_cons_self) (hn c (hu'.right c (hr ▸ List.mem_cons_self)))
    exact ⟨not_operatorsOnly_of_mem (by rw [hw]; exact List.mem_cons_self) ho,
      .inr (by rw [hq]; exact hu)⟩

end

-- Sanitizing settles a query exactly if it is rejected at once, or if the words that remain of it
-- are searchable.
theorem settled_iff (query : Str) :
    Settled query ↔ isUnsearchable (trim query) ∨ Searchable (remainingWords query) := by
  have hr {strip : Str → Str} (h : trim query = [] ∨ isUnsearchable (trim query)) :
      sanitizeWith strip query = none := by
    rw [sanitizeWith_eq, if_pos h]
  have empty (h : splitWhitespace (cleaned query) = []) : Searchable (remainingWords query) := by
    rw [splitWhitespace_cleaned] at h
    have hw : remainingWords query = [] := by
      simp only [remainingWords, h]
      split <;> rfl
    rw [hw]
    exact ⟨nofun, nofun⟩
  by_cases hu : isUnsearchable (trim query)
  case pos => exact iff_of_true (.of_none (hr (.inr hu)) (hr (.inr hu))) (.inl hu)
  case neg =>
  by_cases hn : trim query = []
  case pos =>
    refine iff_of_true (.of_none (hr (.inl hn)) (hr (.inl hn))) (.inr (empty ?_))
    rw [cleaned, hn]
    show splitWhitespace (stripLeadingWildcards []) = []
    rw [stripLeadingWildcards]
    rfl
  case neg =>
  have hs {strip : Str → Str} : sanitizeWith strip query = finish strip (cleaned query) := by
    rw [sanitizeWith_eq, if_neg (not_or_intro hn hu)]
  by_cases hc : cleaned query = []
  case pos =>
    have hf {strip : Str → Str} : sanitizeWith strip query = none := by
      rw [hs, finish, if_pos hc]
    exact iff_of_true (.of_none hf hf) (.inr (empty (by rw [hc]; rfl)))
  case neg =>
  have hclean := (clean_cleaned hc).stripTrailingWildcard
  have hwords := splitWhitespace_stripTrailingWildcard hc
  have hdb : sanitizeQuery query = _ := hs.trans (finish_clean hc hclean)
  rw [or_iff_right hu, ← hwords]
  by_cases hsr : Searchable (splitWhitespace (stripTrailingWildcard (cleaned query)))
  case pos =>
    have he := fun he => hsr.no_wildcard (endsWithWildcard_getLast? he)
    have heq := stripTrailingWildcards_eq he
    have hcore : coreSanitizeQuery query = sanitizeQuery query := by
      rw [hdb, ← heq]
      exact hs.trans (finish_clean hc (by rw [heq]; exact hclean))
    refine iff_of_true ?_ hsr
    by_cases ho : isOperatorsOnly (stripTrailingWildcard (cleaned query))
    case pos =>
      rw [if_pos ho] at hdb
      exact .of_none hdb (hcore.trans hdb)
    case neg =>
      rw [if_neg ho] at hdb
      obtain ⟨hfix, hu, ho, hw⟩ := hclean.quoted hsr ho
      have hq := hclean.inserts quoteHyphenatedTokens_inserts
      refine ⟨?_, ?_, ?_, hcore⟩
      · intro q h
        cases hdb.symm.trans h
        exact hfix
      · intro q h
        cases hdb.symm.trans h
        rw [hq.trim]
        exact ⟨hq.ne_nil, hu, ho⟩
      · intro q h
        cases hdb.symm.trans h
        exact hw
  case neg =>
    refine iff_of_false (fun h => ?_) hsr
    obtain ⟨ho, hn⟩ := hclean.not_searchable hsr
    rw [if_neg ho] at hdb
    cases hn
    case inl hl => exact h.no_wildcard _ hdb hl
    case inr hu =>
      have hn := (h.searchable _ hdb).right.left
      rw [(hclean.inserts quoteHyphenatedTokens_inserts).trim] at hn
      exact hn hu

-- Only one of the two wildcards is stripped from the end, and the other copy strips both.
theorem not_settled_wildcards :
    sanitizeQuery "foo * *".toList = some "foo *".toList ∧
    sanitizeQuery "foo *".toList = some "foo".toList ∧
    coreSanitizeQuery "foo * *".toList = some "foo".toList ∧ ¬Settled "foo * *".toList := by
  have h : sanitizeQuery "foo * *".toList = some "foo *".toList := by decide +kernel
  have h' : sanitizeQuery "foo *".toList = some "foo".toList := by decide +kernel
  refine ⟨h, h', by decide +kernel, fun hs => ?_⟩
  cases (hs.fixed _ h).symm.trans h'

end Search
