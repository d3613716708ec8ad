import AgentMail.Pattern.Theorems.Normalize
import AgentMail.Search.Assistance

open Pattern

namespace Search

variable {s t rest current : Str} {ts : List Str} {inQuotes : Bool}

-- Whether the position after a text is in quotes.
def after (inQuotes : Bool) (s : Str) : Bool :=
  s.foldl (fun inQuotes c => if c = '"' then !inQuotes else inQuotes) inQuotes

-- Whitespace is found in quotes only.
def Unbroken : Bool → Str → Prop
  | _, []            => True
  | inQuotes, c :: s => (isWhitespace c → inQuotes) ∧ Unbroken (after inQuotes [c]) s

structure IsToken (t : Str) : Prop where
  ne_nil   : t ≠ []
  unbroken : Unbroken false t

-- The tokens of a query. Quotes may be left open by the last one only.
structure IsTokens (ts : List Str) : Prop where
  token  : ∀ t ∈ ts, IsToken t
  closed : ts.Pairwise fun t _ => after false t = false

theorem after_append : after inQuotes (s ++ t) = after (after inQuotes s) t := by
  simp [after]

theorem after_quote : after inQuotes ['"'] = !inQuotes := by
  simp [after]

theorem after_other {c : Char} (h : c ≠ '"') : after inQuotes [c] = inQuotes := by
  simp [after, h]

theorem unbroken_append :
    Unbroken inQuotes (s ++ t) ↔ Unbroken inQuotes s ∧ Unbroken (after inQuotes s) t := by
  induction s generalizing inQuotes
  case nil => simp [Unbroken, after]
  case cons c s hi =>
    have ha : after inQuotes (c :: s) = after (after inQuotes [c]) s := after_append (s := [c])
    rw [List.cons_append, Unbroken, Unbroken, hi, ha, and_assoc]

theorem Unbroken.of_append (h : Unbroken inQuotes (s ++ t)) : Unbroken inQuotes s :=
  (unbroken_append.mp h).left

theorem ne_quote_of_whitespace {c : Char} (h : isWhitespace c) : c ≠ '"' := by
  rintro rfl
  cases h

-- Splitting.

theorem splitTokens_append (h : Unbroken inQuotes s) :
    splitTokens (s ++ rest) current inQuotes =
      splitTokens rest (current ++ s) (after inQuotes s) := by
  induction s generalizing current inQuotes
  case nil => simp [after]
  case cons c s hi =>
    have ha : after inQuotes (c :: s) = after (after inQuotes [c]) s := after_append (s := [c])
    rw [List.cons_append, splitTokens, ha]
    by_cases hq : c = '"'
    case pos =>
      subst hq
      rw [if_pos rfl, ← after_quote, hi h.right]
      simp
    case neg =>
      have hw : ¬(isWhitespace c ∧ ¬inQuotes) := fun ⟨hw, hq⟩ => hq (h.left hw)
      have hi : splitTokens (s ++ rest) (current ++ [c]) (after inQuotes [c]) =
          splitTokens rest (current ++ [c] ++ s) (after (after inQuotes [c]) s) := hi h.right
      rw [if_neg hq, if_neg hw]
      rw [after_other hq] at hi ⊢
      simpa using hi

theorem splitQueryTokens_intercalate (h : IsTokens ts) :
    splitQueryTokens ([' '].intercalate ts) = ts := by
  induction ts
  case nil => rfl
  case cons t ts hi =>
    have ht := h.token t List.mem_cons_self
    have ⟨hc, hp⟩ := List.pairwise_cons.mp h.closed
    have hi := hi ⟨fun t hm => h.token t (List.mem_cons_of_mem _ hm), hp⟩
    unfold splitQueryTokens at hi ⊢
    match ts with
    | [] =>
      have hs : splitTokens (t ++ []) [] false = splitTokens [] ([] ++ t) (after false t) :=
        splitTokens_append ht.unbroken
      rw [List.append_nil, List.nil_append] at hs
      simp [hs, splitTokens, ht.ne_nil]
    | t₁ :: ts =>
      rw [List.intercalate_cons_cons, List.append_assoc, splitTokens_append ht.unbroken,
        hc t₁ List.mem_cons_self, List.singleton_append, splitTokens]
      have hs : isWhitespace ' ' ∧ ¬(false = true) := ⟨rfl, Bool.false_ne_true⟩
      rw [if_neg (by decide), if_pos hs, List.nil_append, if_neg ht.ne_nil, hi]

theorem isTokens_splitTokens (hu : Unbroken false current) (ha : after false current = inQuotes)
    (hn : current = [] → inQuotes = false) : IsTokens (splitTokens rest current inQuotes) := by
  induction rest generalizing current inQuotes
  case nil =>
    rw [splitTokens]
    split
    case isTrue     => exact ⟨nofun, .nil⟩
    case isFalse hc => exact ⟨by simpa using ⟨hc, hu⟩, List.pairwise_singleton ..⟩
  case cons c rest hi =>
    have push {inQuotes' : Bool} (hw : isWhitespace c →
        inQuotes) (ha' : after inQuotes [c] = inQuotes') :
        IsTokens (splitTokens rest (current ++ [c]) inQuotes') := by
      refine hi ?_ (by rw [after_append, ha, ha']) (by simp)
      rw [unbroken_append, ha]
      exact ⟨hu, hw, trivial⟩
    rw [splitTokens]
    split
    case isTrue hq =>
      subst hq
      exact push nofun after_quote
    case isFalse hq =>
      split
      case isFalse hw => exact push (by simpa using hw) (after_other hq)
      case isTrue hw  =>
        have hq : inQuotes = false := by simpa using hw.right
        have hi : IsTokens (splitTokens rest [] inQuotes) := hi trivial hq.symm fun _ => hq
        split
        case isTrue     => exact hi
        case isFalse hc =>
          exact ⟨List.forall_mem_cons.mpr ⟨⟨hc, hu⟩, hi.token⟩,
            List.pairwise_cons.mpr ⟨fun _ _ => ha.trans hq, hi.closed⟩⟩

theorem isTokens_splitQueryTokens : IsTokens (splitQueryTokens s) :=
  isTokens_splitTokens trivial rfl fun _ => rfl

theorem IsTokens.sublist {ts' : List Str} (h : IsTokens ts) (hs : ts'.Sublist ts) :
    IsTokens ts' where
  token t hm := h.token t (hs.subset hm)
  closed     := h.closed.sublist hs

-- Trimming.

theorem IsToken.head (h : IsToken t) : ∃ c t', t = c :: t' ∧ ¬isWhitespace c := by
  match t, h with
  | [], h     => exact absurd rfl h.ne_nil
  | c :: t, h => exact ⟨c, t, rfl, fun hw => Bool.false_ne_true (h.unbroken.left hw)⟩

theorem IsToken.trimEnd (h : IsToken t) : IsToken (trimEnd t) where
  ne_nil := by
    have ⟨c, t', ht, hc⟩ := h.head
    rw [ht, trimEnd_cons hc]
    nofun
  unbroken := by
    have ⟨u, hu⟩ := trimEnd_prefix_self (s := t)
    have h := h.unbroken
    rw [← hu] at h
    exact h.of_append

-- Outside of quotes, tokens do not end with whitespace.
theorem IsToken.trimEnd_eq (h : IsToken t) (hc : after false t = false) :
    Pattern.trimEnd t = t := by
  have ⟨s, c, ht⟩ := (List.eq_nil_or_concat t).resolve_left h.ne_nil
  rw [List.concat_eq_append] at ht
  have hw : ¬isWhitespace c := by
    intro hw
    have hu := h.unbroken
    rw [ht, unbroken_append] at hu
    rw [ht, after_append, after_other (ne_quote_of_whitespace hw), hu.right.left hw] at hc
    cases hc
  have hs : Pattern.trimEnd [c] = [c] := trimEnd_cons hw
  rw [ht, trimEnd_append_of_ne_nil (by rw [hs]; nofun), hs]

theorem IsTokens.trimLast_eq (h : IsTokens ts) : trimLast ts = ts.map trimEnd := by
  fun_induction trimLast ts
  case case1 => rfl
  case case2 => rfl
  case case3 t t₁ ts hi =>
    obtain ⟨hc, hp⟩ := List.pairwise_cons.mp h.closed
    have ht := h.token t List.mem_cons_self
    rw [List.map_cons, hi ⟨fun t hm => h.token t (List.mem_cons_of_mem _ hm), hp⟩,
      ht.trimEnd_eq (hc t₁ List.mem_cons_self)]

theorem IsTokens.trimLast (h : IsTokens ts) : IsTokens (trimLast ts) := by
  rw [h.trimLast_eq]
  constructor
  case token =>
    intro t hm
    have ⟨t', hm', ht⟩ := List.mem_map.mp hm
    exact ht ▸ (h.token t' hm').trimEnd
  case closed =>
    rw [List.pairwise_map]
    refine h.closed.imp_of_mem fun hm _ hc => ?_
    rw [(h.token _ hm).trimEnd_eq hc, hc]

theorem IsTokens.trimLast_trimLast (h : IsTokens ts) :
    Pattern.trimLast (Pattern.trimLast ts) = Pattern.trimLast ts := by
  rw [h.trimLast.trimLast_eq, h.trimLast_eq, List.map_map]
  exact List.map_congr_left fun t _ => trimEnd_trimEnd

theorem intercalate_head (h : IsTokens (t :: ts)) :
    ∃ c r, [' '].intercalate (t :: ts) = c :: r ∧ ¬isWhitespace c := by
  have ⟨c, t', ht, hc⟩ := (h.token t List.mem_cons_self).head
  cases ts
  case nil  => exact ⟨c, t', by simp [ht], hc⟩
  case cons => exact ⟨c, _, by rw [List.intercalate_cons_cons, ht]; rfl, hc⟩

-- Trimming the joined tokens trims the last one of them.
theorem IsTokens.trim_intercalate (h : IsTokens ts) :
    trim ([' '].intercalate ts) = [' '].intercalate (Pattern.trimLast ts) := by
  have hs : trimStart ([' '].intercalate ts) = [' '].intercalate ts := by
    cases ts
    case nil => rfl
    case cons t ts =>
      obtain ⟨c, r, hr, hc⟩ := intercalate_head h
      rw [hr]
      exact List.dropWhile_cons_of_neg hc
  rw [trim_eq, hs]
  clear hs
  fun_induction Pattern.trimLast ts
  case case1 => rfl
  case case2 => simp
  case case3 t t₁ ts hi =>
    have h₁ : IsTokens (t₁ :: ts) := h.sublist (List.sublist_cons_self ..)
    have hi := hi h₁
    obtain ⟨c, r, hr, hc⟩ := intercalate_head h₁
    have hn : trimEnd ([' '].intercalate (t₁ :: ts)) ≠ [] := by
      rw [hr, trimEnd_cons hc]
      rintro ⟨⟩
    obtain ⟨p, ps, hp⟩ : ∃ p ps, Pattern.trimLast (t₁ :: ts) = p :: ps := by
      cases ts <;> exact ⟨_, _, rfl⟩
    rw [List.intercalate_cons_cons, trimEnd_append_of_ne_nil hn, hi, hp, List.intercalate_cons_cons]

-- Parsing.

theorem normalizeHintValue_trimEnd : normalizeHintValue (trimEnd s) = normalizeHintValue s := by
  simp only [normalizeHintValue, trim_trimEnd]

theorem splitColon_append (h : ':' ∉ s) : splitColon (s ++ ':' :: t) = some (s, t) := by
  have hp : ∀ c ∈ s, (decide (c ≠ ':')) = true := fun c hc => by
    simp only [decide_eq_true_eq]
    rintro rfl
    exact h hc
  rw [splitColon, if_pos (by simp), List.takeWhile_append_of_pos hp,
    List.dropWhile_append_of_pos hp]
  simp

theorem splitColon_trimEnd :
    splitColon (trimEnd t) = (splitColon t).map fun (field, value) => (field, trimEnd value) := by
  by_cases h : ':' ∈ t
  case neg =>
    have h' : ':' ∉ trimEnd t := fun hm => h (trimEnd_prefix_self.subset hm)
    simp [splitColon, h, h']
  case pos =>
    have ⟨field, value, ht, hf⟩ := List.eq_append_cons_of_mem h
    have hc : trimEnd (':' :: value) = ':' :: trimEnd value := trimEnd_cons (by decide)
    rw [ht, trimEnd_append_of_ne_nil (by rw [hc]; nofun), hc, splitColon_append hf,
      splitColon_append hf]
    rfl

def QueryToken.isHint : QueryToken → Bool
  | hint _ => true
  | _      => false

def DidYouMeanHint.trimmed (hint : DidYouMeanHint) : DidYouMeanHint :=
  { hint with token := trimEnd hint.token }

def QueryToken.trimmed : QueryToken → QueryToken
  | typo suggestion => typo suggestion.trimmed
  | token           => token

section

variable {normalizeDatetimeHint : Str → HintTimeBoundary → Option Str}

-- Whitespace at the end of a token does not matter for what it is.
theorem parseToken_trimEnd :
    parseToken normalizeDatetimeHint (trimEnd t) =
      (parseToken normalizeDatetimeHint t).trimmed := by
  unfold parseToken
  rw [splitColon_trimEnd]
  cases splitColon t
  case none => rfl
  case some split =>
    have ⟨field, value⟩ := split
    simp only [Option.map_some, normalizeHintValue_trimEnd, trim_trimEnd]
    split
    case isTrue  => rfl
    case isFalse => cases normalizeHintField field <;> cases suggestHintField field <;> rfl

theorem token_of_typo {suggestion : DidYouMeanHint}
    (h : parseToken normalizeDatetimeHint t = .typo suggestion) : suggestion.token = t := by
  unfold parseToken at h
  cases hs : splitColon t
  case none => simp [hs] at h
  case some split =>
    have ⟨field, value⟩ := split
    simp only [hs] at h
    split at h
    case isTrue  => cases h
    case isFalse =>
      split at h
      case h_1 => cases h
      case h_2 => cases h; rfl
      case h_3 => cases h

variable (normalizeDatetimeHint)

-- The tokens that are not recognised as field hints.
def plainTokens (rawQuery : Str) : List Str :=
  (splitQueryTokens rawQuery).filter fun token => !(parseToken normalizeDatetimeHint token).isHint

-- The suggestions of tokens.
def suggestions (tokens : List Str) : List DidYouMeanHint :=
  tokens.filterMap fun token =>
    match parseToken normalizeDatetimeHint token with
    | .typo suggestion => some suggestion
    | _                => none

theorem isTokens_plainTokens {rawQuery : Str} :
    IsTokens (plainTokens normalizeDatetimeHint rawQuery) :=
  isTokens_splitQueryTokens.sublist List.filter_sublist

theorem queryText_eq (rawQuery : Str) :
    (parseQueryAssistance normalizeDatetimeHint rawQuery).queryText =
      [' '].intercalate (trimLast (plainTokens normalizeDatetimeHint rawQuery)) := by
  rw [← (isTokens_plainTokens normalizeDatetimeHint).trim_intercalate]
  show trim ([' '].intercalate _) = _
  congr 2
  unfold plainTokens
  induction splitQueryTokens rawQuery
  case nil => rfl
  case cons token tokens hi =>
    rw [List.map_cons, List.filterMap_cons, List.filter_cons, hi]
    cases parseToken normalizeDatetimeHint token <;> rfl

theorem didYouMean_eq (rawQuery : Str) :
    (parseQueryAssistance normalizeDatetimeHint rawQuery).didYouMean =
      suggestions normalizeDatetimeHint (plainTokens normalizeDatetimeHint rawQuery) := by
  unfold parseQueryAssistance plainTokens suggestions
  dsimp only
  induction splitQueryTokens rawQuery
  case nil => rfl
  case cons token tokens hi =>
    rw [List.map_cons, List.filterMap_cons, List.filter_cons, hi]
    cases h : parseToken normalizeDatetimeHint token <;> simp [QueryToken.isHint, h]

theorem appliedFilterHints_eq_nil {rawQuery : Str}
    (h : plainTokens normalizeDatetimeHint rawQuery = splitQueryTokens rawQuery) :
    (parseQueryAssistance normalizeDatetimeHint rawQuery).appliedFilterHints = [] := by
  unfold parseQueryAssistance
  dsimp only
  rw [List.filterMap_eq_nil_iff]
  intro token hm
  have ⟨t, ht, he⟩ := List.mem_map.mp hm
  have hp := List.filter_eq_self.mp h t ht
  subst he
  cases hq : parseToken normalizeDatetimeHint t <;> simp_all [QueryToken.isHint]

def trimLastToken : List DidYouMeanHint → List DidYouMeanHint
  | []                    => []
  | [hint]                => [hint.trimmed]
  | hint :: hint₁ :: hints => hint :: trimLastToken (hint₁ :: hints)

theorem suggestions_map_trimEnd :
    suggestions normalizeDatetimeHint (ts.map trimEnd) =
      (suggestions normalizeDatetimeHint ts).map DidYouMeanHint.trimmed := by
  unfold suggestions
  rw [List.filterMap_map, List.map_filterMap]
  congr 1
  funext token
  rw [Function.comp_apply, parseToken_trimEnd]
  cases parseToken normalizeDatetimeHint token <;> rfl

theorem trimLastToken_suggestions (h : IsTokens ts) :
    trimLastToken (suggestions normalizeDatetimeHint ts) =
      (suggestions normalizeDatetimeHint ts).map DidYouMeanHint.trimmed := by
  have hs : (suggestions normalizeDatetimeHint ts).Pairwise fun hint _ => hint.trimmed = hint := by
    refine List.Pairwise.filterMap _ (fun t t' (hc : trimEnd t = t) hint hm hint' _ => ?_)
      (h.closed.imp_of_mem fun hm _ hc => (h.token _ hm).trimEnd_eq hc)
    split at hm
    case h_2 => cases hm
    case h_1 hp =>
      cases hm
      rw [← token_of_typo hp] at hc
      rw [DidYouMeanHint.trimmed, hc]
  generalize suggestions normalizeDatetimeHint ts = hints at hs
  fun_induction trimLastToken hints
  case case1 => rfl
  case case2 => rfl
  case case3 hint hint₁ hints hi =>
    have ⟨hc, hp⟩ := List.pairwise_cons.mp hs
    rw [List.map_cons, hi hp, hc hint₁ List.mem_cons_self]

-- What is left of a query when its hints have been removed is split into its plain tokens again, of
-- which none is a hint.
theorem parseQueryAssistance_idempotent (rawQuery : Str) :
    let assistance := parseQueryAssistance normalizeDatetimeHint rawQuery
    let again      := parseQueryAssistance normalizeDatetimeHint assistance.queryText
    again.appliedFilterHints = [] ∧
    again.didYouMean = trimLastToken assistance.didYouMean ∧
    again.queryText = assistance.queryText ∧
    splitQueryTokens assistance.queryText = trimLast
      (plainTokens normalizeDatetimeHint rawQuery) := by
  intro assistance again
  have ht : IsTokens (plainTokens normalizeDatetimeHint rawQuery) :=
    isTokens_plainTokens normalizeDatetimeHint
  have hs : splitQueryTokens assistance.queryText =
      trimLast (plainTokens normalizeDatetimeHint rawQuery) := by
    show splitQueryTokens (parseQueryAssistance normalizeDatetimeHint rawQuery).queryText = _
    rw [queryText_eq, splitQueryTokens_intercalate ht.trimLast]
  have hp : plainTokens normalizeDatetimeHint assistance.queryText =
      splitQueryTokens assistance.queryText := by
    rw [plainTokens, hs, ht.trimLast_eq, List.filter_eq_self]
    intro t' hm
    have ⟨t, hm, he⟩ := List.mem_map.mp hm
    have hn := (List.mem_filter.mp hm).right
    rw [← he, parseToken_trimEnd]
    cases hq :
      parseToken normalizeDatetimeHint t <;> simp_all [QueryToken.isHint, QueryToken.trimmed]
  refine ⟨appliedFilterHints_eq_nil normalizeDatetimeHint hp, ?_, ?_, hs⟩
  · show (parseQueryAssistance normalizeDatetimeHint assistance.queryText).didYouMean =
      trimLastToken (parseQueryAssistance normalizeDatetimeHint rawQuery).didYouMean
    rw [didYouMean_eq, didYouMean_eq, hp, hs, ht.trimLast_eq, suggestions_map_trimEnd,
      trimLastToken_suggestions normalizeDatetimeHint ht]
  · show (parseQueryAssistance normalizeDatetimeHint assistance.queryText).queryText =
      (parseQueryAssistance normalizeDatetimeHint rawQuery).queryText
    rw [queryText_eq, hp, hs, ht.trimLast_trimLast, ← queryText_eq]

end

end Search
