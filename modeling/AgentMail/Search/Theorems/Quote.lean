import AgentMail.Search.Sanitize

open Pattern (Str)

namespace Search

variable {s t r q token rest : Str} {inQuotes : Bool} {c : Char}

-- Hyphenated tokens.

theorem tokenSpan_append (s : Str) : (tokenSpan s).fst ++ (tokenSpan s).snd = s := by
  induction s
  case nil => rfl
  case cons c s hi =>
    rw [tokenSpan]
    split
    case isTrue  => exact congrArg (c :: ·) hi
    case isFalse => rfl

theorem startsAlphanumeric_append (h : startsAlphanumeric s) : startsAlphanumeric (s ++ t) := by
  cases s
  case nil  => cases h
  case cons => exact h

theorem startsAlphanumeric_tokenSpan (h : startsAlphanumeric s) :
    startsAlphanumeric (tokenSpan s).fst := by
  cases s
  case nil      => cases h
  case cons c s =>
    rw [tokenSpan, if_pos (.inl h)]
    exact h

-- A span is the span of itself,
theorem tokenSpan_self (s : Str) : (tokenSpan (tokenSpan s).fst).snd = [] := by
  induction s
  case nil => rfl
  case cons c s hi =>
    rw [tokenSpan]
    split
    case isFalse => rfl
    case isTrue h =>
      have h' : c.isAlphanum ∨ c = '-' ∧ startsAlphanumeric (tokenSpan s).fst :=
        h.imp_right (And.imp_right startsAlphanumeric_tokenSpan)
      rw [tokenSpan, if_pos h']
      exact hi

-- and it is continued by the span of what follows.
theorem tokenSpan_append_of_self (h : (tokenSpan token).snd = []) :
    tokenSpan (token ++ t) = (token ++ (tokenSpan t).fst, (tokenSpan t).snd) := by
  induction token
  case nil => rfl
  case cons c token hi =>
    rw [tokenSpan] at h
    split at h
    case isFalse => cases h
    case isTrue hc =>
      have hc' : c.isAlphanum ∨ c = '-' ∧ startsAlphanumeric (token ++ t) :=
        hc.imp_right (And.imp_right startsAlphanumeric_append)
      rw [List.cons_append, tokenSpan, if_pos hc', hi h]
      rfl

theorem tokenSpan_snd (s : Str) : (tokenSpan (tokenSpan s).snd).fst = [] := by
  induction s
  case nil => rfl
  case cons c s hi =>
    rw [tokenSpan]
    split
    case isTrue    => exact hi
    case isFalse h => rw [tokenSpan, if_neg h]

theorem of_matchHyphenated (h : matchHyphenated s = some (token, rest)) :
    tokenSpan s = (token, rest) ∧ startsAlphanumeric s ∧ '-' ∈ token := by
  simp only [matchHyphenated] at h
  split at h
  case isFalse   => cases h
  case isTrue hm =>
    cases h
    exact ⟨rfl, hm⟩

theorem matchHyphenated_eq_none (h : ¬(startsAlphanumeric s ∧ '-' ∈ (tokenSpan s).fst)) :
    matchHyphenated s = none := by
  simp only [matchHyphenated]
  exact if_neg h

theorem quoteFrom_of_none (h : matchHyphenated (c :: s) = none) :
    quoteFrom (c :: s) inQuotes = c :: quoteFrom s (if c = '"' then !inQuotes else inQuotes) := by
  rw [quoteFrom]
  split
  case h_1 h' => cases h.symm.trans h'
  case h_2    => rfl

theorem quoteFrom_quote : quoteFrom ('"' :: s) inQuotes = '"' :: quoteFrom s !inQuotes :=
  quoteFrom_of_none (matchHyphenated_eq_none fun h => by cases h.left)

theorem quoteFrom_of_some (h : matchHyphenated s = some (token, rest)) : quoteFrom s inQuotes =
    (if inQuotes then token else '"' :: token ++ ['"']) ++ quoteFrom rest inQuotes := by
  cases s
  case nil => cases h
  case cons c s =>
    rw [quoteFrom]
    split
    case h_1 h' =>
      cases h.symm.trans h'
      rfl
    case h_2 h' => cases h.symm.trans h'

-- Texts do not start with a letter or a digit because quotes are added.
theorem startsAlphanumeric_quoteFrom (h : startsAlphanumeric (quoteFrom s inQuotes)) :
    startsAlphanumeric s := by
  cases s
  case nil =>
    rw [quoteFrom] at h
    cases h
  case cons c s =>
    cases hm : matchHyphenated (c :: s)
    case none =>
      rw [quoteFrom_of_none hm] at h
      exact h
    case some m =>
      obtain ⟨token, rest⟩ := m
      exact (of_matchHyphenated hm).right.left

theorem tokenSpan_quoteFrom (h : '-' ∉ (tokenSpan s).fst) :
    (tokenSpan (quoteFrom s inQuotes)).fst = (tokenSpan s).fst := by
  induction s generalizing inQuotes
  case nil => rw [quoteFrom]
  case cons c s hi =>
    rw [quoteFrom_of_none (matchHyphenated_eq_none fun hm => h hm.right)]
    generalize (if c = '"' then !inQuotes else inQuotes) = inQuotes
    rw [tokenSpan] at h ⊢
    rw [tokenSpan]
    by_cases hc : c.isAlphanum
    case pos =>
      rw [if_pos (.inl hc)] at h ⊢
      rw [if_pos (.inl hc)]
      exact congrArg (c :: ·) (hi fun hm => h (List.mem_cons_of_mem _ hm))
    case neg =>
      have hs : ¬(c = '-' ∧ startsAlphanumeric s) := by
        rintro ⟨hd, hs⟩
        rw [if_pos (.inr ⟨hd, hs⟩), hd] at h
        exact h List.mem_cons_self
      rw [if_neg (not_or_intro hc hs), if_neg]
      exact not_or_intro hc (mt (And.imp_right startsAlphanumeric_quoteFrom) hs)

-- A token is found again if what follows does not continue it.
theorem quoteFrom_token (h : matchHyphenated s = some (token, rest)) (ht : (tokenSpan t).fst = []) :
    quoteFrom (token ++ t) inQuotes =
      (if inQuotes then token else '"' :: token ++ ['"']) ++ quoteFrom t inQuotes := by
  have ⟨hs, ha, hd⟩ := of_matchHyphenated h
  have hs : (tokenSpan s).fst = token := by rw [hs]
  apply quoteFrom_of_some
  have hself : (tokenSpan token).snd = [] := hs ▸ tokenSpan_self s
  have hspan : tokenSpan (token ++ t) = (token, t) := by
    have := tokenSpan_append t
    rw [ht, List.nil_append] at this
    rw [tokenSpan_append_of_self hself, ht, List.append_nil, this]
  have ha : startsAlphanumeric (token ++ t) :=
    startsAlphanumeric_append (hs ▸ startsAlphanumeric_tokenSpan ha)
  simp only [matchHyphenated, hspan]
  exact if_pos ⟨ha, hd⟩

-- Tokens that have been quoted are in quotes.
theorem quoteFrom_quoteFrom : quoteFrom (quoteFrom s inQuotes) inQuotes = quoteFrom s inQuotes := by
  fun_induction quoteFrom s inQuotes
  case case1 => rw [quoteFrom]
  case case2 c s inQuotes token rest h hi =>
    have hr : (tokenSpan (quoteFrom rest inQuotes)).fst = [] := by
      have hs := tokenSpan_snd (c :: s)
      rw [(of_matchHyphenated h).left] at hs
      rw [tokenSpan_quoteFrom (by rw [hs]; exact List.not_mem_nil), hs]
    cases inQuotes
    case true =>
      rw [if_pos rfl, quoteFrom_token h hr, if_pos rfl, hi]
    case false =>
      have hq : (tokenSpan ('"' :: quoteFrom rest false)).fst = [] := rfl
      simp only [Bool.false_eq_true, if_false, List.cons_append, List.append_assoc, List.nil_append]
      rw [quoteFrom_quote, Bool.not_false, quoteFrom_token h hq, if_pos rfl, quoteFrom_quote,
        Bool.not_true, hi]
  case case3 c s inQuotes h hi =>
    have hm : matchHyphenated (c :: quoteFrom s (if c = '"' then !inQuotes else inQuotes)) =
        none := by
      refine matchHyphenated_eq_none fun ⟨ha, hd⟩ => ?_
      have hd' : '-' ∉ (tokenSpan (c :: s)).fst := by
        intro hd'
        simp only [matchHyphenated] at h
        rw [if_pos ⟨ha, hd'⟩] at h
        cases h
      rw [← quoteFrom_of_none h, tokenSpan_quoteFrom hd'] at hd
      exact hd' hd
    simp only [dite_eq_ite] at hi
    rw [quoteFrom_of_none hm, hi]

-- Characters that no token has, and that are no quotes, separate what is quoted.

def isStop (c : Char) : Bool :=
  !c.isAlphanum && c ≠ '-' && c ≠ '"'

theorem tokenSpan_stop (hc : isStop c) :
    tokenSpan (s ++ c :: t) = ((tokenSpan s).fst, (tokenSpan s).snd ++ c :: t) := by
  simp only [isStop, Bool.and_eq_true, Bool.not_eq_true', decide_eq_true_eq] at hc
  induction s
  case nil =>
    have hn : ¬(c.isAlphanum ∨ c = '-' ∧ startsAlphanumeric t) := by simp [hc]
    show tokenSpan (c :: t) = ([], c :: t)
    rw [tokenSpan, if_neg hn]
  case cons d s hi =>
    have hs : startsAlphanumeric (s ++ c :: t) = startsAlphanumeric s := by
      cases s
      case nil  => exact hc.left.left
      case cons => rfl
    rw [List.cons_append, tokenSpan, tokenSpan, hs, hi]
    split <;> rfl

theorem matchHyphenated_stop (hc : isStop c) : matchHyphenated (s ++ c :: t) =
    (matchHyphenated s).map fun (token, rest) => (token, rest ++ c :: t) := by
  have hs : startsAlphanumeric (s ++ c :: t) = startsAlphanumeric s := by
    cases s
    case cons => rfl
    case nil  =>
      simp only [isStop, Bool.and_eq_true, Bool.not_eq_true'] at hc
      exact hc.left.left
  simp only [matchHyphenated, tokenSpan_stop hc, hs]
  split <;> rfl

theorem quoteFrom_stop (hc : isStop c) : ∃ inQuotes', quoteFrom (s ++ c :: t) inQuotes =
    quoteFrom s inQuotes ++ c :: quoteFrom t inQuotes' := by
  fun_induction quoteFrom s inQuotes
  case case1 inQuotes =>
    have hm := matchHyphenated_stop (s := []) (t := t) hc
    exact ⟨_, quoteFrom_of_none hm⟩
  case case2 d s inQuotes token rest h hi =>
    have ⟨inQuotes', hi⟩ := hi
    have hm := matchHyphenated_stop (s := d :: s) (t := t) hc
    rw [h] at hm
    exact ⟨inQuotes', by rw [quoteFrom_of_some hm, hi, List.append_assoc]⟩
  case case3 d s inQuotes h hi =>
    have ⟨inQuotes', hi⟩ := hi
    have hm := matchHyphenated_stop (s := d :: s) (t := t) hc
    rw [h] at hm
    simp only [dite_eq_ite] at hi
    rw [List.cons_append] at hm ⊢
    exact ⟨inQuotes', by rw [quoteFrom_of_none hm, hi]; rfl⟩

-- Quoting inserts quotes, and nothing else.
inductive Inserts : Str → Str → Prop
  | nil : Inserts [] []
  | keep {c : Char} {s t : Str} : Inserts s t → Inserts (c :: s) (c :: t)
  | quote {s t : Str} : Inserts s t → Inserts s ('"' :: t)

namespace Inserts

theorem refl (s : Str) : Inserts s s := by
  induction s
  case nil        => exact .nil
  case cons hi    => exact .keep hi

theorem append {s' t' : Str} (h : Inserts s t) (h' : Inserts s' t') :
    Inserts (s ++ s') (t ++ t') := by
  induction h
  case nil        => exact h'
  case keep hi    => exact .keep hi
  case quote hi   => exact .quote hi

theorem mem (h : Inserts s t) (hc : c ∈ t) : c = '"' ∨ c ∈ s := by
  induction h
  case nil => cases hc
  case keep hi =>
    cases List.mem_cons.mp hc
    case inl hc => exact .inr (hc ▸ List.mem_cons_self)
    case inr hc => exact (hi hc).imp_right (List.mem_cons_of_mem _)
  case quote hi =>
    cases List.mem_cons.mp hc
    case inl hc => exact .inl hc
    case inr hc => exact hi hc

theorem subset (h : Inserts s t) : s ⊆ t := by
  induction h
  case nil      => exact List.Subset.refl _
  case keep hi  => exact List.cons_subset_cons _ hi
  case quote hi => exact List.subset_cons_of_subset _ hi

theorem eq_of_not_mem (h : Inserts s t) (hq : '"' ∉ t) : s = t := by
  induction h
  case nil      => rfl
  case keep hi  => rw [hi fun hm => hq (List.mem_cons_of_mem _ hm)]
  case quote hi => exact absurd List.mem_cons_self hq

theorem head (h : Inserts s (c :: t)) (hc : c ≠ '"') : ∃ s', s = c :: s' ∧ Inserts s' t := by
  cases h
  case keep h  => exact ⟨_, rfl, h⟩
  case quote h => exact absurd rfl hc

theorem split (h : Inserts s (t ++ q)) : ∃ s' r, s = s' ++ r ∧ Inserts s' t ∧ Inserts r q := by
  induction t generalizing s
  case nil => exact ⟨[], s, rfl, .nil, h⟩
  case cons c t hi =>
    cases h
    case keep h =>
      have ⟨s', r, hs, ht, hr⟩ := hi h
      exact ⟨c :: s', r, by rw [hs]; rfl, .keep ht, hr⟩
    case quote h =>
      have ⟨s', r, hs, ht, hr⟩ := hi h
      exact ⟨s', r, hs, .quote ht, hr⟩

-- An ending without quotes is the ending of the original text.
theorem ending {w : Str} (h : Inserts s (t ++ w)) (hw : '"' ∉ w) : ∃ s', s = s' ++ w := by
  have ⟨s', r, hs, _, hr⟩ := h.split
  exact ⟨s', by rw [hs, hr.eq_of_not_mem hw]⟩

end Inserts

theorem quoteFrom_inserts : Inserts s (quoteFrom s inQuotes) := by
  fun_induction quoteFrom s inQuotes
  case case1 => exact .nil
  case case2 c s inQuotes token rest h hi =>
    have hs := tokenSpan_append (c :: s)
    rw [(of_matchHyphenated h).left] at hs
    rw [← hs]
    refine .append ?_ hi
    split
    case isTrue  => exact .refl _
    case isFalse =>
      have hq : Inserts [] ['"'] := .quote .nil
      have h := (Inserts.refl token).append hq
      rw [List.append_nil] at h
      exact .quote h
  case case3 hi =>
    simp only [dite_eq_ite] at hi
    exact .keep hi

theorem quoteHyphenatedTokens_inserts : Inserts s (quoteHyphenatedTokens s) := by
  unfold quoteHyphenatedTokens
  split
  case isTrue  => exact quoteFrom_inserts
  case isFalse => exact .refl _

theorem quoteHyphenatedTokens_idempotent :
    quoteHyphenatedTokens (quoteHyphenatedTokens s) = quoteHyphenatedTokens s := by
  by_cases h : '-' ∈ s
  case neg =>
    have hs : quoteHyphenatedTokens s = s := if_neg h
    rw [hs, hs]
  case pos =>
    have hm := quoteHyphenatedTokens_inserts.subset h
    have hs : quoteHyphenatedTokens s = quoteFrom s false := if_pos h
    rw [hs] at hm ⊢
    rw [quoteHyphenatedTokens, if_pos hm, quoteFrom_quoteFrom]

theorem quoteHyphenatedTokens_wildcard (hc : isStop c) :
    ∃ s', quoteHyphenatedTokens (s ++ [c, '*']) = s' ++ [c, '*'] := by
  unfold quoteHyphenatedTokens
  split
  case isFalse => exact ⟨s, rfl⟩
  case isTrue  =>
    have ⟨inQuotes, h⟩ : ∃ inQuotes, quoteFrom (s ++ c :: ['*']) false =
        quoteFrom s false ++ c :: quoteFrom ['*'] inQuotes := quoteFrom_stop hc
    have hw : quoteFrom ['*'] inQuotes = ['*'] := by
      rw [quoteFrom_of_none rfl, quoteFrom]
    exact ⟨quoteFrom s false, by rw [h, hw]⟩

end Search
