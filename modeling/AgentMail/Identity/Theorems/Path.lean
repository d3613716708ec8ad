import AgentMail.Identity.Basic
import AgentMail.Pattern.Theorems.Text

open Pattern (Str pushComponent)

namespace Identity

variable {s t owner repo last suffix : Str} {c : Char}

theorem IsPart.slash (h : IsPart s) : '/' ∉ s :=
  fun hc => (h.plain _ hc).left rfl

theorem collapseSlashes_of_not_infix (h : ¬['/', '/'] <:+: s) : collapseSlashes s = s := by
  rw [collapseSlashes, dif_neg h]

-- A pattern does not begin in a name without its first character.
theorem not_infix_append {pattern : Str} (hs : c ∉ s) (ht : ¬c :: pattern <:+: t) :
    ¬c :: pattern <:+: s ++ t := by
  induction s
  case nil => exact ht
  case cons d s hi =>
    have ⟨hc, hs⟩ := not_or.mp (mt List.mem_cons.mpr hs)
    intro h
    cases List.infix_cons_iff.mp h
    case inl h => exact hc (List.cons_prefix_cons.mp h).left
    case inr h => exact hi hs h

theorem not_infix_slash_cons (hs : s.head? ≠ some '/') (h : ¬['/', '/'] <:+: s) :
    ¬['/', '/'] <:+: '/' :: s := by
  intro hi
  cases List.infix_cons_iff.mp hi
  case inl hp =>
    obtain ⟨t, ht⟩ := (List.cons_prefix_cons.mp hp).right
    exact hs (by rw [← ht]; rfl)
  case inr hi => exact h hi

section Extension

theorem extension_append (hs : s ≠ []) (ht : '.' ∉ t) (hn : s ++ '.' :: t ≠ ['.', '.']) :
    extension (s ++ '.' :: t) = some t := by
  have hr : (s ++ '.' :: t).reverse = t.reverse ++ '.' :: s.reverse := by simp
  have hall : ∀ c ∈ t.reverse, decide (c ≠ '.') = true := by
    intro c hc
    exact decide_eq_true fun h => ht (h ▸ List.mem_reverse.mp hc)
  have hd : (s ++ '.' :: t).reverse.dropWhile (· ≠ '.') = '.' :: s.reverse := by
    rw [hr, List.dropWhile_append_of_pos hall, List.dropWhile_cons_of_neg (by simp)]
  have htake : (s ++ '.' :: t).reverse.takeWhile (· ≠ '.') = t.reverse := by
    rw [hr, List.takeWhile_append_of_pos hall, List.takeWhile_cons_of_neg (by simp),
      List.append_nil]
  rw [extension, hd, htake]
  cases hs' : s.reverse
  case nil => exact (hs (List.reverse_eq_nil_iff.mp hs')).elim
  case cons => simp [hn]

theorem exists_of_extension (h : extension s = some t) : ∃ stem, s = stem ++ '.' :: t := by
  rw [extension] at h
  split at h
  case h_2 => cases h
  case h_1 c d rest hd =>
    split_ifs at h
    have hc : c = '.' := by
      have hn :=
        List.head_dropWhile_not (fun x => decide (x ≠ '.')) (hd ▸ List.cons_ne_nil c (d :: rest))
      simp only [hd, List.head_cons] at hn
      exact of_not_not (of_decide_eq_false hn)
    have hs := List.takeWhile_append_dropWhile (p := fun x => decide (x ≠ '.')) (l := s.reverse)
    refine ⟨(d :: rest).reverse, ?_⟩
    rw [← List.reverse_reverse s, ← hs, hd, hc, ← Option.some.inj h]
    simp

theorem stripGit_append (hs : s ≠ []) : stripGit (s ++ ".git".toList) = s := by
  have hn : s ++ '.' :: "git".toList ≠ ['.', '.'] := fun h => by simpa using congrArg List.length h
  have he : extension (s ++ ".git".toList) = some "git".toList := extension_append hs (by decide) hn
  rw [stripGit, he, Option.any_some, if_pos (by decide), List.length_append]
  exact List.take_left

theorem stripGit_of_not_suffix (h : ¬".git".toList <:+ s.map Char.toLower) : stripGit s = s := by
  refine if_neg fun hg => h ?_
  cases he : extension s
  case none =>
    rw [he] at hg
    cases hg
  case some ext =>
    rw [he] at hg
    have ⟨stem, hs⟩ := exists_of_extension he
    refine ⟨stem.map Char.toLower, ?_⟩
    rw [hs, List.map_append, List.map_cons, of_decide_eq_true hg]
    rfl

end Extension

-- The last part of the path, with or without the suffix.
structure IsLast (s : Str) : Prop where
  nonempty : s ≠ []
  plain    : '/' ∉ s ∧ '\\' ∉ s
  no_dots  : s ≠ ['.'] ∧ s ≠ ['.', '.']

theorem IsPart.isLast (h : IsPart s) : IsLast s where
  nonempty := h.nonempty
  plain    := ⟨h.slash, fun hc => (h.plain _ hc).right.left rfl⟩
  no_dots  := h.no_dots

theorem IsPart.isLast_git (h : IsPart s) : IsLast (s ++ ".git".toList) where
  nonempty := by simp
  plain    := by
    have h := h.isLast.plain
    simp [h]
  no_dots  := by constructor <;> exact fun hs => by simpa using congrArg List.length hs

theorem pushComponent_of_isLast (h : IsLast s) (parts : List Str) :
    pushComponent parts s = parts ++ [s] := by
  rw [pushComponent, if_neg (not_or.mpr ⟨h.nonempty, h.no_dots.left⟩), if_neg h.no_dots.right]

theorem map_slashes (h : '\\' ∉ s) : (s.map fun c => if c = '\\' then '/' else c) = s :=
  calc
    _ = s.map id := by
      refine List.map_congr_left fun c hc => if_neg fun hb => ?_
      exact h (hb ▸ hc)
    _ = s        := List.map_id s

theorem normalizedRemotePathSegments_path (ho : IsPart owner) (hh : owner ≠ ['~'])
    (hl : IsLast last) (hs : suffix = [] ∨ suffix = ['/']) :
    normalizedRemotePathSegments (owner ++ '/' :: last ++ suffix) = [owner, stripGit last] := by
  have ⟨c, rest, hc⟩ := List.exists_cons_of_ne_nil ho.nonempty
  have hslash : c ≠ '/' := (ho.plain c (hc ▸ List.mem_cons_self)).left
  have hmap : (owner ++ '/' :: last ++ suffix).map (fun c => if c = '\\' then '/' else c) =
      owner ++ '/' :: last ++ suffix := by
    refine map_slashes ?_
    have hb := ho.isLast.plain.right
    have hb' := hl.plain.right
    simp only [List.mem_append, List.mem_cons, hb, hb', false_or, not_or]
    cases hs <;> simp [*]
  have hdrop : (owner ++ '/' :: last ++ suffix).dropWhile (· = '/') = owner ++ '/' :: last ++
      suffix := by
    rw [hc, List.cons_append, List.cons_append, List.dropWhile_cons_of_neg (by simpa using hslash)]
  have hhome : ¬['~', '/'] <+: owner ++ '/' :: last ++ suffix := by
    intro hp
    rw [hc, List.cons_append, List.cons_append] at hp
    have ⟨hc', hp⟩ := List.cons_prefix_cons.mp hp
    cases rest
    case nil => exact hh (hc.trans (by rw [hc']))
    case cons d rest =>
      have ⟨hd, _⟩ := List.cons_prefix_cons.mp hp
      exact ho.slash (by rw [hc, hd]; simp)
  have hdouble : ¬['/', '/'] <:+: owner ++ '/' :: last ++ suffix := by
    have ⟨d, rest, hd⟩ := List.exists_cons_of_ne_nil hl.nonempty
    have htail : ¬['/', '/'] <:+: suffix := by cases hs <;> simp [*, List.infix_cons_iff]
    rw [List.append_assoc, List.cons_append]
    refine not_infix_append ho.slash
      (not_infix_slash_cons ?_ (not_infix_append hl.plain.left htail))
    rw [hd, List.cons_append, List.head?_cons]
    intro hh
    exact hl.plain.left (by rw [hd, Option.some.inj hh]; exact List.mem_cons_self)
  have hsplit : (owner ++ '/' :: last).splitOn '/' = [owner, last] := by
    rw [List.splitOn_append_cons_self, List.splitOn_eq_singleton ho.slash,
      List.splitOn_eq_singleton hl.plain.left]
    rfl
  have hsegments : ((owner ++ '/' :: last ++ suffix).splitOn '/').foldl pushComponent [] =
      [owner, last] := by
    have hpush : [owner, last].foldl pushComponent [] = [owner, last] := by
      rw [List.foldl_cons, List.foldl_cons, pushComponent_of_isLast ho.isLast,
        pushComponent_of_isLast hl]
      rfl
    cases hs
    case inl hs => rw [hs, List.append_nil, hsplit, hpush]
    case inr hs =>
      rw [hs, List.splitOn_append_cons_self, hsplit, List.foldl_append, hpush]
      rfl
  simp only [normalizedRemotePathSegments, hmap, hdrop, if_neg hhome,
    collapseSlashes_of_not_infix hdouble, hsegments]
  rfl

end Identity
