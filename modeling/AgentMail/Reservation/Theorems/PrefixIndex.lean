import Mathlib.Data.List.Nodup
import AgentMail.Reservation.Index

open Pattern
open List (Perm)

namespace Reservation

variable {gs : Globset} {ci : Bool} {s t norm : Str}

theorem mem_ancestors : s ∈ ancestors t ↔ s ++ ['/'] <+: t := by
  induction t generalizing s
  case nil => simp [ancestors]
  case cons c t hi =>
    cases s
    case nil => by_cases hc : c = '/' <;> simp [ancestors, hc, List.cons_prefix_cons, eq_comm]
    case cons d s =>
      have hm : d :: s ∈ ancestors (c :: t) ↔ d = c ∧ s ∈ ancestors t := by
        by_cases hc : c = '/' <;> simp [ancestors, hc, eq_comm, and_comm]
      rw [hm, hi, List.cons_append, List.cons_prefix_cons]

theorem ancestors_fold (s : Str) : ancestors (fold ci s) = (ancestors s).map (fold ci) := by
  induction s
  case nil => simp [ancestors]
  case cons c s hi =>
    cases ci
    case false => exact (List.map_id _).symm
    case true =>
      have hf (a : Str) : fold true (c :: a) = c.toLower :: fold true a := rfl
      rw [hf, ancestors, hi, ancestors, List.map_append, List.map_map, List.map_map]
      simp only [toLower_eq_slash]
      by_cases hc : c = '/' <;> simp [hc, Function.comp_def, hf]

theorem nodup_ancestors (s : Str) : (ancestors s).Nodup := by
  induction s
  case nil => exact .nil
  case cons c s hi =>
    have hm : ((ancestors s).map (c :: ·)).Nodup := hi.map (List.cons_injective)
    by_cases hc : c = '/' <;> simpa [ancestors, hc] using hm

-- In the order of paths, a text comes in front of the texts that it is a prefix of.

theorem cons_le_cons_iff {c d : Char} : c :: s ≤ d :: t ↔ c < d ∨ c = d ∧ s ≤ t := by
  rw [← not_lt, List.cons_lt_cons_iff, ← not_lt (b := s)]
  rcases lt_trichotomy c d with h | h | h
  · simp [h, h.not_gt, h.ne']
  · simp [h]
  · simp [h, h.not_gt, h.ne']

theorem le_of_prefix (h : s <+: t) : s ≤ t := by
  induction s generalizing t
  case nil => exact not_lt.mp (List.not_lt_nil _)
  case cons c s hi =>
    have ⟨r, hr⟩ := h
    exact hr ▸ cons_le_cons_iff.mpr (.inr ⟨rfl, hi (List.prefix_append ..)⟩)

-- The texts with a common prefix are next to each other in the order.
theorem prefix_of_le_of_le {pre k k' : Str} (h : pre ≤ k) (h' : k ≤ k') (hp : pre <+: k') :
    pre <+: k := by
  induction pre generalizing k k'
  case nil => exact List.nil_prefix
  case cons c pre hi =>
    have ⟨k'', hk'⟩ := hp
    subst hk'
    cases k
    case nil => exact absurd (List.nil_lt_cons c pre) (not_lt.mpr h)
    case cons d k =>
      rw [List.cons_append, cons_le_cons_iff] at h'
      rw [cons_le_cons_iff] at h
      have hcd : c = d := by
        rcases h with h | ⟨h, _⟩
        · rcases h' with h' | ⟨h', _⟩
          · exact absurd (h.trans h') (lt_irrefl _)
          · exact h'.symm
        · exact h
      subst hcd
      simp only [lt_irrefl, true_and, false_or] at h h'
      exact List.cons_prefix_cons.mpr ⟨rfl, hi h h' (List.prefix_append ..)⟩

theorem descendants_perm {α : Type} {m : MultiMap Str α} {f : α → Str} {l : List α}
    (h : m.Indexes f l) (norm : Str) :
    Perm (descendants m norm) (l.filter fun a => norm ≠ [] ∧ norm ++ ['/'] <+: f a) := by
  unfold descendants descendantPrefix
  by_cases hn : norm = []
  case pos => simp [hn]
  case neg =>
    have hl : ∀ k, (norm ++ ['/']).isPrefixOf k → norm ++ ['/'] ≤ k :=
      fun k hk => le_of_prefix (List.isPrefixOf_iff_prefix.mp hk)
    have hc : ∀ k k', norm ++ ['/'] ≤ k → k ≤ k' → (norm ++ ['/']).isPrefixOf k' →
        (norm ++ ['/']).isPrefixOf k := by
      simp only [List.isPrefixOf_iff_prefix]
      exact fun k k' => prefix_of_le_of_le
    have hs := h.scan hl hc
    simp only [List.isEmpty_iff, hn, if_false]
    refine hs.trans (.of_eq (List.filter_congr fun a _ => ?_))
    rw [Bool.eq_iff_iff]
    simp [hn]

def isLiteral (p : CompiledPattern) : Bool :=
  !p.isGlob

def isPrefixedGlob (p : CompiledPattern) : Bool :=
  p.isGlob && p.firstLiteralSegment.isSome

def isRootGlob (p : CompiledPattern) : Bool :=
  p.isGlob && p.firstLiteralSegment.isNone

namespace PrefixIndex

variable {α : Type} {pattern : α → CompiledPattern} {key : Str → Str}
variable {index : PrefixIndex α} {as : List α}

-- Every element is stored in the one part of the index that is for its kind.
structure Holds (pattern : α → CompiledPattern) (key : Str → Str) (index : PrefixIndex α)
    (as : List α) : Prop where
  exact : index.exactByPath.Indexes (fun a => key (pattern a).norm)
    (as.filter fun a => isLiteral (pattern a))
  globs : index.globsByPrefix.Indexes (fun a => key ((pattern a).firstLiteralSegment.getD []))
    (as.filter fun a => isPrefixedGlob (pattern a))
  roots : index.rootGlobs = as.filter fun a => isRootGlob (pattern a)

theorem Holds.insert (h : index.Holds pattern key as) (a : α) :
    (index.insert pattern key a).Holds pattern key (as ++ [a]) := by
  have ⟨he, hg, hr⟩ := h
  cases hi : (pattern a).isGlob
  case false =>
    simp only [PrefixIndex.insert, hi]
    constructor <;> simp only [List.filter_append, List.filter_cons, List.filter_nil, isLiteral,
      isPrefixedGlob, isRootGlob, hi, Bool.false_and, Bool.not_false, if_true, Bool.false_eq_true,
      if_false, List.append_nil]
    case exact => exact he.push a
    case globs => exact hg
    case roots => exact hr
  case true =>
    cases hf : (pattern a).firstLiteralSegment
    case none =>
      simp only [PrefixIndex.insert, hi, hf]
      constructor <;> simp only [List.filter_append, List.filter_cons, List.filter_nil, isLiteral,
        isPrefixedGlob, isRootGlob, hi, hf, Bool.true_and, Bool.not_true, Option.isSome_none,
        Option.isNone_none, Bool.false_eq_true, if_false, if_true, List.append_nil]
      case exact => exact he
      case globs => exact hg
      case roots => exact congrArg (· ++ [a]) hr
    case some pre =>
      simp only [PrefixIndex.insert, hi, hf]
      constructor <;> simp only [List.filter_append, List.filter_cons, List.filter_nil, isLiteral,
        isPrefixedGlob, isRootGlob, hi, hf, Bool.true_and, Bool.not_true, Option.isSome_some,
        Option.isNone_some, Bool.false_eq_true, if_false, if_true, List.append_nil]
      case exact => exact he
      case globs =>
        have := hg.push a
        simp only [hf, Option.getD_some] at this
        exact this
      case roots => exact hr

theorem holds_build (as : List α) : (build pattern key as).Holds pattern key as := by
  have h {index : PrefixIndex α} {stored : List α} (h : index.Holds pattern key stored) :
      (as.foldl (insert pattern key) index).Holds pattern key (stored ++ as) := by
    induction as generalizing index stored
    case nil => simpa using h
    case cons a as hi => simpa using hi (h.insert a)
  have hn :
      Holds pattern key { exactByPath := .empty, globsByPrefix := .empty, rootGlobs := [] } [] :=
    ⟨.empty, .empty, rfl⟩
  exact h hn

-- Every element is of exactly one kind.
theorem perm_kinds (pattern : α → CompiledPattern) (as : List α) (p : α → Bool) :
    Perm (((as.filter fun a => isLiteral (pattern a)).filter p ++
      (as.filter fun a => isPrefixedGlob (pattern a)).filter p) ++
      (as.filter fun a => isRootGlob (pattern a)).filter p) (as.filter p) := by
  simp only [List.filter_filter]
  refine ((MultiMap.perm_filter_or ?_).append_right _).trans ((MultiMap.perm_filter_or ?_).trans ?_)
  · intro a _
    cases hi : (pattern a).isGlob <;> simp [isLiteral, isPrefixedGlob, hi]
  · intro a _
    cases hi : (pattern a).isGlob <;> cases hf : (pattern a).firstLiteralSegment <;>
      simp [isLiteral, isPrefixedGlob, isRootGlob, hi, hf]
  · refine .of_eq (List.filter_congr fun a _ => ?_)
    cases hi : (pattern a).isGlob <;> cases hf : (pattern a).firstLiteralSegment <;>
      simp [isLiteral, isPrefixedGlob, isRootGlob, hi, hf]

end PrefixIndex

variable {request p : CompiledPattern}

theorem matchesOrOverlaps_eq (hp : p.overlaps ci request ≠ none) (hl : isLiteral p)
    (hg : request.isGlob) : matchesOrOverlaps ci request p = p.overlaps ci request := by
  unfold matchesOrOverlaps
  split
  case isFalse => rfl
  case isTrue hm =>
    have hm : request.globMatches p.norm := by simpa [CompiledPattern.matchesPath, hg] using hm
    have hl : p.isMatchable := by
      have : p.isGlob = false := by simpa [isLiteral] using hl
      simp [CompiledPattern.isMatchable, this]
    refine ((CompiledPattern.overlaps_iff hp).mpr ?_).symm
    exact .inr (.inr (.inr (by simp [CompiledPattern.touches, hm, hl])))

end Reservation
