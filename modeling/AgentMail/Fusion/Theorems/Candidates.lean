import AgentMail.Fusion.Basic
import AgentMail.Search.Theorems.Cursor
import Mathlib.Data.List.Induction
import Mathlib.Data.List.Perm.Subperm
import Mathlib.Tactic.Linarith

open Pattern (Str)
open Ranking
open Search (i64?)
open Std (TransCmp)

namespace Fusion

section Slots

variable {β : Type} {rank : PreparedCandidate → Option Nat} {dummy : Nat → β}
  {hit : PreparedCandidate → Nat → β}
variable {candidates : List PreparedCandidate} {c : PreparedCandidate} {hits : List β} {x : β}
  {i r gap : Nat}

@[simp]
theorem length_fillSlot : (fillSlot rank hit hits c).length = hits.length := by
  unfold fillSlot
  split
  case h_1 => rfl
  case h_2 => exact List.length_set

@[simp]
theorem length_foldl_fillSlot :
    (candidates.foldl (fillSlot rank hit) hits).length = hits.length := by
  induction candidates generalizing hits
  case nil       => rfl
  case cons _ hi => rw [List.foldl_cons, hi, length_fillSlot]

-- A slot that belongs to none of the candidates keeps what is in it.
theorem getElem?_foldl_fillSlot_of_ne (h : ∀ c ∈ candidates, ∀ r ∈ rank c, r - 1 ≠ i) :
    (candidates.foldl (fillSlot rank hit) hits)[i]? = hits[i]? := by
  induction candidates generalizing hits
  case nil => rfl
  case cons c cs hi =>
    have ⟨hc, hcs⟩ := List.forall_mem_cons.mp h
    rw [List.foldl_cons, hi hcs, fillSlot]
    split
    case h_1      => rfl
    case h_2 r hr => exact List.getElem?_set_ne (hc r hr)

theorem getElem?_foldl_fillSlot_of_mem (hn : (candidates.filterMap rank).Nodup)
    (h1 : ∀ c ∈ candidates, ∀ r ∈ rank c, 1 ≤ r) (hc : c ∈ candidates) (hr : rank c = some r)
    (hi : r - 1 < hits.length) :
    (candidates.foldl (fillSlot rank hit) hits)[r - 1]? = some (hit c (r - 1)) := by
  induction candidates generalizing hits
  case nil => exact absurd hc List.not_mem_nil
  case cons c' cs ih =>
    have ⟨hc1, hcs1⟩ := List.forall_mem_cons.mp h1
    rw [List.foldl_cons]
    obtain rfl | hc := List.mem_cons.mp hc
    · rw [List.filterMap_cons_some hr] at hn
      rw [getElem?_foldl_fillSlot_of_ne, fillSlot, hr]
      · exact List.getElem?_set_self hi
      · intro c' hc' r' hr' he
        have hr1 := hc1 r hr
        have hr'1 := hcs1 c' hc' r' hr'
        obtain rfl : r' = r := by omega
        exact (List.nodup_cons.mp hn).left (List.mem_filterMap.mpr ⟨c', hc', hr'⟩)
    · exact ih (((List.sublist_cons_self c' cs).filterMap rank).nodup hn) hcs1 hc
        (length_fillSlot.symm ▸ hi)

theorem length_fillSlots :
    (fillSlots rank dummy hit candidates).length = (candidates.filterMap rank).max?.getD 0 := by
  simp [fillSlots]

theorem lt_length_fillSlots_iff : i < (fillSlots rank dummy hit candidates).length ↔
    ∃ c ∈ candidates, ∃ r, rank c = some r ∧ i < r := by
  rw [length_fillSlots]
  cases hm : (candidates.filterMap rank).max?
  case none =>
    have hnil := List.max?_eq_none_iff.mp hm
    simp only [Option.getD_none, Nat.not_lt_zero, false_iff]
    intro ⟨c, hc, r, hr, _⟩
    exact List.not_mem_nil (hnil ▸ List.mem_filterMap.mpr ⟨c, hc, hr⟩)
  case some m =>
    have ⟨hmem, hmax⟩ := List.max?_eq_some_iff.mp hm
    rw [Option.getD_some]
    constructor
    case mp =>
      intro hi
      have ⟨c, hc, hr⟩ := List.mem_filterMap.mp hmem
      exact ⟨c, hc, m, hr, hi⟩
    case mpr =>
      intro ⟨c, hc, r, hr, hi⟩
      exact Nat.lt_of_lt_of_le hi (hmax r (List.mem_filterMap.mpr ⟨c, hc, hr⟩))

section

variable (hn : (candidates.filterMap rank).Nodup) (h1 : ∀ c ∈ candidates, ∀ r ∈ rank c, 1 ≤ r)

include hn h1

theorem getElem?_fillSlots_of_mem (hc : c ∈ candidates) (hr : rank c = some r) :
    (fillSlots rank dummy hit candidates)[r - 1]? = some (hit c (r - 1)) := by
  have hlt : r - 1 < (fillSlots rank dummy hit candidates).length :=
    lt_length_fillSlots_iff.mpr ⟨c, hc, r, hr, Nat.sub_lt (h1 c hc r hr) Nat.one_pos⟩
  exact getElem?_foldl_fillSlot_of_mem hn h1 hc hr (by simpa [fillSlots] using hlt)

omit hn in
theorem getElem?_fillSlots_of_gap (h : Gap candidates rank gap) :
    (fillSlots rank dummy hit candidates)[gap - 1]? = some (dummy (gap - 1)) := by
  have ⟨hg, ⟨c, hc, r, hr, hlt⟩, hne⟩ := h
  have hlt : gap - 1 < (fillSlots rank dummy hit candidates).length :=
    lt_length_fillSlots_iff.mpr ⟨c, hc, r, hr, by omega⟩
  rw [length_fillSlots] at hlt
  rw [fillSlots, getElem?_foldl_fillSlot_of_ne]
  · simp [hlt]
  · intro c' hc' r' hr' he
    have := h1 c' hc' r' hr'
    exact hne c' hc' (by rw [hr']; congr; omega)

theorem getElem?_fillSlots_cases (h : (fillSlots rank dummy hit candidates)[i]? = some x) :
    (∃ c ∈ candidates, rank c = some (i + 1) ∧ x = hit c i) ∨ Gap candidates rank (i + 1) ∧
      x = dummy i := by
  by_cases hc : ∃ c ∈ candidates, rank c = some (i + 1)
  case pos =>
    have ⟨c, hc, hr⟩ := hc
    have hx := @getElem?_fillSlots_of_mem _ _ dummy hit _ _ _ hn h1 hc hr
    rw [Nat.add_sub_cancel, h] at hx
    exact .inl ⟨c, hc, hr, Option.some.inj hx⟩
  case neg =>
    have ⟨hi, _⟩ := List.getElem?_eq_some_iff.mp h
    have ⟨c, hc', r, hr, hlt⟩ := lt_length_fillSlots_iff.mp hi
    have hne : r ≠ i + 1 := fun he => hc ⟨c, hc', he ▸ hr⟩
    have hg : Gap candidates rank (i + 1) :=
      ⟨Nat.le_add_left .., ⟨c, hc', r, hr, by omega⟩, fun c hc' hr => hc ⟨c, hc', hr⟩⟩
    have hx := @getElem?_fillSlots_of_gap _ _ dummy hit _ _ h1 hg
    rw [Nat.add_sub_cancel, h] at hx
    exact .inr ⟨hg, Option.some.inj hx⟩

end

end Slots

section Labels

variable {c c' : PreparedCandidate} {candidates : List PreparedCandidate} {i j r gap : Nat}
  {s : Str}

def idOf (c : PreparedCandidate) : Str :=
  (toString c.docId.toInt).toList

theorem i64?_idOf : i64? (idOf c) = some c.docId.toInt :=
  Search.i64?_toString (Int64.le_toInt _) (Int64.toInt_lt _)

theorem eq_of_idOf_eq (h : idOf c = idOf c') : c.docId = c'.docId := by
  have h := congrArg i64? h
  rw [i64?_idOf, i64?_idOf] at h
  exact Int64.toInt_inj.mp (Option.some.inj h)

theorem i64?_underscore : i64? ('_' :: s) = none := by
  have h : Search.digits? 10 ('_' :: s) = none := Search.digits?_sign rfl
  simp [i64?, Search.unsigned?, h]

-- How the documents of a ranked list are labelled: candidates with their ids, dummies with no
-- number.
structure Labels {β : Type} (docId : β → Str) (dummy : Nat → β)
    (hit : PreparedCandidate → Nat → β) : Prop where
  hit_eq     : ∀ c i, docId (hit c i) = idOf c
  dummy_none : ∀ i, i64? (docId (dummy i)) = none
  dummy_inj  : ∀ i j, docId (dummy i) = docId (dummy j) → i = j

theorem eq_of_toString_eq {before : Str}
    (h : before ++ (toString i).toList = before ++ (toString j).toList) : i = j := by
  have h : Nat.toDigits 10 i = Nat.toDigits 10 j := by
    simpa [toString, Nat.toList_repr] using List.append_cancel_left h
  have h := congrArg (Search.digits? 10) h
  rw [Search.digits?_toDigits, Search.digits?_toDigits] at h
  exact Option.some.inj h

theorem lexicalLabels : Labels ScoredResult.docId dummyLexical lexicalHit where
  hit_eq _ _     := rfl
  dummy_none _   := i64?_underscore
  dummy_inj _ _  := eq_of_toString_eq

theorem semanticLabels : Labels VectorHit.docId dummySemantic semanticHit where
  hit_eq _ _     := rfl
  dummy_none _   := i64?_underscore
  dummy_inj _ _  := eq_of_toString_eq

theorem dummyLexical_ne_dummySemantic : (dummyLexical i).docId ≠ (dummySemantic j).docId := by
  intro h
  have h := congrArg (·[15]?) h
  simp only [dummyLexical, dummySemantic] at h
  rw [List.getElem?_append_left (by decide), List.getElem?_append_left (by decide)] at h
  exact absurd h (by decide)

theorem findIdx?_of_unique {β : Type} {docId : β → Str} {l : List β} {x : β}
    (hu : ∀ (i j : Nat) x y, l[i]? = some x → l[j]? = some y → docId x = docId y → i = j)
    (hx : l[i]? = some x) :
    l.findIdx? (docId · = docId x) = some i ∧ l.find? (docId · = docId x) = some x := by
  have ⟨hi, he⟩ := List.getElem?_eq_some_iff.mp hx
  have hne (j : Nat) (hj : j < i) (hlt : j < l.length) : docId l[j] ≠ docId x := fun h =>
    absurd (hu j i _ x (List.getElem?_eq_getElem hlt) hx h) (Nat.ne_of_lt hj)
  constructor
  · exact List.findIdx?_eq_some_iff_getElem.mpr ⟨hi, by simp [he],
      fun j hj => by simpa using hne j hj _⟩
  · exact List.find?_eq_some_iff_getElem.mpr ⟨by simp, i, hi, he,
      fun j hj => by simpa using hne j hj _⟩

section

variable {β : Type} {rank : PreparedCandidate → Option Nat} {docId : β → Str} {dummy : Nat → β}
variable {hit : PreparedCandidate → Nat → β} (hl : Labels docId dummy hit)
variable (hd : (candidates.map (·.docId)).Nodup)
variable (hn : (candidates.filterMap rank).Nodup) (h1 : ∀ c ∈ candidates, ∀ r ∈ rank c, 1 ≤ r)

include hl hd hn h1

theorem fillSlots_unique (i j : Nat) (x y : β)
    (hx : (fillSlots rank dummy hit candidates)[i]? = some x)
    (hy : (fillSlots rank dummy hit candidates)[j]? = some y) (h : docId x = docId y) : i = j := by
  obtain ⟨c, hc, hr, rfl⟩ | ⟨_, rfl⟩ := getElem?_fillSlots_cases hn h1 hx <;>
    obtain ⟨c', hc', hr', rfl⟩ | ⟨_, rfl⟩ := getElem?_fillSlots_cases hn h1 hy
  · rw [hl.hit_eq, hl.hit_eq] at h
    obtain rfl := List.inj_on_of_nodup_map hd hc hc' (eq_of_idOf_eq h)
    exact Nat.succ.inj (Option.some.inj (hr.symm.trans hr'))
  · have h := congrArg i64? h
    rw [hl.hit_eq, hl.dummy_none, i64?_idOf] at h
    exact nomatch h
  · have h := congrArg i64? h
    rw [hl.hit_eq, hl.dummy_none, i64?_idOf] at h
    exact nomatch h
  · exact hl.dummy_inj i j h

theorem findIdx?_fillSlots_idOf (hc : c ∈ candidates) :
    (fillSlots rank dummy hit candidates).findIdx? (docId · = idOf c) = (rank c).map (· - 1) := by
  cases hr : rank c
  case some r =>
    have hx := @getElem?_fillSlots_of_mem _ _ dummy hit _ _ _ hn h1 hc hr
    have h := (findIdx?_of_unique (fillSlots_unique hl hd hn h1) hx).left
    rw [hl.hit_eq] at h
    exact h
  case none =>
    refine List.findIdx?_eq_none_iff.mpr fun x hx => decide_eq_false fun h => ?_
    have ⟨i, hx⟩ := List.mem_iff_getElem?.mp hx
    obtain ⟨c', hc', hr', rfl⟩ | ⟨_, rfl⟩ := getElem?_fillSlots_cases hn h1 hx
    · rw [hl.hit_eq] at h
      obtain rfl := List.inj_on_of_nodup_map hd hc' hc (eq_of_idOf_eq h)
      exact nomatch hr.symm.trans hr'
    · have h := congrArg i64? h
      rw [hl.dummy_none, i64?_idOf] at h
      exact nomatch h

theorem findIdx?_fillSlots_dummy (hg : Gap candidates rank gap) :
    (fillSlots rank dummy hit candidates).findIdx? (docId · = docId (dummy (gap - 1))) =
      some (gap - 1) ∧
      (fillSlots rank dummy hit candidates).find? (docId · = docId (dummy (gap - 1))) =
        some (dummy (gap - 1)) :=
  findIdx?_of_unique (fillSlots_unique hl hd hn h1) (getElem?_fillSlots_of_gap h1 hg)

omit hd in
theorem findIdx?_fillSlots_eq_none {s : Str} (hs : i64? s = none) (hne : ∀ j, docId (dummy j) ≠ s) :
    (fillSlots rank dummy hit candidates).findIdx? (docId · = s) = none := by
  refine List.findIdx?_eq_none_iff.mpr fun x hx => decide_eq_false fun h => ?_
  have ⟨i, hx⟩ := List.mem_iff_getElem?.mp hx
  obtain ⟨c, _, _, rfl⟩ | ⟨_, rfl⟩ := getElem?_fillSlots_cases hn h1 hx
  · rw [← h, hl.hit_eq, i64?_idOf] at hs
    exact nomatch hs
  · exact hne i h

omit hd in
theorem exists_mem_fillSlots_iff {s : Str} :
    (∃ x ∈ fillSlots rank dummy hit candidates, docId x = s) ↔
      (∃ c ∈ candidates, (rank c).isSome ∧ s = idOf c) ∨ ∃ gap, Gap candidates rank gap ∧
        s = docId (dummy (gap - 1)) := by
  constructor
  case mp =>
    intro ⟨x, hx, hs⟩
    have ⟨i, hx⟩ := List.mem_iff_getElem?.mp hx
    obtain ⟨c, hc, hr, rfl⟩ | ⟨hg, rfl⟩ := getElem?_fillSlots_cases hn h1 hx
    · exact .inl ⟨c, hc, Option.isSome_of_eq_some hr, hs.symm.trans (hl.hit_eq c i)⟩
    · exact .inr ⟨i + 1, hg, hs.symm⟩
  case mpr =>
    intro h
    obtain ⟨c, hc, hr, rfl⟩ | ⟨gap, hg, rfl⟩ := h
    · have ⟨r, hr⟩ := Option.isSome_iff_exists.mp hr
      have hx := @getElem?_fillSlots_of_mem _ _ dummy hit _ _ _ hn h1 hc hr
      exact ⟨_, List.mem_of_getElem? hx, hl.hit_eq ..⟩
    · exact ⟨_, List.mem_of_getElem? (getElem?_fillSlots_of_gap h1 hg), rfl⟩

end

end Labels

section Entries

variable {k : ℚ} {lexical : List ScoredResult} {semantic : List VectorHit} {result : ScoredResult}
  {hit : VectorHit}
variable {ids : List Str} {id docId : Str} {f g : Str → FusedHitScratch}

-- What two ranked lists say of a document.
def entry (k : ℚ) (lexical : List ScoredResult) (semantic : List VectorHit) (id : Str) :
    FusedHitScratch :=
  let lexicalRank := lexical.findIdx? (·.docId = id)
  let semanticRank := semantic.findIdx? (·.docId = id)
  {
    docId         := id
    rrfScore      :=
      lexicalRank.elim 0 (rankContribution k) + semanticRank.elim 0 (rankContribution k)
    lexicalRank   := lexicalRank
    semanticRank  := semanticRank
    semanticIndex := (semantic.find? (·.docId = id)).map (·.index)
    lexicalScore  := (lexical.find? (·.docId = id)).map (·.score)
    semanticScore := (semantic.find? (·.docId = id)).map (·.score)
    inBothSources := lexicalRank.isSome && semanticRank.isSome
  }

def Labelled (lexical : List ScoredResult) (semantic : List VectorHit) (id : Str) : Prop :=
  (∃ x ∈ lexical, x.docId = id) ∨ ∃ x ∈ semantic, x.docId = id

-- One entry for every document of the lists.
def Entries (k : ℚ) (lexical : List ScoredResult) (semantic : List VectorHit)
    (hits : List FusedHitScratch) : Prop :=
  ∃ ids : List Str, ids.Nodup ∧ (∀ id, id ∈ ids ↔ Labelled lexical semantic id) ∧
    hits = ids.map (entry k lexical semantic)

theorem find?_map_entry (hf : ∀ id, (f id).docId = id) :
    (ids.map f).find? (·.docId = docId) = if docId ∈ ids then some (f docId) else none := by
  simp only [List.find?_map, Function.comp_def, hf]
  split
  case isTrue h  =>
    have hi : ids.find? (· = docId) = some docId := by
      cases hi : ids.find? (· = docId)
      case none    => exact absurd (decide_eq_true rfl) (List.find?_eq_none.mp hi docId h)
      case some id =>
        have he := List.find?_some hi
        rw [of_decide_eq_true he]
    rw [hi, Option.map_some]
  case isFalse h =>
    rw [Option.map_eq_none_iff, List.find?_eq_none]
    intro id hid hd
    exact h (of_decide_eq_true hd ▸ hid)

-- One step, if `g` is what is known of the documents after it.
theorem scoreHit_map_entry {seen : FusedHitScratch → Bool}
    {modify : FusedHitScratch → FusedHitScratch} {new : FusedHitScratch} (hn : ids.Nodup)
    (hf : ∀ id, (f id).docId = id) (hg : ∀ id, id ≠ docId → g id = f id)
    (hnew : docId ∉ ids → g docId = new) (hseen : docId ∈ ids → seen (f docId) → g docId = f docId)
    (hmodify : docId ∈ ids → seen (f docId) = false → g docId = modify (f docId)) :
    ∃ ids' : List Str, ids'.Nodup ∧ (∀ id, id ∈ ids' ↔ id ∈ ids ∨ id = docId) ∧
      scoreHit (ids.map f) docId seen modify new = ids'.map g := by
  rw [scoreHit, find?_map_entry hf]
  by_cases hm : docId ∈ ids
  case neg =>
    refine ⟨ids ++ [docId], ?_, by simp, ?_⟩
    · exact List.nodup_append.mpr ⟨hn, List.nodup_singleton _, fun a ha b hb he =>
        hm (List.mem_singleton.mp hb ▸ he ▸ ha)⟩
    · have hfg : ids.map f = ids.map g := List.map_congr_left fun id hid =>
        (hg id fun he => hm (he ▸ hid)).symm
      rw [if_neg hm, List.map_append, List.map_singleton, hnew hm, hfg]
  case pos =>
    refine ⟨ids, hn, fun id => ⟨.inl, fun h => h.elim (·) (· ▸ hm)⟩, ?_⟩
    simp only [if_pos hm]
    cases hs : seen (f docId)
    case true =>
      refine List.map_congr_left fun id _ => ?_
      by_cases he : id = docId
      case pos => rw [he, hseen hm hs]
      case neg => rw [hg id he]
    case false =>
      rw [if_neg Bool.false_ne_true, List.map_map]
      refine List.map_congr_left fun id _ => ?_
      rw [Function.comp_apply, hf]
      by_cases he : id = docId
      case pos => rw [if_pos he, he, hmodify hm hs]
      case neg => rw [if_neg he, hg id he]

theorem lookup_cases {β : Type} (l : List β) (p : β → Bool) :
    (∀ x ∈ l, ¬p x) ∧ l.findIdx? p = none ∧ l.find? p = none ∨
      (∃ x ∈ l, p x) ∧ ∃ i x, l.findIdx? p = some i ∧ l.find? p = some x := by
  by_cases h : ∃ x ∈ l, p x
  case pos =>
    have ⟨i, hi⟩ :=
      Option.isSome_iff_exists.mp (List.findIdx?_isSome.trans (List.any_eq_true.mpr h))
    have ⟨x, hx⟩ := Option.isSome_iff_exists.mp (List.find?_isSome.mpr h)
    exact .inr ⟨h, i, x, hi, hx⟩
  case neg =>
    have h : ∀ x ∈ l, ¬p x := fun x hx hp => h ⟨x, hx, hp⟩
    exact .inl ⟨h, List.findIdx?_eq_none_iff.mpr fun x hx => Bool.eq_false_iff.mpr (h x hx),
      List.find?_eq_none.mpr h⟩

theorem find?_eq_none_of_findIdx? {β : Type} {l : List β} {p : β → Bool} (h : l.findIdx? p = none) :
    l.find? p = none := by
  rw [List.findIdx?_eq_none_iff] at h
  exact List.find?_eq_none.mpr fun x hx => Bool.eq_false_iff.mp (h x hx)

theorem labelled_append_lexical :
    Labelled (lexical ++ [result]) semantic id ↔ Labelled lexical semantic id ∨
      id = result.docId := by
  simp only [Labelled, List.mem_append, List.mem_singleton, or_and_right, exists_or, exists_eq_left,
    eq_comm (a := id)]
  exact or_right_comm

theorem labelled_append_semantic :
    Labelled lexical (semantic ++ [hit]) id ↔ Labelled lexical semantic id ∨ id = hit.docId := by
  simp only [Labelled, List.mem_append, List.mem_singleton, or_and_right, exists_or, exists_eq_left,
    eq_comm (a := id)]
  exact or_assoc.symm

theorem Entries.nil : Entries k [] [] [] :=
  ⟨[], .nil, by simp [Labelled], rfl⟩

theorem Entries.scoreLexical {hits : List FusedHitScratch} (h : Entries k lexical semantic hits) :
    Entries k (lexical ++ [result]) semantic (scoreLexical k hits (result, lexical.length)) := by
  have ⟨ids, hn, hids, he⟩ := h
  have hl := lookup_cases lexical (·.docId = result.docId)
  have hs := lookup_cases semantic (·.docId = result.docId)
  simp only [decide_eq_true_eq] at hl hs
  have ⟨ids', hn', hids', he'⟩ := @scoreHit_map_entry ids result.docId (entry k lexical semantic)
    (entry k (lexical ++ [result]) semantic) (·.lexicalRank.isSome)
    (.addLexical (rankContribution k lexical.length) lexical.length result)
    (.ofLexical (rankContribution k lexical.length) lexical.length result) hn
      (fun _ => rfl) ?hg ?hnew ?hseen ?hmodify
  case hg =>
    intro id hne
    simp [entry, List.findIdx?_append, hne.symm]
  case hnew =>
    intro hm
    rw [hids, Labelled, not_or] at hm
    obtain ⟨_, hl, hl'⟩ | ⟨hl, _⟩ := hl
    · obtain ⟨_, hs, hs'⟩ | ⟨hs, _⟩ := hs
      · simp [entry, FusedHitScratch.ofLexical, List.findIdx?_append, hl, hl', hs, hs']
      · exact absurd hs hm.right
    · exact absurd hl hm.left
  case hseen =>
    intro _ hseen
    obtain ⟨_, hl, _⟩ | ⟨_, i, x, hl, hl'⟩ := hl
    · simp [entry, hl] at hseen
    · simp [entry, List.findIdx?_append, hl, hl']
  case hmodify =>
    intro _ hseen
    obtain ⟨_, hl, hl'⟩ | ⟨_, i, x, hl, _⟩ := hl
    · simp [entry, FusedHitScratch.addLexical, List.findIdx?_append, hl, hl', add_comm]
    · simp [entry, hl] at hseen
  refine ⟨ids', hn', fun id => ?_, he ▸ he'⟩
  rw [hids', hids, labelled_append_lexical]

theorem Entries.scoreSemantic {hits : List FusedHitScratch} (h : Entries k lexical semantic hits) :
    Entries k lexical (semantic ++ [hit]) (scoreSemantic k hits (hit, semantic.length)) := by
  have ⟨ids, hn, hids, he⟩ := h
  have hl := lookup_cases lexical (·.docId = hit.docId)
  have hs := lookup_cases semantic (·.docId = hit.docId)
  simp only [decide_eq_true_eq] at hl hs
  have ⟨ids', hn', hids', he'⟩ := @scoreHit_map_entry ids hit.docId (entry k lexical semantic)
    (entry k lexical (semantic ++ [hit])) (·.semanticRank.isSome)
    (.addSemantic (rankContribution k semantic.length) semantic.length hit)
    (.ofSemantic (rankContribution k semantic.length) semantic.length hit) hn
      (fun _ => rfl) ?hg ?hnew ?hseen ?hmodify
  case hg =>
    intro id hne
    simp [entry, List.findIdx?_append, hne.symm]
  case hnew =>
    intro hm
    rw [hids, Labelled, not_or] at hm
    obtain ⟨_, hl, hl'⟩ | ⟨hl, _⟩ := hl
    · obtain ⟨_, hs, hs'⟩ | ⟨hs, _⟩ := hs
      · simp [entry, FusedHitScratch.ofSemantic, List.findIdx?_append, hl, hl', hs, hs']
      · exact absurd hs hm.right
    · exact absurd hl hm.left
  case hseen =>
    intro _ hseen
    obtain ⟨_, hs, _⟩ | ⟨_, i, x, hs, hs'⟩ := hs
    · simp [entry, hs] at hseen
    · simp [entry, List.findIdx?_append, hs, hs']
  case hmodify =>
    intro _ hseen
    obtain ⟨_, hs, hs'⟩ | ⟨_, i, x, hs, _⟩ := hs
    · simp [entry, FusedHitScratch.addSemantic, List.findIdx?_append, hs, hs']
    · simp [entry, hs] at hseen
  refine ⟨ids', hn', fun id => ?_, he ▸ he'⟩
  rw [hids', hids, labelled_append_semantic]

theorem entries_scoreAll : Entries k lexical semantic (scoreAll k lexical semantic) := by
  have hl : Entries k lexical [] (lexical.zipIdx.foldl (Fusion.scoreLexical k) []) := by
    induction lexical using List.reverseRecOn
    case nil                       => exact Entries.nil
    case append_singleton l r hi =>
      rw [List.zipIdx_append, List.foldl_append]
      simpa using hi.scoreLexical
  induction semantic using List.reverseRecOn
  case nil                       => exact hl
  case append_singleton l h hi =>
    rw [scoreAll, List.zipIdx_append, List.foldl_append]
    simpa [scoreAll] using hi.scoreSemantic

end Entries

section Ranks

variable {a b : FusedHitScratch} {hits : List FusedHitScratch}

instance : TransCmp FusedHitScratch.cmpForRanking :=
  inferInstanceAs <| TransCmp <|
    compareLex (fun a b => compareOn FusedHitScratch.rrfScore b a) <|
      compareLex (fun a b => compareOn FusedHitScratch.inBothSources b a) <|
        compareLex
          (fun a b => compareOn (fun hit : FusedHitScratch => hit.lexicalScore.getD ⊥) b a) <|
          compareOn FusedHitScratch.docId

theorem separates_cmpForRanking (hn : (hits.map (·.docId)).Nodup) :
    Separates FusedHitScratch.cmpForRanking hits := by
  intro a ha b hb h
  have ⟨_, h⟩ := Ordering.then_eq_eq.mp h
  have ⟨_, h⟩ := Ordering.then_eq_eq.mp h
  have ⟨_, h⟩ := Ordering.then_eq_eq.mp h
  exact List.inj_on_of_nodup_map hn ha hb (Std.compare_eq_iff_eq.mp h)

-- All ties are decided in favour of a candidate.
theorem isLE_cmpForRanking_iff (hb : b.inBothSources = false) (hl : b.lexicalScore.getD ⊥ = ⊥)
    (hid : compare a.docId b.docId = .lt) : (a.cmpForRanking b).isLE ↔ b.rrfScore ≤ a.rrfScore := by
  have hboth : (compare false a.inBothSources).isLE := by
    cases a.inBothSources <;> rfl
  have hlex : (compare ⊥ (a.lexicalScore.getD ⊥)).isLE :=
    Ordering.isLE_iff_ne_gt.mpr (compare_le_iff_le.mpr bot_le)
  have hties : ((compare false a.inBothSources).then
      ((compare ⊥ (a.lexicalScore.getD ⊥)).then .lt)).isLE :=
    Ordering.isLE_then_iff_and.mpr ⟨hboth, .inr (Ordering.isLE_then_iff_and.mpr ⟨hlex, .inr rfl⟩)⟩
  rw [FusedHitScratch.cmpForRanking, hb, hl, hid, Ordering.isLE_then_iff_and,
    Ordering.isLE_iff_ne_gt]
  exact ⟨fun h => compare_le_iff_le.mp h.left, fun h => ⟨compare_le_iff_le.mpr h, .inr hties⟩⟩

-- Digits and the sign come before the underscore.
theorem compare_idOf {c : PreparedCandidate} {s : Str} : compare (idOf c) ('_' :: s) = .lt := by
  have of_cons {ch : Char} {t : Str} (h : ch < '_') : compare (ch :: t) ('_' :: s) = .lt := by
    have hch : compare ch '_' = .lt := if_pos h
    rw [List.compare_cons_cons, hch]
    rfl
  rw [idOf]
  cases c.docId.toInt
  case ofNat n =>
    have hs : (toString (Int.ofNat n)).toList = Nat.toDigits 10 n := Nat.toList_repr
    rw [hs]
    cases hd : Nat.toDigits 10 n
    case nil       => exact absurd hd Nat.toDigits_ne_nil
    case cons ch t =>
      have hdigit : ch.isDigit :=
        Nat.isDigit_of_mem_toDigits (by omega) (by omega) (hd ▸ List.mem_cons_self)
      have ⟨_, hle⟩ : 48 ≤ ch.val ∧ ch.val ≤ 57 := by simpa [Char.isDigit] using hdigit
      have hlt : (57 : UInt32) < '_'.val := by decide
      exact of_cons (Char.lt_def.mpr (UInt32.lt_of_le_of_lt hle hlt))
  case negSucc n =>
    have hs : (toString (Int.negSucc n)).toList = '-' :: Nat.toDigits 10 (n + 1) := by
      simp [toString, Int.repr, Nat.toList_repr]
    rw [hs]
    exact of_cons (by decide)

end Ranks

section Duplicates

variable {candidates : List PreparedCandidate} {lexicalRanks semanticRanks : List Nat}

theorem hasDuplicateSourceRanks_go_eq_false
    (h : hasDuplicateSourceRanks.go lexicalRanks semanticRanks candidates = false) :
    ((candidates.filterMap (·.lexicalRank)).Nodup ∧
      ∀ r ∈ candidates.filterMap (·.lexicalRank), r ∉ lexicalRanks) ∧
      (candidates.filterMap (·.semanticRank)).Nodup ∧
        ∀ r ∈ candidates.filterMap (·.semanticRank), r ∉ semanticRanks := by
  induction candidates generalizing lexicalRanks semanticRanks
  case nil => simp
  case cons c cs hi =>
    simp only [hasDuplicateSourceRanks.go, Bool.if_true_left, Bool.or_eq_false_iff,
      decide_eq_false_iff_not] at h
    have ⟨hl, hs, h⟩ := h
    have ⟨⟨hln, hlm⟩, hsn, hsm⟩ := hi h
    cases hcl : c.lexicalRank <;> cases hcs : c.semanticRank <;> simp_all <;> grind

theorem nodup_of_not_duplicates (h : hasDuplicateSourceRanks candidates = false) :
    (candidates.filterMap (·.lexicalRank)).Nodup ∧ (candidates.filterMap (·.semanticRank)).Nodup :=
  have ⟨⟨hl, _⟩, hs, _⟩ := hasDuplicateSourceRanks_go_eq_false h
  ⟨hl, hs⟩

end Duplicates

section Documents

variable {candidates : List PreparedCandidate} {c : PreparedCandidate} {k : ℚ} {gap : Nat}
  {id : Str}

def document (candidates : List PreparedCandidate) (k : ℚ) : Str → FusedHitScratch :=
  entry k (buildFsLexicalHits candidates) (buildFsSemanticHits candidates)

variable (h : Ranked candidates) (hdup : hasDuplicateSourceRanks candidates = false)

include h hdup

theorem labelled_iff :
    Labelled (buildFsLexicalHits candidates) (buildFsSemanticHits candidates) id ↔
      (∃ c ∈ candidates, id = idOf c) ∨
        (∃ gap, Gap candidates (·.lexicalRank) gap ∧ id = (dummyLexical (gap - 1)).docId) ∨
        ∃ gap, Gap candidates (·.semanticRank) gap ∧ id = (dummySemantic (gap - 1)).docId := by
  have ⟨hln, hsn⟩ := nodup_of_not_duplicates hdup
  have hl := @exists_mem_fillSlots_iff _ _ _ _ _ _ lexicalLabels hln h.lexical_pos id
  have hs := @exists_mem_fillSlots_iff _ _ _ _ _ _ semanticLabels hsn h.semantic_pos id
  rw [Labelled, buildFsLexicalHits, buildFsSemanticHits, hl, hs]
  constructor
  case mp =>
    intro hid
    obtain (⟨c, hc, _, he⟩ | hg) | ⟨c, hc, _, he⟩ | hg := hid
    · exact .inl ⟨c, hc, he⟩
    · exact .inr (.inl hg)
    · exact .inl ⟨c, hc, he⟩
    · exact .inr (.inr hg)
  case mpr =>
    intro hid
    obtain ⟨c, hc, he⟩ | hg | hg := hid
    · obtain hr | hr := h.ranked c hc
      · exact .inl (.inl ⟨c, hc, hr, he⟩)
      · exact .inr (.inl ⟨c, hc, hr, he⟩)
    · exact .inl (.inr hg)
    · exact .inr (.inr hg)

theorem document_idOf (hc : c ∈ candidates) :
    (document candidates k (idOf c)).lexicalRank = c.lexicalRank.map (· - 1) ∧
      (document candidates k (idOf c)).semanticRank = c.semanticRank.map (· - 1) ∧
        (document candidates k (idOf c)).rrfScore = c.score k := by
  have ⟨hln, hsn⟩ := nodup_of_not_duplicates hdup
  have hl := findIdx?_fillSlots_idOf lexicalLabels h.nodup hln h.lexical_pos hc
  have hs := findIdx?_fillSlots_idOf semanticLabels h.nodup hsn h.semantic_pos hc
  refine ⟨hl, hs, ?_⟩
  simp only [document, entry, buildFsLexicalHits, buildFsSemanticHits, hl, hs,
    PreparedCandidate.score]
  cases c.lexicalRank <;> cases c.semanticRank <;> rfl

structure IsDummy (k : ℚ) (gap : Nat) (hit : FusedHitScratch) : Prop where
  rrfScore      : hit.rrfScore = rankContribution k (gap - 1)
  inBothSources : hit.inBothSources = false
  lexicalScore  : hit.lexicalScore.getD ⊥ = ⊥

theorem document_dummyLexical (hg : Gap candidates (·.lexicalRank) gap) :
    IsDummy k gap (document candidates k (dummyLexical (gap - 1)).docId) := by
  have ⟨hln, hsn⟩ := nodup_of_not_duplicates hdup
  have ⟨hl, hl'⟩ := findIdx?_fillSlots_dummy lexicalLabels h.nodup hln h.lexical_pos hg
  have hs : (buildFsSemanticHits candidates).findIdx? (·.docId = (dummyLexical (gap - 1)).docId) =
      none :=
    findIdx?_fillSlots_eq_none semanticLabels hsn h.semantic_pos (lexicalLabels.dummy_none _)
      fun _ => dummyLexical_ne_dummySemantic.symm
  rw [← buildFsLexicalHits] at hl hl'
  exact ⟨by simp [document, entry, hl, hs], by simp [document, entry, hs],
    by simp only [document, entry, hl']; rfl⟩

theorem document_dummySemantic (hg : Gap candidates (·.semanticRank) gap) :
    IsDummy k gap (document candidates k (dummySemantic (gap - 1)).docId) := by
  have ⟨hln, hsn⟩ := nodup_of_not_duplicates hdup
  have ⟨hs, _⟩ := findIdx?_fillSlots_dummy semanticLabels h.nodup hsn h.semantic_pos hg
  have hl : (buildFsLexicalHits candidates).findIdx? (·.docId = (dummySemantic (gap - 1)).docId) =
      none :=
    findIdx?_fillSlots_eq_none lexicalLabels hln h.lexical_pos (semanticLabels.dummy_none _)
      fun _ => dummyLexical_ne_dummySemantic
  rw [← buildFsSemanticHits] at hs
  have hl' := find?_eq_none_of_findIdx? hl
  exact ⟨by simp [document, entry, hl, hs], by simp [document, entry, hl],
    by simp only [document, entry, hl']; rfl⟩

end Documents

section Fuse

variable {config : RrfConfig} {candidates : List PreparedCandidate} {c : PreparedCandidate} {k : ℚ}
  {limit : Nat}
variable {fused : List FusedHit} {hit : FusedHitScratch}

theorem sortHits_perm {epsilon : ℚ} : (sortHits epsilon fused).Perm fused :=
  List.mergeSort_perm ..

-- A page that holds all hits.
theorem hits_paginate_perm (h : fused.length ≤ limit) :
    (paginate candidates config 0 limit fused).hits.Perm fused := by
  have hl : (sortHits config.epsilon fused).length ≤ max limit 1 := by
    rw [sortHits_perm.length_eq]
    exact h.trans (le_max_left ..)
  simp only [paginate, List.drop_zero, List.take_of_length_le hl]
  exact sortHits_perm

theorem totalFused_paginate : (paginate candidates config 0 limit fused).totalFused =
    fused.length :=
  sortHits_perm.length_eq

theorem rrfFuse_eq {lexical : List ScoredResult} {semantic : List VectorHit} (hk : 0 < k) :
    rrfFuse lexical semantic limit 0 k =
      ((scoreAll k lexical semantic).mergeSort fun a b => (a.cmpForRanking b).isLE).take limit := by
  simp only [rrfFuse, sanitizeRrfK, if_pos hk.le, add_zero, List.drop_zero,
    List.take_take, min_self]
  split
  case isTrue h  => rw [h, List.take_zero]
  case isFalse h => rfl

def isCandidate (hit : FusedHitScratch) : Bool :=
  (i64? hit.docId).isSome

theorem filterMap_hybridHit {hits : List FusedHitScratch} :
    hits.filterMap (hybridHit candidates config) =
      (hits.filter isCandidate).filterMap (hybridHit candidates config) := by
  rw [List.filterMap_filter]
  congr
  funext hit
  split
  case isTrue h  => rfl
  case isFalse h =>
    have hn : i64? hit.docId = none := by simpa [isCandidate] using h
    simp [hybridHit, hn]

def legacyPlace (c : PreparedCandidate) : Int64 × Option Nat × Option Nat :=
  (c.docId, c.lexicalRank, c.semanticRank)

theorem map_sub_one_add_one {rank : Option Nat} (h : ∀ r ∈ rank, 1 ≤ r) :
    (rank.map (· - 1)).map (· + 1) = rank := by
  cases rank
  case none   => rfl
  case some r => exact congrArg some (Nat.sub_add_cancel (h r rfl))

section

variable (h : Ranked candidates) (hdup : hasDuplicateSourceRanks candidates = false)

include h hdup

theorem hybridHit_document (hc : c ∈ candidates) : ∃ hit,
    hybridHit candidates config (document candidates k (idOf c)) = some hit ∧
      hit.place = legacyPlace c := by
  have ⟨hl, hs, _⟩ := @document_idOf candidates c k h hdup hc
  have hid : i64? (document candidates k (idOf c)).docId = some c.docId.toInt := i64?_idOf
  refine ⟨_, by rw [hybridHit, hid]; rfl, ?_⟩
  simp only [FusedHit.place, legacyPlace, hl, hs, map_sub_one_add_one (h.lexical_pos c hc),
    map_sub_one_add_one (h.semantic_pos c hc), Int64.ofInt_toInt]

theorem filter_scoreAll_perm :
    ((scoreAll k (buildFsLexicalHits candidates) (buildFsSemanticHits candidates)).filter
      isCandidate).Perm
      (candidates.map fun c => document candidates k (idOf c)) := by
  have ⟨ids, hn, hids, he⟩ :=
    @entries_scoreAll k (buildFsLexicalHits candidates) (buildFsSemanticHits candidates)
  have hf : (ids.map (document candidates k)).filter isCandidate =
      (ids.filter fun id => (i64? id).isSome).map (document candidates k) := List.filter_map
  have hp : (ids.filter fun id => (i64? id).isSome).Perm (candidates.map idOf) := by
    have hn' : (candidates.map idOf).Nodup :=
      h.nodup.of_map.map_on fun c hc c' hc' he =>
        List.inj_on_of_nodup_map h.nodup hc hc' (eq_of_idOf_eq he)
    refine (List.perm_ext_iff_of_nodup (hn.filter _) hn').mpr fun id => ?_
    rw [List.mem_filter, hids, labelled_iff h hdup, List.mem_map]
    constructor
    case mp =>
      intro ⟨hid, hs⟩
      obtain ⟨c, hc, rfl⟩ | ⟨gap, _, rfl⟩ | ⟨gap, _, rfl⟩ := hid
      · exact ⟨c, hc, rfl⟩
      · exact absurd hs (by simp [lexicalLabels.dummy_none])
      · exact absurd hs (by simp [semanticLabels.dummy_none])
    case mpr =>
      intro ⟨c, hc, he⟩
      exact ⟨.inl ⟨c, hc, he.symm⟩, by simp [← he, i64?_idOf]⟩
  rw [he]
  exact hf ▸ (hp.map _).trans (by rw [List.map_map]; rfl)

theorem length_filter_scoreAll :
    ((scoreAll k (buildFsLexicalHits candidates) (buildFsSemanticHits candidates)).filter
      isCandidate).length =
      candidates.length := by
  rw [(filter_scoreAll_perm h hdup).length_eq, List.length_map]

omit h hdup in
theorem separates_scoreAll : Separates FusedHitScratch.cmpForRanking
    (scoreAll k (buildFsLexicalHits candidates) (buildFsSemanticHits candidates)) := by
  have ⟨ids, hn, _, he⟩ :=
    @entries_scoreAll k (buildFsLexicalHits candidates) (buildFsSemanticHits candidates)
  refine separates_cmpForRanking ?_
  have hm : ids.map ((·.docId) ∘ entry k (buildFsLexicalHits candidates)
      (buildFsSemanticHits candidates)) = ids :=
    (List.map_congr_left fun _ _ => rfl).trans ids.map_id
  rw [he, List.map_map, hm]
  exact hn

-- The candidates come before all dummies.
theorem candidates_first_iff :
    (∀ x ∈ scoreAll config.k (buildFsLexicalHits candidates) (buildFsSemanticHits candidates),
      isCandidate x →
      ∀ y ∈ scoreAll config.k (buildFsLexicalHits candidates) (buildFsSemanticHits candidates),
        ¬isCandidate y → (x.cmpForRanking y).isLE) ↔ GapsBelow config candidates := by
  have ⟨ids, hn, hids, he⟩ :=
    @entries_scoreAll config.k (buildFsLexicalHits candidates) (buildFsSemanticHits candidates)
  have hx {c : PreparedCandidate} (hc : c ∈ candidates) : idOf c ∈ ids :=
    (hids _).mpr ((labelled_iff h hdup).mpr (.inl ⟨c, hc, rfl⟩))
  have hxc {c : PreparedCandidate} : isCandidate (document candidates config.k (idOf c)) := by
    simp [isCandidate, document, entry, i64?_idOf]
  rw [he]
  constructor
  case mp =>
    intro hall gap hg c hc
    have hle {s : Str} (hs : Labelled (buildFsLexicalHits candidates)
        (buildFsSemanticHits candidates) ('_' :: s))
        (hd : IsDummy config.k gap (document candidates config.k ('_' :: s))) :
        rankContribution config.k (gap - 1) ≤ c.score config.k := by
      have hyc : ¬isCandidate (document candidates config.k ('_' :: s)) := by
        simp [isCandidate, document, entry, i64?_underscore]
      have hle :=
        hall _ (List.mem_map_of_mem (hx hc)) hxc _ (List.mem_map_of_mem ((hids _).mpr hs)) hyc
      have hle := (isLE_cmpForRanking_iff hd.inBothSources hd.lexicalScore compare_idOf).mp hle
      rw [← hd.rrfScore, ← (document_idOf h hdup hc).right.right]
      exact hle
    obtain hg | hg := hg
    · exact hle ((labelled_iff h hdup).mpr (.inr (.inl ⟨gap, hg, rfl⟩)))
        (document_dummyLexical h hdup hg)
    · exact hle ((labelled_iff h hdup).mpr (.inr (.inr ⟨gap, hg, rfl⟩)))
        (document_dummySemantic h hdup hg)
  case mpr =>
    intro hall x hx' hxc' y hy hyc
    have ⟨id, hid, hxe⟩ := List.mem_map.mp hx'
    have ⟨id', hid', hye⟩ := List.mem_map.mp hy
    have hle {c : PreparedCandidate} {gap : Nat} {s : Str} (hc : c ∈ candidates) (hid : id = idOf c)
        (hid' : id' = '_' :: s)
        (hg : rankContribution config.k (gap - 1) ≤ c.score config.k)
        (hd : IsDummy config.k gap (document candidates config.k ('_' :: s))) :
          (x.cmpForRanking y).isLE := by
      subst hxe hye hid hid'
      refine (isLE_cmpForRanking_iff hd.inBothSources hd.lexicalScore compare_idOf).mpr ?_
      rw [hd.rrfScore]
      exact hg.trans (document_idOf h hdup hc).right.right.ge
    obtain ⟨c, hc, hid⟩ | ⟨gap, _, rfl⟩ | ⟨gap, _, rfl⟩ :=
      (labelled_iff h hdup).mp ((hids _).mp hid)
    · obtain ⟨c', _, rfl⟩ | ⟨gap, hg, hid'⟩ | ⟨gap, hg, hid'⟩ :=
        (labelled_iff h hdup).mp ((hids _).mp hid')
      · exact absurd hxc (hye ▸ hyc)
      · exact hle hc hid hid' (hall gap (.inl hg) c hc) (document_dummyLexical h hdup hg)
      · exact hle hc hid hid' (hall gap (.inr hg) c hc) (document_dummySemantic h hdup hg)
    · exact absurd hxc' (by simp [← hxe, isCandidate, entry, lexicalLabels.dummy_none])
    · exact absurd hxc' (by simp [← hxe, isCandidate, entry, semanticLabels.dummy_none])

theorem filterMap_document : ∃ hits : List FusedHit,
    (candidates.map fun c => document candidates k (idOf c)).filterMap
      (hybridHit candidates config) = hits ∧
      hits.map FusedHit.place = candidates.map legacyPlace := by
  refine ⟨_, rfl, ?_⟩
  rw [List.filterMap_map, List.map_filterMap, ← List.filterMap_eq_map]
  refine List.filterMap_congr fun c hc => ?_
  have ⟨hit, hh, hp⟩ := @hybridHit_document config candidates c k h hdup hc
  rw [Function.comp_apply, hh, Option.map_some, hp, Function.comp_apply]

theorem hybrid_keeps_iff {hits : List FusedHitScratch} (hs : hits.Sublist
      ((scoreAll k (buildFsLexicalHits candidates) (buildFsSemanticHits candidates)).mergeSort
        fun a b => (a.cmpForRanking b).isLE)) :
    ((hits.filterMap (hybridHit candidates config)).map FusedHit.place).Perm
      (candidates.map legacyPlace) ↔ (hits.filter isCandidate).Perm
        ((scoreAll k (buildFsLexicalHits candidates) (buildFsSemanticHits candidates)).filter
          isCandidate) := by
  have hall := @filter_scoreAll_perm candidates k h hdup
  rw [filterMap_hybridHit]
  constructor
  case mp =>
    intro hp
    have hsub :=
      (hs.filter isCandidate).subperm.trans ((List.mergeSort_perm ..).filter isCandidate).subperm
    refine hsub.perm_of_length_le ?_
    have hle := List.length_filterMap_le (hybridHit candidates config) (hits.filter isCandidate)
    have hlen := hp.length_eq
    rw [List.length_map, List.length_map] at hlen
    rw [length_filter_scoreAll h hdup, ← hlen]
    exact hle
  case mpr =>
    intro hp
    have ⟨_, he, hm⟩ := @filterMap_document config candidates k h hdup
    rw [← hm, ← he]
    exact ((hp.trans hall).filterMap _).map _

end

theorem losesNone_of_perm {fused : List FusedHit} (hlim : candidates.length ≤ limit)
    (he : fuseRrf candidates config 0 limit = paginate candidates config 0 limit fused)
    (hle : fused.length ≤ candidates.length) :
    LosesNone config candidates limit ↔
      (fused.map FusedHit.place).Perm (candidates.map legacyPlace) := by
  have hp := @hits_paginate_perm config candidates limit fused (hle.trans hlim)
  have hl := @hits_paginate_perm config candidates limit (candidates.map (legacyHit config))
    (by rw [List.length_map]; exact hlim)
  have hlp : (candidates.map (legacyHit config)).map FusedHit.place =
      candidates.map legacyPlace := by
    rw [List.map_map]
    rfl
  simp only [LosesNone, he, totalFused_paginate]
  constructor
  case mp =>
    intro ⟨_, _, h⟩
    exact ((hp.map _).symm.trans h).trans ((hl.map _).trans (hlp ▸ .refl _))
  case mpr =>
    intro h
    have hids : (fused.map (·.docId)).Perm (candidates.map (·.docId)) := by
      have h := h.map Prod.fst
      rw [List.map_map, List.map_map] at h
      exact h
    exact ⟨(hp.map _).trans hids, by simpa using hids.length_eq,
      (hp.map _).trans (h.trans ((hl.map _).trans (hlp ▸ .refl _)).symm)⟩

theorem losesNone_iff_gapsBelow (h : Ranked candidates) (hk : 0 < config.k)
    (hlim : candidates.length ≤ limit) (hdup : hasDuplicateSourceRanks candidates = false) :
    LosesNone config candidates limit ↔ GapsBelow config candidates := by
  have he : fuseRrf candidates config 0 limit = paginate candidates config 0 limit
      ((rrfFuse (buildFsLexicalHits candidates) (buildFsSemanticHits candidates) candidates.length 0
        config.k).filterMap (hybridHit candidates config)) := by
    rw [fuseRrf, if_neg (hdup ▸ Bool.false_ne_true)]
  rw [rrfFuse_eq hk] at he
  rw [losesNone_of_perm hlim he ((List.length_filterMap_le ..).trans (List.length_take_le ..)),
    hybrid_keeps_iff h hdup (List.take_sublist ..), ← length_filter_scoreAll h hdup,
    filter_take_perm_iff separates_scoreAll, candidates_first_iff h hdup]

-- The hits are the candidates if and only if two of them share a rank, or no rank that is left out
-- counts more than a candidate does.
theorem fuseRrf_losesNone_iff (h : Ranked candidates) (hk : 0 < config.k)
    (hlim : candidates.length ≤ limit) : LosesNone config candidates limit ↔
      hasDuplicateSourceRanks candidates ∨ GapsBelow config candidates := by
  cases hdup : hasDuplicateSourceRanks candidates
  case true =>
    have he : fuseRrf candidates config 0 limit =
        paginate candidates config 0 limit (candidates.map (legacyHit config)) := by
      rw [fuseRrf, if_pos hdup]
      rfl
    rw [losesNone_of_perm hlim he (List.length_map ..).le, List.map_map]
    exact iff_of_true (.refl _) (.inl rfl)
  case false =>
    rw [losesNone_iff_gapsBelow h hk hlim hdup]
    exact ⟨.inr, fun h => h.resolve_left Bool.false_ne_true⟩

end Fuse

section SecondOnly

def secondOnly : PreparedCandidate where
  docId         := 7
  lexicalRank   := some 2
  semanticRank  := none
  lexicalScore  := some (1 : ℚ)
  semanticScore := none
  firstSource   := .lexical

def sixty : RrfConfig where
  k       := 60
  epsilon := 1 / 10 ^ 9

theorem ranked_secondOnly : Ranked [secondOnly] where
  nodup        := by decide
  ranked       := by simp [secondOnly]
  lexical_pos  := by simp [secondOnly]
  semantic_pos := by simp [secondOnly]

-- The first and the third lexical rank are left out.
def secondAndFourth : List PreparedCandidate :=
  [secondOnly, ⟨8, some 4, some 1, some 1, some 1, .lexical⟩]

theorem ranked_secondAndFourth : Ranked secondAndFourth where
  nodup        := by decide
  ranked       := by simp [secondAndFourth, secondOnly]
  lexical_pos  := by simp [secondAndFourth, secondOnly]
  semantic_pos := by simp [secondAndFourth, secondOnly]

-- The dummy of the third rank would come last, but that of the first takes a place.
theorem fuseRrf_losesNone_iff_secondAndFourth :
    (∀ c ∈ secondAndFourth, rankContribution sixty.k (3 - 1) ≤ c.score sixty.k) ∧
    Gap secondAndFourth (·.lexicalRank) 3 ∧ ¬LosesNone sixty secondAndFourth 10 := by
  have gap {gap : Nat} (hpos : 1 ≤ gap) (hlt : gap < 4)
      (hn : ∀ c ∈ secondAndFourth, c.lexicalRank ≠ some gap) :
        Gap secondAndFourth (·.lexicalRank) gap :=
    ⟨hpos, ⟨_, List.mem_cons_of_mem _ (List.mem_singleton_self _), 4, rfl, hlt⟩, hn⟩
  refine ⟨by decide +kernel, gap (by decide) (by decide) (by decide), ?_⟩
  rw [fuseRrf_losesNone_iff ranked_secondAndFourth (by decide +kernel) (by decide)]
  intro h
  have h := h.resolve_left (by decide) 1 (.inl (gap (by decide) (by decide) (by decide)))
  exact absurd (h secondOnly (List.mem_cons_self ..)) (by decide +kernel)

-- The dummy of the first rank takes the only place.
theorem not_losesNone_secondOnly : ¬LosesNone sixty [secondOnly] 10 := by
  rw [losesNone_iff_gapsBelow ranked_secondOnly (by decide +kernel) (by decide) (by decide)]
  intro h
  have hg : Gap [secondOnly] (·.lexicalRank) 1 :=
    ⟨Nat.le_refl 1, ⟨secondOnly, List.mem_singleton_self _, 2, rfl, Nat.one_lt_two⟩,
      by simp [secondOnly]⟩
  exact absurd (h 1 (.inl hg) secondOnly (List.mem_singleton_self _)) (by decide +kernel)

end SecondOnly

end Fusion
