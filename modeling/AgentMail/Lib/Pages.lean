import Mathlib.Data.List.Sort
import Mathlib.Tactic.Common

-- Lists that are read page by page, where a page comes with a token for the next one.

namespace Pages

variable {α τ : Type}

inductive Run (page : Option τ → List α × Option τ) : Option τ → List (List α) → Prop
  | last {t} (h : (page t).snd = none) : Run page t [(page t).fst]
  | more {t t' ps} (h : (page t).snd = some t') (hr : Run page (some t') ps) :
      Run page t ((page t).fst :: ps)

-- The run of pages from the first page on is finite, and it shows the items in their order.
def Enumerates (page : Option τ → List α × Option τ) (items : List α) : Prop :=
  ∃ ps, Run page none ps ∧ ps.flatten = items

-- A page of a window of items. It is the last one if it is not full.
def cut (limit : Nat) (token : α → τ) (window : List α) : List α × Option τ :=
  let items := window.take limit
  (items, if items.length < limit then none else items.getLast?.map token)

section

variable {page : Option τ → List α × Option τ} {t : Option τ} {ps ps' : List (List α)}

theorem Run.unique (h : Run page t ps) (h' : Run page t ps') : ps = ps' := by
  induction h generalizing ps'
  case last h =>
    cases h'
    case last      => rfl
    case more _ h' => cases h.symm.trans h'
  case more h _ hi =>
    cases h'
    case last h' => cases h'.symm.trans h
    case more hr' h' =>
      cases h.symm.trans h'
      rw [hi hr']

theorem not_run_of_some (h : ∀ t, (page t).snd ≠ none) : ¬Run page t ps := by
  intro hr
  induction hr
  case last h'    => exact h _ h'
  case more _ hi  => exact hi

end

section

variable {limit : Nat} {token : α → τ} {window : Option τ → List α} {items all before rest : List α}
  {a : α}

theorem cut_of_length_lt (h : rest.length < limit) : cut limit token rest = (rest, none) := by
  simp [cut, List.take_of_length_le (Nat.le_of_lt h), h]

theorem cut_of_append (h : before.length + 1 = limit) :
    cut limit token (before ++ a :: rest) = (before ++ [a], some (token a)) := by
  have ht : (before ++ a :: rest).take limit = before ++ [a] := by
    rw [List.append_cons, List.take_append_of_le_length (by simp [h]),
      List.take_of_length_le (by simp [h])]
  simp [cut, ht, h]

theorem exists_append_of_le (hl : 0 < limit) (h : limit ≤ items.length) :
    ∃ before a rest, items = before ++ a :: rest ∧ before.length + 1 = limit := by
  have hi : limit - 1 < items.length := by omega
  refine ⟨items.take (limit - 1), items[limit - 1], items.drop limit, ?_, by simp; omega⟩
  have := List.getElem_cons_drop hi
  rw [Nat.sub_add_cancel hl] at this
  rw [this, List.take_append_drop]

-- Pages that do not depend on the token never end, unless there is only one.
theorem enumerates_const_iff (hl : 0 < limit) :
    Enumerates (fun _ => cut limit token items) items ↔ items.length < limit := by
  constructor
  case mp =>
    intro ⟨ps, hr, _⟩
    by_contra h
    obtain ⟨front, a, back, rfl, hf⟩ := exists_append_of_le hl (Nat.le_of_not_lt h)
    refine not_run_of_some (fun _ => ?_) hr
    rw [cut_of_append hf]
    nofun
  case mpr =>
    intro h
    have hc : cut limit token items = (items, none) := cut_of_length_lt h
    exact ⟨_, .last (congrArg Prod.snd hc), by simp [hc]⟩

variable (hw : ∀ before a rest, items = before ++ a :: rest → window (some (token a)) = rest)

include hw

-- Induction on what is left after an item that was on some page.
theorem run_after (hl : 0 < limit) (h : items = before ++ a :: rest) :
    ∃ ps, Run (fun t => cut limit token (window t)) (some (token a)) ps ∧ ps.flatten = rest := by
  induction hn : rest.length using Nat.strongRecOn generalizing before a rest
  case ind n hi =>
    have hp := hw before a rest h
    by_cases hlt : rest.length < limit
    case pos =>
      have hc : cut limit token (window (some (token a))) = (rest, none) :=
        hp.symm ▸ cut_of_length_lt hlt
      exact ⟨_, .last (congrArg Prod.snd hc), by simp [hc]⟩
    case neg =>
      obtain ⟨before', b, rest', rfl, hl'⟩ := exists_append_of_le hl (Nat.le_of_not_lt hlt)
      have hc : cut limit token (window (some (token a))) = (before' ++ [b], some (token b)) :=
        hp.symm ▸ cut_of_append hl'
      have he : items = (before ++ a :: before') ++ b :: rest' := by rw [h, List.append_assoc]; rfl
      have ⟨ps, hr, hf⟩ := hi rest'.length (by simp at hn; omega) he rfl
      exact ⟨_, .more (congrArg Prod.snd hc) hr, by simp [hc, hf]⟩

-- The first page is cut from other items than the rest.
theorem enumerates_iff (hl : 0 < limit) (hs : (window none).Sublist items) (hs' : items.Sublist all)
    (hn : all.Nodup) :
    Enumerates (fun t => cut limit token (window t)) all ↔
      if (window none).length < limit then window none = all
      else (window none).take limit = all.take limit ∧ items = all := by
  by_cases hlt : (window none).length < limit
  case pos =>
    have hc : cut limit token (window none) = (window none, none) := cut_of_length_lt hlt
    rw [if_pos hlt]
    constructor
    case mp =>
      intro ⟨ps, hr, hf⟩
      cases hr.unique (.last (congrArg Prod.snd hc))
      simpa [hc] using hf
    case mpr =>
      intro h
      refine ⟨_, .last (congrArg Prod.snd hc), ?_⟩
      simpa only [List.flatten_singleton, hc] using h
  case neg =>
    have ⟨before, a, rest, he, hl'⟩ := exists_append_of_le hl (Nat.le_of_not_lt hlt)
    have hc : cut limit token (window none) = (before ++ [a], some (token a)) :=
      he.symm ▸ cut_of_append hl'
    have ht : (window none).take limit = before ++ [a] := congrArg Prod.fst hc
    have ha : a ∈ items := hs.subset (by rw [he]; simp)
    have ⟨before', rest', he'⟩ := List.append_of_mem ha
    have ⟨ps, hr, hf⟩ := run_after hw hl he'
    have hr' : Run _ none _ := .more (congrArg Prod.snd hc) hr
    rw [if_neg hlt, ht]
    have hni : (before' ++ a :: rest').Nodup := he' ▸ hs'.nodup hn
    have ha' : a ∉ before' ∧ a ∉ rest' := by
      have := List.nodup_middle.mp hni
      simpa using (List.nodup_cons.mp this).left
    constructor
    case mp =>
      intro ⟨ps', hps, hf'⟩
      cases hps.unique hr'
      simp only [List.flatten_cons, hc, hf, List.append_assoc, List.singleton_append] at hf'
      have hb : before.length ≤ before'.length := by
        rw [he, he'] at hs
        have ⟨r, r', hr, hb, har⟩ := List.append_sublist_iff.mp hs
        have ⟨c, d, hcd⟩ := List.append_of_mem (har.subset List.mem_cons_self)
        rw [hcd, ← List.append_assoc] at hr
        have ⟨hbr, _⟩ := (List.append_cons_inj_of_notMem ha'.left ha'.right).mp hr
        rw [hbr, List.length_append]
        exact Nat.le_trans hb.length_le (Nat.le_add_right _ _)
      refine ⟨?_, hs'.eq_of_length_le ?_⟩
      · have ht : (before ++ [a]).length = limit := by simp [hl']
        rw [← hf']
        exact ((congrArg (List.take limit) (List.append_cons before a _)).trans
          (List.take_left' ht)).symm
      · simp only [← hf', he', List.length_append, List.length_cons]
        omega
    case mpr =>
      intro ⟨ht', hi⟩
      have hall : before' ++ a :: rest' = before ++ a :: all.drop limit := by
        rw [← he', hi, List.append_cons, ht', List.take_append_drop]
      have ⟨hb, _, hrest⟩ := (List.append_cons_inj_of_notMem ha'.left ha'.right).mp hall
      refine ⟨_, hr', ?_⟩
      simp only [List.flatten_cons, hc, hf, hrest, ht', List.take_append_drop]

end

section

variable {before : α → α → Prop} [Std.Irrefl before] [Std.Antisymm before]
  {page : Option τ → List α × Option τ} {limit : Nat} {token : α → τ} {window : Option τ → List α}
    {first items all : List α} {a : α}

theorem enumerates_iff_sorted (hall : all.Pairwise before) : Enumerates page all ↔
    ∃ ps, Run page none ps ∧ ps.flatten.Pairwise before ∧ ∀ a, a ∈ ps.flatten ↔ a ∈ all := by
  constructor
  case mp =>
    intro ⟨ps, hr, hf⟩
    exact ⟨ps, hr, hf ▸ hall, fun a => by rw [hf]⟩
  case mpr =>
    intro ⟨ps, hr, hp, hm⟩
    exact ⟨ps, hr, hp.eq_of_mem_iff hall hm⟩

theorem sublist_of_sorted (hs : first.Pairwise before) (hall : all.Pairwise before)
    (h : first ⊆ all) : first.Sublist all :=
  List.sublist_of_subperm_of_pairwise (List.subperm_of_subset hs.nodup h) hs hall

theorem eq_iff_subset (hs : first.Pairwise before) (hall : all.Pairwise before) (h : first ⊆ all) :
    first = all ↔ all ⊆ first := by
  constructor
  case mp  => exact fun he => he ▸ List.Subset.refl _
  case mpr => exact fun h' => hs.eq_of_mem_iff hall fun _ => ⟨@h _, @h' _⟩

theorem take_eq_take_iff (hs : first.Pairwise before) (hall : all.Pairwise before) (h : first ⊆ all)
    (hl : limit ≤ first.length) : first.take limit = all.take limit ↔ all.take limit ⊆ first := by
  constructor
  case mp  => exact fun he => he ▸ List.take_subset _ _
  case mpr =>
    intro ht
    have hsub := sublist_of_sorted hs hall h
    have hle := hsub.length_le
    rw [← all.take_append_drop limit] at hsub hall
    have ⟨front, back, hfb, hf, hb⟩ := List.sublist_append_iff.mp hsub
    have ⟨hp, _, hd⟩ := List.pairwise_append.mp hall
    have hsub : all.take limit ⊆ front := by
      intro a ha
      obtain hm | hm := List.mem_append.mp (hfb ▸ ht ha)
      · exact hm
      · exact absurd (hd a ha a (hb.subset hm)) (irrefl a)
    have he := hf.eq_of_length_le (List.subperm_of_subset hp.nodup hsub).length_le
    rw [hfb, he]
    exact List.take_left' (by rw [List.length_take]; omega)

variable [DecidableRel before]

-- The position of an item is the number of the items before it.
theorem mem_take_iff (hall : all.Pairwise before) (ha : a ∈ all) :
    a ∈ all.take limit ↔ (all.filter (before · a)).length < limit := by
  obtain ⟨front, back, rfl⟩ := List.append_of_mem ha
  have ⟨_, hb, hd⟩ := List.pairwise_append.mp hall
  have hf : front.filter (before · a) = front :=
    List.filter_eq_self.mpr fun b hb => decide_eq_true (hd b hb a List.mem_cons_self)
  have hback : back.filter (before · a) = [] := by
    refine List.filter_eq_nil_iff.mpr fun b hm hba => ?_
    have hab := (List.pairwise_cons.mp hb).left b hm
    cases antisymm (of_decide_eq_true hba) hab
    exact irrefl a hab
  have hn : a ∉ front := fun hm => irrefl a (hd a hm a List.mem_cons_self)
  have hl : ((front ++ a :: back).filter (before · a)).length = front.length := by
    simp [hf, hback, irrefl a]
  rw [hl, List.take_append, List.mem_append]
  constructor
  case mp =>
    intro h
    obtain h | h := h
    · exact absurd (List.take_subset _ _ h) hn
    · by_contra hc
      rw [Nat.sub_eq_zero_of_le (Nat.le_of_not_lt hc)] at h
      exact nomatch h
  case mpr =>
    intro h
    have : limit - front.length = limit - front.length - 1 + 1 := by omega
    rw [this, List.take_succ_cons]
    exact .inr List.mem_cons_self

-- Every page but the first is cut from the items after a token, and all items are to be shown, in
-- their order.
theorem shows_all_iff (hl : 0 < limit)
    (hw : ∀ front a back, items = front ++ a :: back → window (some (token a)) = back)
    (hf : (window none).Pairwise before) (hi : items.Pairwise before) (hall : all.Pairwise before)
    (hs : window none ⊆ items) (hs' : items ⊆ all) :
    Enumerates (fun t => cut limit token (window t)) all ↔
      if (window none).length < limit then ∀ a ∈ all, a ∈ window none
      else (∀ a ∈ all, a ∈ items) ∧ ∀ a ∈ all, a ∉ window none →
        limit ≤ (all.filter (before · a)).length := by
  rw [enumerates_iff hw hl (sublist_of_sorted hf hi hs) (sublist_of_sorted hi hall hs') hall.nodup]
  by_cases h : (window none).length < limit
  case pos => rw [if_pos h, if_pos h, eq_iff_subset hf hall (List.Subset.trans hs hs')]; rfl
  case neg =>
    rw [if_neg h, if_neg h, eq_iff_subset hi hall hs',
      take_eq_take_iff hf hall (List.Subset.trans hs hs') (Nat.le_of_not_lt h), and_comm]
    refine and_congr_right fun _ => ⟨fun ht a ha hn => ?_, fun hc a ha => ?_⟩
    · rw [← Nat.not_lt, ← mem_take_iff hall ha]
      exact fun hm => hn (ht hm)
    · have hm := List.take_subset _ _ ha
      by_contra hn
      exact Nat.not_lt.mpr (hc a hm hn) ((mem_take_iff hall hm).mp ha)

end

end Pages
