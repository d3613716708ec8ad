import AgentMail.Fusion.Preparation
import AgentMail.Lib.Ranking
import Mathlib.Data.List.Dedup
import Mathlib.Data.List.Induction

open Ranking
open Std (TransCmp)

namespace Fusion

open PreparedCandidate

section Map

variable {source source' : CandidateSource} {hit hit' : CandidateHit} {idx idx' : Nat}
  {c : PreparedCandidate} {hits lexical semantic : List CandidateHit} {map : CandidateMap}
    {docId : Int64}

theorem docId_ofHit : (ofHit source hit idx).docId = hit.docId := by
  cases source <;> rfl

theorem seenAgain_seenAgain :
    (c.seenAgain source hit idx).seenAgain source hit' idx' = c.seenAgain source hit' idx' := by
  cases source <;> rfl

theorem seenAgain_ofHit (h : hit.docId = hit'.docId) :
    (ofHit source hit idx).seenAgain source hit' idx' = ofHit source hit' idx' := by
  cases source <;> simp [seenAgain, ofHit, h]

theorem rank_seenAgain :
    (c.seenAgain source hit idx).rank source' = if source' = source then some (idx + 1)
      else c.rank source' := by
  cases source <;> cases source' <;> rfl

theorem rank_ofHit : (ofHit source hit idx).rank source' = if source' = source then some (idx + 1)
    else none := by
  cases source <;> cases source' <;> rfl

def occurrences (hits : List CandidateHit) (docId : Int64) : List (CandidateHit × Nat) :=
  hits.zipIdx.filter (·.fst.docId = docId)

theorem occurrences_append_singleton : occurrences (hits ++ [hit]) docId =
    occurrences hits docId ++ if hit.docId = docId then [(hit, hits.length)] else [] := by
  rw [occurrences, List.zipIdx_append, List.filter_append, List.zipIdx_singleton,
    List.filter_singleton]
  simp [occurrences]

theorem occurrences_eq_nil_iff : occurrences hits docId = [] ↔ docId ∉ docIds hits := by
  simp only [occurrences, List.filter_eq_nil_iff, docIds, List.mem_map, decide_eq_true_eq,
    not_exists, not_and]
  constructor
  case mp =>
    intro h hit hm
    have ⟨idx, hi⟩ := List.mem_iff_getElem?.mp hm
    exact h (hit, idx) (List.mem_zipIdx_iff_getElem?.mpr hi)
  case mpr => exact fun h x hx => h x.fst (List.fst_mem_of_mem_zipIdx hx)

theorem docId_of_mem_occurrences {x : CandidateHit × Nat} (h : x ∈ occurrences hits docId) :
    x.fst.docId = docId := by
  simpa using (List.mem_filter.mp h).right

-- A document has the place of its last occurrence.
theorem get?_addHits : (addHits source hits map).get? docId =
    match (occurrences hits docId).getLast? with
    | none            => map.get? docId
    | some (hit, idx) =>
      some ((map.get? docId).elim (ofHit source hit idx) (seenAgain source hit idx)) := by
  induction hits using List.reverseRecOn
  case nil => rfl
  case append_singleton hits hit hi =>
    have hf : addHits source (hits ++ [hit]) map = addHit source (addHits source hits map)
        (hit, hits.length) := by
      simp [addHits, List.zipIdx_append]
    rw [hf, addHit, Table.get?_modifyOrInsert docId_seenAgain, docId_ofHit, hi,
      occurrences_append_singleton]
    by_cases hd : hit.docId = docId
    case neg => simp [hd]
    case pos =>
      rw [if_pos hd, if_pos hd, List.getLast?_concat]
      cases hl : (occurrences hits docId).getLast?
      case none   => rfl
      case some x =>
        have hx := docId_of_mem_occurrences (List.mem_of_getLast? hl)
        cases map.get? docId
        case none   => exact congrArg some (seenAgain_ofHit (hx.trans hd.symm))
        case some c => exact congrArg some seenAgain_seenAgain

theorem positions_eq : positions hits docId = (occurrences hits docId).map (·.snd + 1) :=
  rfl

theorem rank_addHits : ((addHits source hits map).get? docId).bind (·.rank source') =
    if source' = source then
      (positions hits docId).getLast?.or ((map.get? docId).bind (·.rank source'))
    else (map.get? docId).bind (·.rank source') := by
  rw [get?_addHits, positions_eq, List.getLast?_map]
  cases (occurrences hits docId).getLast?
  case none   => simp
  case some x =>
    cases map.get? docId
    case none   => simp [rank_ofHit]
    case some c => simp [rank_seenAgain]

theorem get?_addHits_eq_none_iff :
    (addHits source hits map).get? docId = none ↔ docId ∉ docIds hits ∧ map.get? docId = none := by
  rw [get?_addHits, ← occurrences_eq_nil_iff]
  cases hl : (occurrences hits docId).getLast?
  case none   => simp [List.getLast?_eq_none_iff.mp hl]
  case some x => simp [List.ne_nil_of_mem (List.mem_of_getLast? hl)]

theorem rank_unionMap (h : c ∈ (unionMap lexical semantic).rows) :
    c.lexicalRank = (positions lexical c.docId).getLast? ∧
      c.semanticRank = (positions semantic c.docId).getLast? := by
  have hr {source} :
      c.rank source = ((unionMap lexical semantic).get? c.docId).bind (·.rank source) := by
    rw [Table.get?_key h, Option.bind_some]
  have he : (Table.empty : CandidateMap).get? c.docId = none := rfl
  constructor
  · show c.rank .lexical = _
    simp [hr, unionMap, rank_addHits, he]
  · show c.rank .semantic = _
    simp [hr, unionMap, rank_addHits, he]

theorem mem_docId_unionMap :
    docId ∈ (unionMap lexical semantic).rows.map (·.docId) ↔
      docId ∈ docIds lexical ++ docIds semantic := by
  have hn : docId ∈ (unionMap lexical semantic).rows.map (·.docId) ↔
      (unionMap lexical semantic).get? docId ≠ none := by
    simp [Table.get?_eq_none_iff]
  rw [hn, unionMap, Ne, get?_addHits_eq_none_iff, get?_addHits_eq_none_iff, List.mem_append]
  simp only [Table.empty, Table.get?, List.find?_nil, and_true]
  tauto

end Map

section Cmp

variable {candidates candidates' : List PreparedCandidate}

instance : TransCmp preparedCandidateCmp :=
  inferInstanceAs <| TransCmp <|
    compareLex (compareOn bestRank) <|
      compareLex (compareOn fun c => rankOrMax c.lexicalRank) <|
        compareLex (compareOn fun c => rankOrMax c.semanticRank) <|
          compareLex
            (fun a b => compareOn (fun c : PreparedCandidate => c.lexicalScore.getD ⊥) b a) <|
            compareLex
              (fun a b => compareOn (fun c : PreparedCandidate => c.semanticScore.getD ⊥) b a) <|
              compareOn (·.docId)

theorem separates_preparedCandidateCmp (hn : (candidates.map (·.docId)).Nodup) :
    Separates preparedCandidateCmp candidates := by
  intro a ha b hb h
  have ⟨_, h⟩ := Ordering.then_eq_eq.mp h
  have ⟨_, h⟩ := Ordering.then_eq_eq.mp h
  have ⟨_, h⟩ := Ordering.then_eq_eq.mp h
  have ⟨_, h⟩ := Ordering.then_eq_eq.mp h
  have ⟨_, h⟩ := Ordering.then_eq_eq.mp h
  exact List.inj_on_of_nodup_map hn ha hb (Std.compare_eq_iff_eq.mp h)

theorem orders_preparedCandidateCmp : Orders preparedCandidateCmp candidates :=
  ⟨fun _ _ _ _ => Std.OrientedCmp.eq_swap, fun _ _ _ _ _ _ => TransCmp.lt_trans⟩

def sortCandidates (candidates : List PreparedCandidate) : List PreparedCandidate :=
  candidates.mergeSort fun a b => (preparedCandidateCmp a b).isLE

theorem sortCandidates_eq_of_perm (hn : (candidates.map (·.docId)).Nodup)
    (hp : candidates'.Perm candidates) : sortCandidates candidates' = sortCandidates candidates :=
  orders_preparedCandidateCmp.mergeSort_eq_of_perm (separates_preparedCandidateCmp hn) hp

theorem sortCandidates_perm : (sortCandidates candidates).Perm candidates :=
  List.mergeSort_perm ..

theorem pairwise_sortCandidates (hn : (candidates.map (·.docId)).Nodup) :
    (sortCandidates candidates).Pairwise fun a b => preparedCandidateCmp a b = .lt := by
  have hle : (sortCandidates candidates).Pairwise fun a b => (preparedCandidateCmp a b).isLE :=
    pairwise_mergeSort_of_transCmp
  have hn : ((sortCandidates candidates).map (·.docId)).Nodup :=
    (sortCandidates_perm.map _).nodup_iff.mpr hn
  have hs := separates_preparedCandidateCmp hn
  refine (hle.and (List.pairwise_map.mp hn)).imp_of_mem fun {a b} ha hb ⟨hle, hne⟩ => ?_
  obtain hlt | heq := Ordering.isLE_iff_eq_lt_or_eq_eq.mp hle
  · exact hlt
  · exact absurd (congrArg _ (hs a ha b hb heq)) hne

end Cmp

section Union

variable (order : MapOrder PreparedCandidate) (lexicalHits semanticHits : List CandidateHit)
  (budget : CandidateBudget)

abbrev trimmedMap : CandidateMap :=
  unionMap (budget.trimmed lexicalHits semanticHits .lexical)
    (budget.trimmed lexicalHits semanticHits .semantic)

variable {lexicalHits semanticHits budget} in
theorem rank_eq_getLast? {c : PreparedCandidate}
    (h : c ∈ (trimmedMap lexicalHits semanticHits budget).rows) (source : CandidateSource) :
    c.rank source =
      (positions (budget.trimmed lexicalHits semanticHits source) c.docId).getLast? := by
  have ⟨hl, hs⟩ := rank_unionMap h
  cases source
  case lexical  => exact hl
  case semantic => exact hs

variable {lexicalHits semanticHits budget} in
theorem placed_of_mem {c : PreparedCandidate}
    (h : c ∈ (trimmedMap lexicalHits semanticHits budget).rows) (source : CandidateSource) :
    Placed lexicalHits semanticHits budget c source where
  absent    := by
    rw [rank_eq_getLast? h, List.getLast?_eq_none_iff, positions_eq, List.map_eq_nil_iff,
      occurrences_eq_nil_iff]
  listed _ hr := List.mem_of_getLast? (rank_eq_getLast? h source ▸ hr)
  once _ ho   := by rw [rank_eq_getLast? h, ho, List.getLast?_singleton]

theorem docIds_trimmedMap :
    ((trimmedMap lexicalHits semanticHits budget).rows.map (·.docId)).Perm (unionIds lexicalHits
      semanticHits budget) := by
  refine (List.perm_ext_iff_of_nodup (Table.nodup _) (List.nodup_dedup _)).mpr fun docId => ?_
  exact mem_docId_unionMap.trans List.mem_dedup.symm

theorem prepareCandidates_rankedUnion :
    ∃ union, ∀ order, RankedUnion lexicalHits semanticHits budget
      (prepareCandidates order lexicalHits semanticHits budget) union := by
  have hn := (trimmedMap lexicalHits semanticHits budget).nodup
  have hd := docIds_trimmedMap lexicalHits semanticHits budget
  have hp := @sortCandidates_perm (trimmedMap lexicalHits semanticHits budget).rows
  refine ⟨sortCandidates (trimmedMap lexicalHits semanticHits budget).rows, fun order => ?_⟩
  have hc : (prepareCandidates order lexicalHits semanticHits budget).candidates =
      (sortCandidates (trimmedMap lexicalHits semanticHits budget).rows).take
        budget.combinedLimit :=
    congrArg (List.take budget.combinedLimit) (sortCandidates_eq_of_perm hn (order.perm _))
  have hl := (hp.map (·.docId)).trans hd |>.length_eq
  constructor
  case nodup =>
    rw [hc]
    exact ((List.take_sublist ..).map _).nodup ((hp.map _).nodup_iff.mpr hn)
  case documents  => exact (hp.map _).trans hd
  case sorted     => exact pairwise_sortCandidates hn
  case placed     => exact fun c hc => placed_of_mem (hp.mem_iff.mp hc)
  case candidates => exact hc
  case whole      =>
    exact fun hle => hc.trans (List.take_of_length_le (by rwa [← List.length_map, hl]))
  case deduped =>
    show (prepareCandidates order lexicalHits semanticHits budget).candidates.length = _
    rw [hc, List.length_take, ← hl, List.length_map]
  case selected =>
    have hle : (unionIds lexicalHits semanticHits budget).length ≤
        (docIds (budget.trimmed lexicalHits semanticHits .lexical) ++
          docIds (budget.trimmed lexicalHits semanticHits .semantic)).length :=
      (List.dedup_sublist _).length_le
    have hu : (prepareCandidates order lexicalHits semanticHits budget).candidates.length ≤
        (unionIds lexicalHits semanticHits budget).length := by
      rw [hc, List.length_take, ← hl, List.length_map]
      exact Nat.min_le_right ..
    simp only [List.length_append, docIds, List.length_map] at hle
    exact (Nat.add_sub_cancel' (Nat.le_trans hu hle)).symm

def insertionOrder : MapOrder PreparedCandidate where
  values := id
  perm   := List.Perm.refl

-- One document in each source, and room for one of them.
theorem not_faithfulUnion_one_of_two : ¬FaithfulUnion [⟨7, (1 : ℚ)⟩] [⟨9, (1 : ℚ)⟩] ⟨5, 5, 1⟩
    (prepareCandidates insertionOrder [⟨7, (1 : ℚ)⟩] [⟨9, (1 : ℚ)⟩] ⟨5, 5, 1⟩) := by
  intro h
  have hu : (unionIds [⟨7, (1 : ℚ)⟩] [⟨9, (1 : ℚ)⟩] ⟨5, 5, 1⟩).length = 2 := by decide +kernel
  have hle : (prepareCandidates insertionOrder [⟨7, (1 : ℚ)⟩] [⟨9, (1 : ℚ)⟩] ⟨5, 5,
      1⟩).counts.dedupedSelected ≤ 1 :=
    List.length_take_le ..
  rw [h.deduped, hu] at hle
  exact absurd hle (by decide)

end Union

end Fusion
