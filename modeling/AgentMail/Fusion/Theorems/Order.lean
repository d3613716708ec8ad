import AgentMail.Fusion.Basic
import Mathlib.Tactic.Linarith

open Ranking
open Std (OrientedCmp)

namespace Fusion

section

variable {epsilon : ℚ} {a b c : Score}

theorem scoreCmp_eq_lt_iff (hε : 0 ≤ epsilon) : scoreCmp epsilon a b = .lt ↔ Ahead epsilon a b := by
  match a, b with
  | ⊥, ⊥             => simp [scoreCmp, Ahead]
  | ⊥, (b : ℚ)       => simp [scoreCmp, Ahead]
  | (a : ℚ), ⊥       => simp [scoreCmp, Ahead]
  | (a : ℚ), (b : ℚ) =>
    simp only [scoreCmp, Ahead]
    split
    case isTrue h =>
      split
      case isTrue hd  => simpa using by linarith
      case isFalse hd =>
        rw [abs_of_nonpos (not_lt.mp hd)] at h
        simpa using by linarith
    case isFalse h =>
      have := neg_abs_le (b - a)
      simpa using by linarith [not_lt.mp h]

theorem scoreCmp_swap (hε : 0 ≤ epsilon) : scoreCmp epsilon a b = (scoreCmp epsilon b a).swap := by
  match a, b with
  | ⊥, ⊥             => rfl
  | ⊥, (b : ℚ)       => rfl
  | (a : ℚ), ⊥       => rfl
  | (a : ℚ), (b : ℚ) =>
    simp only [scoreCmp, abs_sub_comm b a]
    split
    case isFalse   => rfl
    case isTrue h =>
      by_cases hd : 0 < b - a
      case pos =>
        rw [if_pos hd, if_neg (by linarith)]
        rfl
      case neg =>
        have hne : a - b ≠ 0 := abs_pos.mp (lt_of_le_of_lt hε h)
        have hlt : 0 < a - b := lt_of_le_of_ne (by linarith) hne.symm
        rw [if_neg hd, if_pos hlt]
        rfl

theorem scoreCmp_eq_eq_iff (hε : 0 ≤ epsilon) : scoreCmp epsilon a b = .eq ↔ Near epsilon a b := by
  rw [Near, ← scoreCmp_eq_lt_iff hε, ← scoreCmp_eq_lt_iff hε, scoreCmp_swap hε (a := b)]
  cases scoreCmp epsilon a b <;> simp

theorem Ahead.trans (hε : 0 ≤ epsilon) (hab : Ahead epsilon a b) (hbc : Ahead epsilon b c) :
    Ahead epsilon a c := by
  match a, b, c with
  | ⊥, _, _                   => exact hab.elim
  | (a : ℚ), ⊥, _             => exact hbc.elim
  | (a : ℚ), (b : ℚ), ⊥       => trivial
  | (a : ℚ), (b : ℚ), (c : ℚ) =>
    simp only [Ahead] at *
    linarith

end

section

variable {epsilon : ℚ} {x y z : FusedHit} {hits : List FusedHit}

def rrfCmp (epsilon : ℚ) (a b : FusedHit) : Ordering :=
  scoreCmp epsilon a.rrfScore b.rrfScore

def lexicalCmp (epsilon : ℚ) (a b : FusedHit) : Ordering :=
  scoreCmp epsilon a.lexical b.lexical

abbrev docIdCmp : FusedHit → FusedHit → Ordering :=
  compareOn (·.docId)

theorem fusedHitCmp_eq_compareLex :
    (fusedHitCmp · · epsilon) = compareLex (rrfCmp epsilon)
      (compareLex (lexicalCmp epsilon) docIdCmp) :=
  rfl

theorem rrfCmp_oriented (hε : 0 ≤ epsilon) : OrientedCmp (rrfCmp epsilon) :=
  ⟨scoreCmp_swap hε⟩

theorem lexicalCmp_oriented (hε : 0 ≤ epsilon) : OrientedCmp (lexicalCmp epsilon) :=
  ⟨scoreCmp_swap hε⟩

theorem fusedHitCmp_oriented (hε : 0 ≤ epsilon) : OrientedCmp (fusedHitCmp · · epsilon) := by
  have := rrfCmp_oriented hε
  have := lexicalCmp_oriented hε
  exact inferInstanceAs
    (OrientedCmp (compareLex (rrfCmp epsilon) (compareLex (lexicalCmp epsilon) docIdCmp)))

theorem rrfCmp_transitive (hε : 0 ≤ epsilon) : Transitive (rrfCmp epsilon) := by
  intro a b c hab hbc
  rw [rrfCmp, scoreCmp_eq_lt_iff hε] at *
  exact hab.trans hε hbc

theorem lexicalCmp_transitive (hε : 0 ≤ epsilon) : Transitive (lexicalCmp epsilon) := by
  intro a b c hab hbc
  rw [lexicalCmp, scoreCmp_eq_lt_iff hε] at *
  exact hab.trans hε hbc

theorem docIdCmp_eq_lt_iff : docIdCmp x y = .lt ↔ x.docId < y.docId :=
  Std.compare_eq_lt

theorem not_cycle_docIdCmp : ¬Cycle docIdCmp x y z :=
  fun ⟨hxy, hyz, hzx⟩ => OrientedCmp.not_lt_of_lt (Std.TransCmp.lt_trans hxy hyz) hzx

theorem tieCmp_eq_lt_iff (hε : 0 ≤ epsilon) :
    compareLex (lexicalCmp epsilon) docIdCmp x y = .lt ↔ TieBefore epsilon x y := by
  rw [compareLex_eq_lt_iff, lexicalCmp, scoreCmp_eq_lt_iff hε, scoreCmp_eq_eq_iff hε,
    docIdCmp_eq_lt_iff]
  rfl

theorem rrfInversion_iff (hε : 0 ≤ epsilon) : RrfInversion epsilon x y z ↔
    Detour (rrfCmp epsilon) (compareLex (lexicalCmp epsilon) docIdCmp) x y z := by
  simp only [Detour, tieCmp_eq_lt_iff hε, rrfCmp, scoreCmp_eq_lt_iff hε, scoreCmp_eq_eq_iff hε]
  rfl

theorem lexicalInversion_iff (hε : 0 ≤ epsilon) : LexicalInversion epsilon x y z ↔
    AllNear (rrfCmp epsilon) x y z ∧ Detour (lexicalCmp epsilon) docIdCmp x y z := by
  simp only [Detour, AllNear, docIdCmp_eq_lt_iff, rrfCmp, lexicalCmp, scoreCmp_eq_lt_iff hε,
    scoreCmp_eq_eq_iff hε, and_assoc]
  rfl

theorem cycle_fusedHitCmp_iff (hε : 0 ≤ epsilon) : Cycle (fusedHitCmp · · epsilon) x y z ↔
    (LexicalInversion epsilon x y z ∨ LexicalInversion epsilon y z x ∨
      LexicalInversion epsilon z x y) ∨
      RrfInversion epsilon x y z ∨ RrfInversion epsilon y z x ∨ RrfInversion epsilon z x y := by
  have := rrfCmp_oriented hε
  have := lexicalCmp_oriented hε
  rw [fusedHitCmp_eq_compareLex, cycle_compareLex_iff (rrfCmp_transitive hε),
    cycle_compareLex_iff (lexicalCmp_transitive hε)]
  simp only [rrfInversion_iff hε, lexicalInversion_iff hε, not_cycle_docIdCmp, and_false, false_or,
    allNear_rotate y, allNear_rotate z, and_or_left]

theorem hasInversion_iff (hε : 0 ≤ epsilon) : HasInversion epsilon hits ↔
    ∃ x ∈ hits, ∃ y ∈ hits, ∃ z ∈ hits, Cycle (fusedHitCmp · · epsilon) x y z := by
  simp only [HasInversion, cycle_fusedHitCmp_iff hε]
  constructor
  case mp =>
    intro ⟨x, hx, y, hy, z, hz, h⟩
    refine ⟨x, hx, y, hy, z, hz, ?_⟩
    obtain h | h := h
    · exact .inr (.inl h)
    · exact .inl (.inl h)
  case mpr =>
    intro ⟨x, hx, y, hy, z, hz, h⟩
    obtain (h | h | h) | h | h | h := h
    · exact ⟨x, hx, y, hy, z, hz, .inr h⟩
    · exact ⟨y, hy, z, hz, x, hx, .inr h⟩
    · exact ⟨z, hz, x, hx, y, hy, .inr h⟩
    · exact ⟨x, hx, y, hy, z, hz, .inl h⟩
    · exact ⟨y, hy, z, hz, x, hx, .inl h⟩
    · exact ⟨z, hz, x, hx, y, hy, .inl h⟩

theorem separates_of_nodup (hn : (hits.map (·.docId)).Nodup) :
    Separates (fusedHitCmp · · epsilon) hits := by
  intro a ha b hb h
  have ⟨_, h⟩ := Ordering.then_eq_eq.mp h
  have ⟨_, h⟩ := Ordering.then_eq_eq.mp h
  exact List.inj_on_of_nodup_map hn ha hb (Std.compare_eq_iff_eq.mp h)

theorem orderedByCmp_iff (hε : 0 ≤ epsilon) (hn : (hits.map (·.docId)).Nodup) :
    OrderedByCmp epsilon hits ↔ ¬HasInversion epsilon hits := by
  have := fusedHitCmp_oriented hε
  rw [OrderedByCmp, orders_iff_not_cycle (separates_of_nodup hn), hasInversion_iff hε]
  push Not
  rfl

end

section

variable {config : RrfConfig} {offset limit : Nat} {candidates : List PreparedCandidate}

theorem map_docId_legacyHit :
    (candidates.map (legacyHit config)).map (·.docId) = candidates.map (·.docId) := by
  rw [List.map_map]
  rfl

theorem orderIndependent_iff (hε : 0 ≤ config.epsilon) (hn : (candidates.map (·.docId)).Nodup) :
    OrderIndependent config offset limit candidates ↔
      ¬HasInversion config.epsilon (candidates.map (legacyHit config)) := by
  have := fusedHitCmp_oriented hε
  rw [← @map_docId_legacyHit config] at hn
  rw [← orderedByCmp_iff hε hn]
  refine ⟨And.left, fun h => ⟨h, fun candidates' hp => ?_⟩⟩
  have hs := h.mergeSort_eq_of_perm (separates_of_nodup hn) (hp.map (legacyHit config))
  simp only [fuseRrfLegacy, paginate, sortHits, hs]

-- The comparison orders hits, and the ranking does not depend on the order of the candidates, up to
-- inversions.
theorem ranking_orderIndependent_iff {epsilon : ℚ} (hε : 0 ≤ epsilon) :
    (∀ hits : List FusedHit, (hits.map (·.docId)).Nodup →
      (OrderedByCmp epsilon hits ↔ ¬HasInversion epsilon hits)) ∧
    ∀ k offset limit (candidates : List PreparedCandidate), (candidates.map (·.docId)).Nodup →
      (OrderIndependent ⟨k, epsilon⟩ offset limit candidates ↔
        ¬HasInversion epsilon (candidates.map (legacyHit ⟨k, epsilon⟩))) :=
  ⟨fun _ hn => orderedByCmp_iff hε hn, fun k _ _ _ hn =>
    @orderIndependent_iff ⟨k, epsilon⟩ _ _ _ hε hn⟩

end

section NearTies

def defaultConfig : RrfConfig where
  k       := 60
  epsilon := 1 / 10 ^ 9

def nearTie (docId : Int64) (score : ℚ) : PreparedCandidate where
  docId         := docId
  lexicalRank   := some 1
  semanticRank  := none
  lexicalScore  := some score
  semanticScore := none
  firstSource   := .lexical

-- Neighbours are near each other, the first and the last one are not.
def nearTies : List PreparedCandidate :=
  [nearTie 1 0, nearTie 2 (8 / 10 ^ 10), nearTie 3 (16 / 10 ^ 10)]

theorem ranking_orderIndependent_iff_nearTies :
    OrderIndependent defaultConfig 0 10 nearTies ↔
      ¬HasInversion defaultConfig.epsilon (nearTies.map (legacyHit defaultConfig)) :=
  (@ranking_orderIndependent_iff (1 / 10 ^ 9) (by norm_num)).right 60 0 10 nearTies (by decide)

theorem not_orderedByCmp_nearTies :
    ¬OrderedByCmp defaultConfig.epsilon (nearTies.map (legacyHit defaultConfig)) := by
  intro h
  have hlt := h.trans (legacyHit defaultConfig (nearTie 1 0)) (by simp [nearTies])
    (legacyHit defaultConfig (nearTie 2 (8 / 10 ^ 10))) (by simp [nearTies])
    (legacyHit defaultConfig (nearTie 3 (16 / 10 ^ 10))) (by simp [nearTies])
    (by decide +kernel) (by decide +kernel)
  exact absurd hlt (by decide +kernel)

end NearTies

end Fusion
