import AgentMail.Fusion.Basic
import AgentMail.Lib.Table

namespace Fusion

structure CandidateHit where
  docId : Int64
  score : Score
  deriving DecidableEq

structure CandidateBudget where
  lexicalLimit  : Nat
  semanticLimit : Nat
  combinedLimit : Nat
  deriving DecidableEq

structure CandidateStageCounts where
  lexicalConsidered  : Nat
  semanticConsidered : Nat
  lexicalSelected    : Nat
  semanticSelected   : Nat
  dedupedSelected    : Nat
  duplicatesRemoved  : Nat
  deriving DecidableEq

structure CandidatePreparation where
  budget     : CandidateBudget
  counts     : CandidateStageCounts
  candidates : List PreparedCandidate
  deriving DecidableEq

-- The order in which a hash map hands out its values.
structure MapOrder (α : Type) where
  values : List α → List α
  perm   : ∀ l, (values l).Perm l

def usizeMax : Nat :=
  2 ^ 64 - 1

def rankOrMax (rank : Option Nat) : Nat :=
  rank.getD usizeMax

def scoreCmpDesc (a b : Option Score) : Ordering :=
  compare (b.getD ⊥) (a.getD ⊥)

namespace PreparedCandidate

def rank (c : PreparedCandidate) : CandidateSource → Option Nat
  | .lexical  => c.lexicalRank
  | .semantic => c.semanticRank

def bestRank (c : PreparedCandidate) : Nat :=
  (c.lexicalRank.toList ++ c.semanticRank.toList).min?.getD usizeMax

def preparedCandidateCmp (left right : PreparedCandidate) : Ordering :=
  (compare left.bestRank right.bestRank).then <|
    (compare (rankOrMax left.lexicalRank) (rankOrMax right.lexicalRank)).then <|
      (compare (rankOrMax left.semanticRank) (rankOrMax right.semanticRank)).then <|
        (scoreCmpDesc left.lexicalScore right.lexicalScore).then <|
          (scoreCmpDesc left.semanticScore right.semanticScore).then <|
            compare left.docId right.docId

-- The two loops of the source are the same up to the fields that they write.
def seenAgain (source : CandidateSource) (hit : CandidateHit) (idx : Nat) (c : PreparedCandidate) :
    PreparedCandidate :=
  match source with
  | .lexical  => { c with lexicalRank := some (idx + 1), lexicalScore := some hit.score }
  | .semantic => { c with semanticRank := some (idx + 1), semanticScore := some hit.score }

def ofHit (source : CandidateSource) (hit : CandidateHit) (idx : Nat) : PreparedCandidate :=
  match source with
  | .lexical => {
      docId         := hit.docId
      lexicalRank   := some (idx + 1)
      semanticRank  := none
      lexicalScore  := some hit.score
      semanticScore := none
      firstSource   := .lexical
    }
  | .semantic => {
      docId         := hit.docId
      lexicalRank   := none
      semanticRank  := some (idx + 1)
      lexicalScore  := none
      semanticScore := some hit.score
      firstSource   := .semantic
    }

theorem docId_seenAgain {source : CandidateSource} {hit : CandidateHit} {idx : Nat}
    (c : PreparedCandidate) : (c.seenAgain source hit idx).docId = c.docId := by
  cases source <;> rfl

end PreparedCandidate

open PreparedCandidate

abbrev CandidateMap :=
  Table PreparedCandidate.docId

def addHit (source : CandidateSource) (map : CandidateMap) : CandidateHit × Nat → CandidateMap
  | (hit, idx) =>
    map.modifyOrInsert (seenAgain source hit idx) docId_seenAgain (ofHit source hit idx)

def addHits (source : CandidateSource) (hits : List CandidateHit) (map : CandidateMap) :
    CandidateMap :=
  hits.zipIdx.foldl (addHit source) map

def unionMap (lexicalTrimmed semanticTrimmed : List CandidateHit) : CandidateMap :=
  addHits .semantic semanticTrimmed (addHits .lexical lexicalTrimmed .empty)

def prepareCandidates (order : MapOrder PreparedCandidate)
    (lexicalHits semanticHits : List CandidateHit) (budget : CandidateBudget) :
    CandidatePreparation :=
  let lexicalTrimmed := lexicalHits.take budget.lexicalLimit
  let semanticTrimmed := semanticHits.take budget.semanticLimit
  let map := unionMap lexicalTrimmed semanticTrimmed
  let sorted := (order.values map.rows).mergeSort fun a b => (preparedCandidateCmp a b).isLE
  let candidates := sorted.take budget.combinedLimit
  let selectedTotal := lexicalTrimmed.length + semanticTrimmed.length
  {
    budget     := budget
    counts     := {
      lexicalConsidered  := lexicalHits.length
      semanticConsidered := semanticHits.length
      lexicalSelected    := lexicalTrimmed.length
      semanticSelected   := semanticTrimmed.length
      dedupedSelected    := candidates.length
      duplicatesRemoved  := selectedTotal - candidates.length
    }
    candidates := candidates
  }

section Properties

variable (lexicalHits semanticHits : List CandidateHit) (budget : CandidateBudget)

def CandidateBudget.trimmed : CandidateSource → List CandidateHit
  | .lexical  => lexicalHits.take budget.lexicalLimit
  | .semantic => semanticHits.take budget.semanticLimit

def docIds (hits : List CandidateHit) : List Int64 :=
  hits.map (·.docId)

-- The documents of both trimmed lists, each once.
def unionIds : List Int64 :=
  (docIds (budget.trimmed lexicalHits semanticHits .lexical) ++
    docIds (budget.trimmed lexicalHits semanticHits .semantic)).dedup

-- The positions of a document in a list, of which the first one is 1.
def positions (hits : List CandidateHit) (docId : Int64) : List Nat :=
  (hits.zipIdx.filter (·.fst.docId = docId)).map (·.snd + 1)

-- The candidates are all documents of the union, at their first positions.
structure FaithfulUnion (preparation : CandidatePreparation) : Prop where
  nodup     : (preparation.candidates.map (·.docId)).Nodup
  union     : ∀ docId, docId ∈ preparation.candidates.map (·.docId) ↔
    docId ∈ unionIds lexicalHits semanticHits budget
  best_rank : ∀ c ∈ preparation.candidates, ∀ source,
    c.rank source = (positions (budget.trimmed lexicalHits semanticHits source) c.docId).head?
  deduped   : preparation.counts.dedupedSelected = (unionIds lexicalHits semanticHits budget).length
  selected  : preparation.counts.lexicalSelected + preparation.counts.semanticSelected =
    preparation.counts.dedupedSelected + preparation.counts.duplicatesRemoved

-- A candidate has a rank in the sources that list its document. The rank is the document's
-- position, where it has only one.
structure Placed (c : PreparedCandidate) (source : CandidateSource) : Prop where
  absent : c.rank source = none ↔ c.docId ∉ docIds (budget.trimmed lexicalHits semanticHits source)
  listed : ∀ rank ∈ c.rank source,
    rank ∈ positions (budget.trimmed lexicalHits semanticHits source) c.docId
  once   : ∀ rank, positions (budget.trimmed lexicalHits semanticHits source) c.docId = [rank] →
    c.rank source = some rank

-- The candidates are the first ones of the union, as many as the budget has room for.
structure RankedUnion (preparation : CandidatePreparation) (union : List PreparedCandidate) :
    Prop where
  nodup      : (preparation.candidates.map (·.docId)).Nodup
  documents  : (union.map (·.docId)).Perm (unionIds lexicalHits semanticHits budget)
  sorted     : union.Pairwise fun a b => preparedCandidateCmp a b = .lt
  placed     : ∀ c ∈ union, ∀ source, Placed lexicalHits semanticHits budget c source
  candidates : preparation.candidates = union.take budget.combinedLimit
  whole      : (unionIds lexicalHits semanticHits budget).length ≤ budget.combinedLimit →
    preparation.candidates = union
  deduped    : preparation.counts.dedupedSelected =
    min budget.combinedLimit (unionIds lexicalHits semanticHits budget).length
  selected   : preparation.counts.lexicalSelected + preparation.counts.semanticSelected =
    preparation.counts.dedupedSelected + preparation.counts.duplicatesRemoved

end Properties

end Fusion
