import AgentMail.Lib.Ranking
import AgentMail.Search.Basic
import Mathlib.Algebra.Order.Field.Rat
import Mathlib.Algebra.Order.Group.Abs
import Mathlib.Data.List.Lex
import Mathlib.Order.WithBot

open Pattern (Str)
open Search (i64?)

namespace Fusion

-- Numbers are exact. A score may be the negative infinity, which is the least one.
abbrev Score :=
  WithBot ℚ

inductive CandidateSource
  | lexical
  | semantic
  deriving DecidableEq

structure PreparedCandidate where
  docId         : Int64
  lexicalRank   : Option Nat
  semanticRank  : Option Nat
  lexicalScore  : Option Score
  semanticScore : Option Score
  firstSource   : CandidateSource
  deriving DecidableEq

structure RrfConfig where
  k       : ℚ
  epsilon : ℚ
  deriving DecidableEq

structure SourceContribution where
  source       : String
  contribution : ℚ
  rank         : Option Nat
  deriving DecidableEq

structure FusionExplain where
  lexicalRank         : Option Nat
  lexicalScore        : Option Score
  semanticRank        : Option Nat
  semanticScore       : Option Score
  rrfScore            : ℚ
  sourceContributions : List SourceContribution
  deriving DecidableEq

structure FusedHit where
  docId       : Int64
  rrfScore    : ℚ
  firstSource : CandidateSource
  explain     : FusionExplain
  deriving DecidableEq

structure FusionResult where
  config        : RrfConfig
  inputCount    : Nat
  totalFused    : Nat
  hits          : List FusedHit
  offsetApplied : Nat
  limitApplied  : Nat
  deriving DecidableEq

def rrfContribution (k : ℚ) (rank : Option Nat) : ℚ :=
  rank.elim 0 fun r => 1 / (k + r)

def sourceContributions (k : ℚ) (lexicalRank semanticRank : Option Nat) : List SourceContribution :=
    [
  ⟨"lexical", rrfContribution k lexicalRank, lexicalRank⟩,
  ⟨"semantic", rrfContribution k semanticRank, semanticRank⟩
]

-- The higher score comes first, unless the difference is at most `epsilon`. The difference of two
-- infinities is not a number, so that it is not above `epsilon` either.
def scoreCmp (epsilon : ℚ) : Score → Score → Ordering
  | ⊥, ⊥             => .eq
  | ⊥, (_ : ℚ)       => .gt
  | (_ : ℚ), ⊥       => .lt
  | (a : ℚ), (b : ℚ) =>
    let diff := b - a
    if epsilon < |diff| then
      if 0 < diff then .gt else .lt
    else
      .eq

def fusedHitCmp (a b : FusedHit) (epsilon : ℚ) : Ordering :=
  (scoreCmp epsilon a.rrfScore b.rrfScore).then <|
    (scoreCmp epsilon (a.explain.lexicalScore.getD ⊥) (b.explain.lexicalScore.getD ⊥)).then <|
      compare a.docId b.docId

-- `sort_by`, of which only the order of hits that the comparison orders is specified
def sortHits (epsilon : ℚ) (hits : List FusedHit) : List FusedHit :=
  hits.mergeSort fun a b => (fusedHitCmp a b epsilon).isLE

def paginate (candidates : List PreparedCandidate) (config : RrfConfig) (offset limit : Nat)
    (fused : List FusedHit) : FusionResult :=
  let fused := sortHits config.epsilon fused
  {
    config        := config
    inputCount    := candidates.length
    totalFused    := fused.length
    hits          := (fused.drop offset).take (max limit 1)
    offsetApplied := offset
    limitApplied  := limit
  }

def legacyHit (config : RrfConfig) (c : PreparedCandidate) : FusedHit :=
  let lexicalContrib := rrfContribution config.k c.lexicalRank
  let semanticContrib := rrfContribution config.k c.semanticRank
  let rrfScore := lexicalContrib + semanticContrib
  {
    docId       := c.docId
    rrfScore    := rrfScore
    firstSource := c.firstSource
    explain     := {
      lexicalRank         := c.lexicalRank
      lexicalScore        := c.lexicalScore
      semanticRank        := c.semanticRank
      semanticScore       := c.semanticScore
      rrfScore            := rrfScore
      sourceContributions := sourceContributions config.k c.lexicalRank c.semanticRank
    }
  }

def fuseRrfLegacy (candidates : List PreparedCandidate) (config : RrfConfig) (offset limit : Nat) :
    FusionResult :=
  paginate candidates config offset limit (candidates.map (legacyHit config))

section Frankensearch

structure ScoredResult where
  docId : Str
  score : Score
  deriving DecidableEq

structure VectorHit where
  index : Nat
  score : Score
  docId : Str
  deriving DecidableEq

structure FusedHitScratch where
  docId         : Str
  rrfScore      : ℚ
  lexicalRank   : Option Nat
  semanticRank  : Option Nat
  semanticIndex : Option Nat
  lexicalScore  : Option Score
  semanticScore : Option Score
  inBothSources : Bool
  deriving DecidableEq

def u32Max : Nat :=
  2 ^ 32 - 1

def rankContribution (k : ℚ) (rank : Nat) : ℚ :=
  1 / (k + (min rank u32Max : Nat) + 1)

def sanitizeRrfK (k : ℚ) : ℚ :=
  if 0 ≤ k then k else 60

namespace FusedHitScratch

def cmpForRanking (a b : FusedHitScratch) : Ordering :=
  (compare b.rrfScore a.rrfScore).then <|
    (compare b.inBothSources a.inBothSources).then <|
      (compare (b.lexicalScore.getD ⊥) (a.lexicalScore.getD ⊥)).then <|
        compare a.docId b.docId

def addLexical (contribution : ℚ) (rank : Nat) (result : ScoredResult) (hit : FusedHitScratch) :
    FusedHitScratch :=
  {
    hit with
    rrfScore      := hit.rrfScore + contribution
    lexicalRank   := some rank
    lexicalScore  := some result.score
    inBothSources := hit.inBothSources || hit.semanticRank.isSome
  }

def ofLexical (contribution : ℚ) (rank : Nat) (result : ScoredResult) : FusedHitScratch where
  docId         := result.docId
  rrfScore      := contribution
  lexicalRank   := some rank
  semanticRank  := none
  semanticIndex := none
  lexicalScore  := some result.score
  semanticScore := none
  inBothSources := false

def addSemantic (contribution : ℚ) (rank : Nat) (result : VectorHit) (hit : FusedHitScratch) :
    FusedHitScratch :=
  {
    hit with
    rrfScore      := hit.rrfScore + contribution
    semanticRank  := some rank
    semanticScore := some result.score
    semanticIndex := some result.index
    inBothSources := hit.inBothSources || hit.lexicalRank.isSome
  }

def ofSemantic (contribution : ℚ) (rank : Nat) (result : VectorHit) : FusedHitScratch where
  docId         := result.docId
  rrfScore      := contribution
  lexicalRank   := none
  semanticRank  := some rank
  semanticIndex := some result.index
  lexicalScore  := none
  semanticScore := some result.score
  inBothSources := false

end FusedHitScratch

open FusedHitScratch

-- `entry(doc_id).and_modify(modify).or_insert(new)`, where a document that the source has shown
-- before is skipped
def scoreHit (hits : List FusedHitScratch) (docId : Str) (seen : FusedHitScratch → Bool)
    (modify : FusedHitScratch → FusedHitScratch) (new : FusedHitScratch) : List FusedHitScratch :=
  match hits.find? (·.docId = docId) with
  | none          => hits ++ [new]
  | some existing => if seen existing then hits else hits.map fun hit =>
    if hit.docId = docId then modify hit else hit

def scoreLexical (k : ℚ) (hits : List FusedHitScratch) : ScoredResult × Nat → List FusedHitScratch
  | (result, rank) =>
    let contribution := rankContribution k rank
    scoreHit hits result.docId (·.lexicalRank.isSome) (addLexical contribution rank result)
      (ofLexical contribution rank result)

def scoreSemantic (k : ℚ) (hits : List FusedHitScratch) : VectorHit × Nat → List FusedHitScratch
  | (result, rank) =>
    let contribution := rankContribution k rank
    scoreHit hits result.docId (·.semanticRank.isSome) (addSemantic contribution rank result)
      (ofSemantic contribution rank result)

def scoreAll (k : ℚ) (lexical : List ScoredResult) (semantic : List VectorHit) :
    List FusedHitScratch :=
  semantic.zipIdx.foldl (scoreSemantic k) (lexical.zipIdx.foldl (scoreLexical k) [])

-- The comparison orders all hits, so that those in front of the window are the same whatever part
-- of them is sorted.
def rrfFuse (lexical : List ScoredResult) (semantic : List VectorHit) (limit offset : Nat) (k : ℚ) :
    List FusedHitScratch :=
  let results := scoreAll (sanitizeRrfK k) lexical semantic
  let window := limit + offset
  if window = 0 then []
  else (((results.mergeSort fun a b => (a.cmpForRanking b).isLE).take window).drop offset).take
    limit

end Frankensearch

section Hybrid

def fsDummyLexPrefix : Str :=
  "__am_rrf_dummy_lex_".toList

def fsDummySemPrefix : Str :=
  "__am_rrf_dummy_sem_".toList

def dummyLexical (idx : Nat) : ScoredResult where
  docId := fsDummyLexPrefix ++ (toString idx).toList
  score := ⊥

def dummySemantic (idx : Nat) : VectorHit where
  index := min idx u32Max
  score := ⊥
  docId := fsDummySemPrefix ++ (toString idx).toList

def fillSlot {β : Type} (rank : PreparedCandidate → Option Nat) (hit : PreparedCandidate → Nat → β)
    (hits : List β) (candidate : PreparedCandidate) : List β :=
  match rank candidate with
  | none      => hits
  | some rank => hits.set (rank - 1) (hit candidate (rank - 1))

-- One slot for every rank up to the last one, and a dummy where no candidate has the rank.
def fillSlots {β : Type} (rank : PreparedCandidate → Option Nat) (dummy : Nat → β)
    (hit : PreparedCandidate → Nat → β) (candidates : List PreparedCandidate) : List β :=
  let maxRank := (candidates.filterMap rank).max?.getD 0
  candidates.foldl (fillSlot rank hit) ((List.range maxRank).map dummy)

def lexicalHit (candidate : PreparedCandidate) (_ : Nat) : ScoredResult where
  docId := (toString candidate.docId.toInt).toList
  score := candidate.lexicalScore.getD (0 : ℚ)

def semanticHit (candidate : PreparedCandidate) (slot : Nat) : VectorHit where
  index := min slot u32Max
  score := candidate.semanticScore.getD (0 : ℚ)
  docId := (toString candidate.docId.toInt).toList

def buildFsLexicalHits (candidates : List PreparedCandidate) : List ScoredResult :=
  fillSlots (·.lexicalRank) dummyLexical lexicalHit candidates

def buildFsSemanticHits (candidates : List PreparedCandidate) : List VectorHit :=
  fillSlots (·.semanticRank) dummySemantic semanticHit candidates

def hasDuplicateSourceRanks (candidates : List PreparedCandidate) : Bool :=
  go [] [] candidates
where
  go (lexicalRanks semanticRanks : List Nat) : List PreparedCandidate → Bool
    | []                      => false
    | candidate :: candidates =>
      if candidate.lexicalRank.any (· ∈ lexicalRanks) then true
      else if candidate.semanticRank.any (· ∈ semanticRanks) then true
      else go (candidate.lexicalRank.toList ++ lexicalRanks)
        (candidate.semanticRank.toList ++ semanticRanks) candidates

def hybridHit (candidates : List PreparedCandidate) (config : RrfConfig) (hit : FusedHitScratch) :
    Option FusedHit := do
  let docId := Int64.ofInt (← i64? hit.docId)
  let lexicalRank := hit.lexicalRank.map (· + 1)
  let semanticRank := hit.semanticRank.map (· + 1)
  let firstSource :=
    match candidates.find? (·.docId = docId) with
    | some candidate => candidate.firstSource
    | none           => if lexicalRank.isSome then .lexical else .semantic
  return {
    docId       := docId
    rrfScore    := hit.rrfScore
    firstSource := firstSource
    explain     := {
      lexicalRank         := lexicalRank
      lexicalScore        := hit.lexicalScore
      semanticRank        := semanticRank
      semanticScore       := hit.semanticScore
      rrfScore            := hit.rrfScore
      sourceContributions := sourceContributions config.k lexicalRank semanticRank
    }
  }

def fuseRrf (candidates : List PreparedCandidate) (config : RrfConfig) (offset limit : Nat) :
    FusionResult :=
  if hasDuplicateSourceRanks candidates then
    fuseRrfLegacy candidates config offset limit
  else
    let lexicalHits := buildFsLexicalHits candidates
    let semanticHits := buildFsSemanticHits candidates
    let fsHits := rrfFuse lexicalHits semanticHits candidates.length 0 config.k
    paginate candidates config offset limit (fsHits.filterMap (hybridHit candidates config))

end Hybrid

section Order

variable (epsilon : ℚ)

def Ahead : Score → Score → Prop
  | ⊥, _             => False
  | (_ : ℚ), ⊥       => True
  | (a : ℚ), (b : ℚ) => b + epsilon < a

def Near (a b : Score) : Prop :=
  ¬Ahead epsilon a b ∧ ¬Ahead epsilon b a

def FusedHit.lexical (hit : FusedHit) : Score :=
  hit.explain.lexicalScore.getD ⊥

def NearRrf (a b : FusedHit) : Prop :=
  Near epsilon a.rrfScore b.rrfScore

-- How hits with near scores are ordered.
def TieBefore (a b : FusedHit) : Prop :=
  Ahead epsilon a.lexical b.lexical ∨ Near epsilon a.lexical b.lexical ∧ a.docId < b.docId

-- The last hit has a higher score than the first one, but ties through a third hit put it behind.
def RrfInversion (x y z : FusedHit) : Prop :=
  Ahead epsilon z.rrfScore x.rrfScore ∧ NearRrf epsilon x y ∧ NearRrf epsilon y z ∧
    TieBefore epsilon x y ∧ TieBefore epsilon y z

def LexicalInversion (x y z : FusedHit) : Prop :=
  NearRrf epsilon x y ∧ NearRrf epsilon y z ∧ NearRrf epsilon z x ∧
    Ahead epsilon z.lexical x.lexical ∧
    Near epsilon x.lexical y.lexical ∧ Near epsilon y.lexical z.lexical ∧ x.docId < y.docId ∧
    y.docId < z.docId

def HasInversion (hits : List FusedHit) : Prop :=
  ∃ x ∈ hits, ∃ y ∈ hits, ∃ z ∈ hits, RrfInversion epsilon x y z ∨ LexicalInversion epsilon x y z

def OrderedByCmp (hits : List FusedHit) : Prop :=
  Ranking.Orders (fusedHitCmp · · epsilon) hits

end Order

-- The comparison orders the hits, which come in the same order for any order of the candidates.
def OrderIndependent (config : RrfConfig) (offset limit : Nat)
    (candidates : List PreparedCandidate) : Prop :=
  OrderedByCmp config.epsilon (candidates.map (legacyHit config)) ∧
    ∀ candidates' : List PreparedCandidate, candidates'.Perm candidates →
      (fuseRrfLegacy candidates' config offset limit).hits =
        (fuseRrfLegacy candidates config offset limit).hits

section Candidates

variable (config : RrfConfig) (candidates : List PreparedCandidate)

def FusedHit.place (hit : FusedHit) : Int64 × Option Nat × Option Nat :=
  (hit.docId, hit.explain.lexicalRank, hit.explain.semanticRank)

structure Ranked : Prop where
  nodup        : (candidates.map (·.docId)).Nodup
  ranked       : ∀ c ∈ candidates, c.lexicalRank.isSome ∨ c.semanticRank.isSome
  lexical_pos  : ∀ c ∈ candidates, ∀ r ∈ c.lexicalRank, 1 ≤ r
  semantic_pos : ∀ c ∈ candidates, ∀ r ∈ c.semanticRank, 1 ≤ r

-- The hits are the candidates, with the ranks that they have in the other path.
def LosesNone (limit : Nat) : Prop :=
  let result := fuseRrf candidates config 0 limit
  (result.hits.map (·.docId)).Perm (candidates.map (·.docId)) ∧
    result.totalFused = candidates.length ∧
    (result.hits.map FusedHit.place).Perm
      ((fuseRrfLegacy candidates config 0 limit).hits.map FusedHit.place)

-- A rank that no candidate has, in front of one that has a later rank.
def Gap (rank : PreparedCandidate → Option Nat) (gap : Nat) : Prop :=
  1 ≤ gap ∧ (∃ c ∈ candidates, ∃ r, rank c = some r ∧ gap < r) ∧ ∀ c ∈ candidates, rank c ≠ some gap

def PreparedCandidate.score (k : ℚ) (c : PreparedCandidate) : ℚ :=
  (c.lexicalRank.elim 0 fun r => rankContribution k (r - 1)) +
    c.semanticRank.elim 0 fun r => rankContribution k (r - 1)

-- No rank that is left out counts more than a candidate does.
def GapsBelow : Prop :=
  ∀ gap, Gap candidates (·.lexicalRank) gap ∨ Gap candidates (·.semanticRank) gap →
    ∀ c ∈ candidates, rankContribution config.k (gap - 1) ≤ c.score config.k

end Candidates

end Fusion
