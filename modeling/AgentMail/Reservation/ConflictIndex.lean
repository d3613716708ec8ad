import AgentMail.Reservation.Index

open Pattern

namespace Reservation

-- The index that is used in the transaction. Its keys are the texts as they are.
abbrev ReservationConflictIndex := PrefixIndex CompiledPattern

namespace ReservationConflictIndex

def build (gs : Globset) (ci : Bool) (patterns : List Str) : ReservationConflictIndex :=
  PrefixIndex.build id id (patterns.map (.new gs ci))

-- A search that panics is `none`, and one that finds nothing is `some none`.
abbrev Search := Option (Option CompiledPattern)

def Search.orElse (first next : Search) : Search :=
  first.bind fun
    | some p => some (some p)
    | none   => next

section

variable (ci : Bool) (index : ReservationConflictIndex) (request : CompiledPattern)

def firstGlob : Search :=
  (index.globBucket id request).findM? (·.overlaps ci request)

def firstExactRequestConflict : Search :=
  let exact := (index.exactByPath.get request.norm).head?
  let above := (ancestors request.norm).findSome? fun a => (index.exactByPath.get a).head?
  let below := (descendants index.exactByPath request.norm).head?
  .orElse (some (exact.or (above.or below))) (firstGlob ci index request)

def firstGlobRequestConflict : Search :=
  match request.firstLiteralSegment with
  | some pre =>
    let exact := (index.exactByPath.get pre).findM? (matchesOrOverlaps ci request)
    let below := (descendants index.exactByPath pre).findM? (matchesOrOverlaps ci request)
    .orElse exact (.orElse below (firstGlob ci index request))
  | none =>
    let exact := index.exactByPath.values.findM? (matchesOrOverlaps ci request)
    .orElse exact (firstGlob ci index request)

def firstConflict : Search :=
  let found :=
    if request.isGlob then
      firstGlobRequestConflict ci index request
    else
      firstExactRequestConflict ci index request
  .orElse found (index.rootGlobs.findM? (·.overlaps ci request))

end

end ReservationConflictIndex

-- The first conflict is a conflict, there is one if there is any, and the other index agrees.
def Agrees (gs : Globset) (ci : Bool) (reservations : List (Str × ReservationRef))
    (request : Str) : Prop :=
  ∃ first brute found,
    ReservationConflictIndex.firstConflict ci (.build gs ci (reservations.map Prod.fst))
      (.new gs ci request) = some first ∧
    bruteForce gs ci reservations (.new gs ci request) = some brute ∧
    ReservationIndex.findConflicts ci (.build gs ci reservations) (.new gs ci request) =
      some found ∧
    (first.isSome ↔ brute ≠ []) ∧
    (∀ p ∈ first, ∃ r ∈ reservations,
      p = .new gs ci r.1 ∧ p.overlaps ci (.new gs ci request) = some true) ∧
    (first.isSome ↔ found ≠ [])

-- The patterns that are looked at for a request. The texts have to agree in letter case. The root
-- is not looked at if the request is more specific, and only the root is looked at if it is
-- requested.
def Probed (request p : CompiledPattern) : Prop :=
  if p.isGlob then
    p.firstLiteralSegment = none ∨ request.firstLiteralSegment = none ∨
      p.firstLiteralSegment = request.firstLiteralSegment
  else if request.isGlob then
    ∀ pre, request.firstLiteralSegment = some pre → p.norm = pre ∨ pre ++ ['/'] <+: p.norm
  else
    p.norm = request.norm ∨ p.norm ++ ['/'] <+: request.norm ∨
      request.norm ≠ [] ∧ request.norm ++ ['/'] <+: p.norm

instance (request p : CompiledPattern) : Decidable (Probed request p) :=
  have : Decidable (∀ pre, request.firstLiteralSegment = some pre →
      p.norm = pre ∨ pre ++ ['/'] <+: p.norm) :=
    inferInstanceAs (Decidable (∀ pre ∈ request.firstLiteralSegment, _))
  inferInstanceAs (Decidable (ite ..))

end Reservation
