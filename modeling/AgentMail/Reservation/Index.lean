import AgentMail.Lib.MultiMap
import AgentMail.Pattern.Theorems.Compiled
import Mathlib.Data.Char
import Mathlib.Data.List.Lex

open Pattern

namespace Reservation

-- The order of `String`s, which is the one of their UTF-8 encodings, is the order of code points.

-- Literals by their path, globs by their first literal segment, and globs without one. The two
-- indices of the source have this shape. A `HashMap` iterates over its entries in any order, the
-- order of the keys is one of them.
structure PrefixIndex (α : Type) where
  exactByPath   : MultiMap Str α
  globsByPrefix : MultiMap Str α
  rootGlobs     : List α

namespace PrefixIndex

variable {α : Type} (pattern : α → CompiledPattern) (key : Str → Str)

def insert (index : PrefixIndex α) (a : α) : PrefixIndex α :=
  if !(pattern a).isGlob then
    { index with exactByPath := index.exactByPath.push (key (pattern a).norm) a }
  else
    match (pattern a).firstLiteralSegment with
    | some pre => { index with globsByPrefix := index.globsByPrefix.push (key pre) a }
    | none     => { index with rootGlobs := index.rootGlobs ++ [a] }

def build (as : List α) : PrefixIndex α :=
  as.foldl (insert pattern key) { exactByPath := .empty, globsByPrefix := .empty, rootGlobs := [] }

-- The globs that may start with the same literal segment as the request.
def globBucket (index : PrefixIndex α) (request : CompiledPattern) : List α :=
  match request.firstLiteralSegment with
  | some pre => index.globsByPrefix.get (key pre)
  | none     => index.globsByPrefix.values

end PrefixIndex

-- The texts in front of the separators of a path, i.e. its proper ancestors.
def ancestors : Str → List Str
  | []     => []
  | c :: s => (if c = '/' then [[]] else []) ++ (ancestors s).map (c :: ·)

def descendantPrefix (norm : Str) : Option Str :=
  if norm.isEmpty then none else some (norm ++ ['/'])

def descendants {α : Type} (m : MultiMap Str α) (norm : Str) : List α :=
  match descendantPrefix norm with
  | some pre => m.scan pre pre.isPrefixOf
  | none     => []

-- `request_pat.matches(exact_pat.normalized()) || exact_pat.overlaps(request_pat)`
def matchesOrOverlaps (ci : Bool) (request p : CompiledPattern) : Option Bool :=
  if request.matchesPath p.norm then some true else p.overlaps ci request

-- The keys under which patterns are stored ignore letter case on the targets that do so.
def routingKey (ci : Bool) (s : Str) : Str :=
  fold ci s

structure ReservationRef where
  agentId     : Int
  pathPattern : Str
  exclusive   : Bool
  expiresTs   : Int
  deriving DecidableEq

abbrev Entry := CompiledPattern × ReservationRef

def compile (gs : Globset) (ci : Bool) (reservation : Str × ReservationRef) : Entry :=
  (.new gs ci reservation.1, reservation.2)

abbrev ReservationIndex := PrefixIndex Entry

namespace ReservationIndex

def build (gs : Globset) (ci : Bool) (reservations : List (Str × ReservationRef)) :
    ReservationIndex :=
  PrefixIndex.build Prod.fst (routingKey ci) (reservations.map (compile gs ci))

-- The references of the entries that pass the test. A test may panic.
def collect (test : CompiledPattern → Option Bool) : List Entry → Option (List ReservationRef)
  | []             => some []
  | (p, r) :: rest => do
    let conflict ← test p
    let rest ← collect test rest
    return if conflict then r :: rest else rest

section

variable (ci : Bool) (index : ReservationIndex) (request : CompiledPattern)

def scanExactRequest : Option (List ReservationRef) := do
  let routeNorm := routingKey ci request.norm
  let exact  := index.exactByPath.get routeNorm
  let root   := if request.norm.isEmpty then [] else index.exactByPath.get (routingKey ci [])
  let above  := (ancestors request.norm).flatMap fun a => index.exactByPath.get (routingKey ci a)
  let below  := descendants index.exactByPath routeNorm
  let globs  ← collect (·.overlaps ci request) (index.globBucket (routingKey ci) request)
  return (exact ++ root ++ above ++ below).map Prod.snd ++ globs

def scanGlobRequest : Option (List ReservationRef) :=
  match request.firstLiteralSegment with
  | some pre => do
    let routePrefix := routingKey ci pre
    let exact ← collect (matchesOrOverlaps ci request) (index.exactByPath.get routePrefix)
    let root  ← collect (matchesOrOverlaps ci request) (index.exactByPath.get (routingKey ci []))
    let above ← collect (matchesOrOverlaps ci request) <|
      (ancestors pre).flatMap fun a => index.exactByPath.get (routingKey ci a)
    let below ← collect (matchesOrOverlaps ci request) (descendants index.exactByPath routePrefix)
    let globs ← collect (·.overlaps ci request) (index.globBucket (routingKey ci) request)
    return exact ++ root ++ above ++ below ++ globs
  | none => do
    let exact ← collect (matchesOrOverlaps ci request) index.exactByPath.values
    let globs ← collect (·.overlaps ci request) (index.globBucket (routingKey ci) request)
    return exact ++ globs

def scanRequest : Option (List ReservationRef) :=
  if request.isGlob then scanGlobRequest ci index request else scanExactRequest ci index request

def findConflicts : Option (List ReservationRef) := do
  let scanned ← scanRequest ci index request
  let roots   ← collect (·.overlaps ci request) index.rootGlobs
  return scanned ++ roots

end

end ReservationIndex

-- The same by comparing the request with every reservation.
def bruteForce (gs : Globset) (ci : Bool) (reservations : List (Str × ReservationRef))
    (request : CompiledPattern) : Option (List ReservationRef) :=
  ReservationIndex.collect (·.overlaps ci request) (reservations.map (compile gs ci))

-- What the index finds is what the brute force finds, with the same multiplicities.
def Exact (gs : Globset) (ci : Bool) (reservations : List (Str × ReservationRef))
    (request : Str) : Prop :=
  ∃ found brute, ReservationIndex.findConflicts ci (.build gs ci reservations)
    (.new gs ci request) = some found ∧
    bruteForce gs ci reservations (.new gs ci request) = some brute ∧ found.Perm brute

end Reservation
