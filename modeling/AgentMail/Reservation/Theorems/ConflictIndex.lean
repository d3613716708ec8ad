import AgentMail.Reservation.ConflictIndex
import AgentMail.Reservation.Theorems.Index

open Pattern

namespace Reservation

variable {gs : Globset} {ci : Bool}

namespace ReservationConflictIndex

-- The search finds one of the patterns in question, if there are any.
def Finds (candidate : CompiledPattern → Prop) (search : Search) : Prop :=
  ∃ found, search = some found ∧ (∀ p ∈ found, candidate p) ∧ (found = none → ∀ p, ¬candidate p)

namespace Finds

variable {c d : CompiledPattern → Prop} {first next : Search} {l : List CompiledPattern}

theorem congr (h : Finds c first) (hc : ∀ p, c p ↔ d p) : Finds d first := by
  have ⟨found, hf, hp, hn⟩ := h
  exact ⟨found, hf, fun p h => (hc p).mp (hp p h), fun h p => (hc p).not.mp (hn h p)⟩

theorem orElse (h : Finds c first) (h' : Finds d next) :
    Finds (fun p => c p ∨ d p) (.orElse first next) := by
  have ⟨found, hf, hp, hn⟩ := h
  have ⟨found', hf', hp', hn'⟩ := h'
  cases found
  case some p => exact ⟨some p, by simp [Search.orElse, hf], fun q hq => .inl (hp q hq), nofun⟩
  case none =>
    refine ⟨found', by simp [Search.orElse, hf, hf'], fun p h => .inr (hp' p h), fun h p => ?_⟩
    exact not_or.mpr ⟨hn rfl p, hn' h p⟩

theorem head (l : List CompiledPattern) : Finds (· ∈ l) (some l.head?) := by
  refine ⟨l.head?, rfl, fun p hp => List.mem_of_mem_head? hp, fun h p => ?_⟩
  simp [List.head?_eq_none_iff.mp h]

theorem findM {test : CompiledPattern → Option Bool} (h : ∀ p ∈ l, test p ≠ none) :
    Finds (fun p => p ∈ l ∧ test p = some true) (l.findM? test) := by
  induction l
  case nil => exact ⟨none, rfl, nofun, by simp⟩
  case cons p l hi =>
    have ⟨b, hb⟩ := Option.ne_none_iff_exists'.mp (h p List.mem_cons_self)
    cases b
    case true => exact ⟨some p, by simp [List.findM?, hb], by simp [hb], nofun⟩
    case false =>
      have ⟨found, hf, hp, hn⟩ := hi fun q hq => h q (List.mem_cons_of_mem _ hq)
      refine ⟨found, by simp [List.findM?, hb, hf], fun q hq => ?_, fun hfn q hq => ?_⟩
      · exact ⟨List.mem_cons_of_mem _ (hp q hq).left, (hp q hq).right⟩
      · refine hn hfn q ⟨List.mem_of_ne_of_mem ?_ hq.left, hq.right⟩
        rintro rfl
        simp [hb] at hq

end Finds

variable {index : ReservationConflictIndex} {patterns : List CompiledPattern}
variable {request : CompiledPattern}

section

variable (h : index.Holds id id patterns)

include h

theorem mem_get {path : Str} {p : CompiledPattern} :
    p ∈ index.exactByPath.get path ↔ p ∈ patterns ∧ p.isGlob = false ∧ p.norm = path := by
  have := (h.exact.get path).mem_iff (a := p)
  rw [List.mem_filter, List.mem_filter] at this
  simpa [isLiteral, and_assoc] using this

theorem mem_above {path : Str} {p : CompiledPattern} :
    p ∈ (ancestors path).flatMap index.exactByPath.get ↔
      p ∈ patterns ∧ p.isGlob = false ∧ p.norm ++ ['/'] <+: path := by
  rw [List.mem_flatMap]
  constructor
  case mp =>
    intro ⟨a, ha, hp⟩
    have ⟨hp, hl, hn⟩ := (mem_get h).mp hp
    exact ⟨hp, hl, hn ▸ mem_ancestors.mp ha⟩
  case mpr =>
    intro ⟨hp, hl, ha⟩
    exact ⟨_, mem_ancestors.mpr ha, (mem_get h).mpr ⟨hp, hl, rfl⟩⟩

theorem mem_descendants {path : Str} {p : CompiledPattern} :
    p ∈ descendants index.exactByPath path ↔
      p ∈ patterns ∧ p.isGlob = false ∧ path ≠ [] ∧ path ++ ['/'] <+: p.norm := by
  have := (descendants_perm h.exact path).mem_iff (a := p)
  rw [List.mem_filter, List.mem_filter] at this
  simpa [isLiteral, and_assoc] using this

theorem mem_values {p : CompiledPattern} :
    p ∈ index.exactByPath.values ↔ p ∈ patterns ∧ p.isGlob = false := by
  have := h.exact.values.mem_iff (a := p)
  simpa [isLiteral] using this

theorem mem_globBucket {p : CompiledPattern} : p ∈ index.globBucket id request ↔
    p ∈ patterns ∧ p.isGlob ∧ p.firstLiteralSegment.isSome ∧
      (request.firstLiteralSegment = none ∨
        p.firstLiteralSegment = request.firstLiteralSegment) := by
  unfold PrefixIndex.globBucket
  cases hf : request.firstLiteralSegment
  case none =>
    have := h.globs.values.mem_iff (a := p)
    simpa [isPrefixedGlob] using this
  case some pre =>
    have := (h.globs.get pre).mem_iff (a := p)
    rw [List.mem_filter, List.mem_filter] at this
    cases hp : p.firstLiteralSegment
    case none   => simpa [isPrefixedGlob, hp] using this
    case some s => simpa [isPrefixedGlob, hp, and_assoc] using this

theorem mem_rootGlobs {p : CompiledPattern} : p ∈ index.rootGlobs ↔
    p ∈ patterns ∧ p.isGlob ∧ p.firstLiteralSegment = none := by
  rw [h.roots]
  simp [isRootGlob]

end

-- The conflicts that are looked at.
def IsProbed (ci : Bool) (request : CompiledPattern) (patterns : List CompiledPattern)
    (p : CompiledPattern) : Prop :=
  p ∈ patterns ∧ Probed request p ∧ p.overlaps ci request = some true

-- The literals that are looked at for a literal are not compared any more, but they all overlap it.
theorem overlaps_of_probed {p : CompiledPattern} (hn : p.overlaps ci request ≠ none)
    (hl : p.isGlob = false) (hr : request.isGlob = false) (h : Probed request p) :
    p.overlaps ci request = some true := by
  have hb {s t : Str} (h : s ++ ['/'] <+: t) : Below ci s t := by
    have ⟨r, hr⟩ := h
    exact ⟨s, r, by simp [← hr], rfl⟩
  simp only [Probed, hl, hr, Bool.false_eq_true, if_false] at h
  rw [CompiledPattern.overlaps_iff hn]
  rcases h with h | h | ⟨_, h⟩
  · exact .inl (congrArg _ h)
  · exact .inr (.inl ⟨hl, .inr (hb h)⟩)
  · exact .inr (.inr (.inl ⟨hr, .inr (hb h)⟩))

section

variable (h : index.Holds id id patterns)
variable (hp : ∀ p ∈ patterns, Probed request p → p.overlaps ci request ≠ none)

include hp in
theorem findM_literals_finds (hr : request.isGlob) {literals : List CompiledPattern}
    {q : CompiledPattern → Prop} (hq : ∀ {p}, p.isGlob = false → q p → Probed request p)
    (hl : ∀ {p}, p ∈ literals ↔ p ∈ patterns ∧ p.isGlob = false ∧ q p) :
    Finds (fun p => q p ∧ isLiteral p ∧ p ∈ patterns ∧ p.overlaps ci request = some true)
      (literals.findM? (matchesOrOverlaps ci request)) := by
  have hn : ∀ p ∈ literals, p.overlaps ci request ≠ none := by
    intro p hm
    have ⟨hm, hl, hk⟩ := hl.mp hm
    exact hp p hm (hq hl hk)
  have he : ∀ p ∈ literals, matchesOrOverlaps ci request p = p.overlaps ci request :=
    fun p hm => matchesOrOverlaps_eq (hn p hm) (by simp [isLiteral, (hl.mp hm).right.left]) hr
  refine (Finds.findM fun p hm => he p hm ▸ hn p hm).congr fun p => ?_
  rw [and_congr_right fun hm => by rw [he p hm], hl]
  simp only [isLiteral, Bool.not_eq_true']
  tauto

include h hp

theorem firstGlob_finds : Finds (fun p => isPrefixedGlob p ∧ IsProbed ci request patterns p)
    (firstGlob ci index request) := by
  have hn : ∀ p ∈ index.globBucket id request, p.overlaps ci request ≠ none := by
    intro p hm
    obtain ⟨hm, hg, _, hk⟩ := (mem_globBucket h).mp hm
    exact hp p hm (by simp [Probed, hg, hk])
  refine (Finds.findM hn).congr fun p => ?_
  rw [mem_globBucket h, isPrefixedGlob, Bool.and_eq_true]
  constructor
  case mp =>
    rintro ⟨⟨hm, hg, hs, hk⟩, ho⟩
    exact ⟨⟨hg, hs⟩, hm, by simp [Probed, hg, hk], ho⟩
  case mpr =>
    rintro ⟨⟨hg, hs⟩, hm, hk, ho⟩
    refine ⟨⟨hm, hg, hs, ?_⟩, ho⟩
    simp only [Probed, hg, if_true] at hk
    exact hk.resolve_left fun hn => by simp [hn] at hs

theorem firstExactRequestConflict_finds (hr : request.isGlob = false) :
    Finds (fun p => (isLiteral p ∨ isPrefixedGlob p) ∧ IsProbed ci request patterns p)
      (firstExactRequestConflict ci index request) := by
  let literals := index.exactByPath.get request.norm ++
    (ancestors request.norm).flatMap index.exactByPath.get ++
    descendants index.exactByPath request.norm
  have hl : (index.exactByPath.get request.norm).head?.or
      (((ancestors request.norm).findSome? fun a => (index.exactByPath.get a).head?).or
        (descendants index.exactByPath request.norm).head?) = literals.head? := by
    simp [literals, List.head?_append, List.head?_flatMap]
  have hm :
      Finds (fun p => isLiteral p ∧ IsProbed ci request patterns p) (some literals.head?) := by
    refine (Finds.head literals).congr fun p => ?_
    simp only [literals, List.mem_append, mem_get h, mem_above h, mem_descendants h]
    constructor
    case mp =>
      intro hm
      obtain ⟨hm, hl, hk⟩ : p ∈ patterns ∧ p.isGlob = false ∧ Probed request p := by
        rcases hm with (⟨hm, hl, hk⟩ | ⟨hm, hl, hk⟩) | ⟨hm, hl, hk⟩ <;>
          exact ⟨hm, hl, by simp [Probed, hl, hr, hk]⟩
      exact ⟨by simp [isLiteral, hl], hm, hk, overlaps_of_probed (hp p hm hk) hl hr hk⟩
    case mpr =>
      rintro ⟨hl, hm, hk, _⟩
      have hl : p.isGlob = false := by simpa [isLiteral] using hl
      simp only [Probed, hl, hr, Bool.false_eq_true, if_false] at hk
      rcases hk with hk | hk | hk
      · exact .inl (.inl ⟨hm, hl, hk⟩)
      · exact .inl (.inr ⟨hm, hl, hk⟩)
      · exact .inr ⟨hm, hl, hk⟩
  simp only [firstExactRequestConflict, hl]
  exact (hm.orElse (firstGlob_finds h hp)).congr fun p => or_and_right.symm

theorem firstGlobRequestConflict_finds (hr : request.isGlob)
    (hf : ∀ pre, request.firstLiteralSegment = some pre → pre ≠ []) :
    Finds (fun p => (isLiteral p ∨ isPrefixedGlob p) ∧ IsProbed ci request patterns p)
      (firstGlobRequestConflict ci index request) := by
  have hg := firstGlob_finds h hp
  have hk {p : CompiledPattern} (hl : isLiteral p) : Probed request p ↔
      ∀ pre, request.firstLiteralSegment = some pre → p.norm = pre ∨ pre ++ ['/'] <+: p.norm := by
    have hl : p.isGlob = false := by simpa [isLiteral] using hl
    simp [Probed, hl, hr]
  unfold firstGlobRequestConflict
  cases hs : request.firstLiteralSegment
  case none =>
    have hv {p : CompiledPattern} : p ∈ index.exactByPath.values ↔
        p ∈ patterns ∧ p.isGlob = false ∧ True := by
      rw [and_true, mem_values h]
    have hq {p : CompiledPattern} (hl : p.isGlob = false) (_ : True) : Probed request p :=
      (hk (by simp [isLiteral, hl])).mpr (by simp [hs])
    refine ((findM_literals_finds hp hr hq hv).orElse hg).congr fun p => ?_
    cases hl : isLiteral p
    case false => simp
    case true =>
      simp only [IsProbed, hk hl, hs, reduceCtorEq]
      tauto
  case some pre =>
    have hget {p : CompiledPattern} : p ∈ index.exactByPath.get pre ↔
        p ∈ patterns ∧ p.isGlob = false ∧ p.norm = pre := mem_get h
    have hbelow {p : CompiledPattern} : p ∈ descendants index.exactByPath pre ↔
        p ∈ patterns ∧ p.isGlob = false ∧ pre ≠ [] ∧ pre ++ ['/'] <+: p.norm := mem_descendants h
    have hq {p : CompiledPattern} (hl : p.isGlob = false) (hm : p.norm = pre ∨
        pre ++ ['/'] <+: p.norm) : Probed request p :=
      (hk (by simp [isLiteral, hl])).mpr fun pre' he => Option.some.inj (hs.symm.trans he) ▸ hm
    refine ((findM_literals_finds hp hr (fun hl hm => hq hl (.inl hm)) hget).orElse
      ((findM_literals_finds hp hr (fun hl hm => hq hl (.inr hm.right)) hbelow).orElse hg)).congr
        fun p => ?_
    cases hl : isLiteral p
    case false => simp
    case true =>
      have hn := hf pre hs
      simp only [IsProbed, hk hl, hs, Option.some.injEq, forall_eq']
      tauto

theorem firstConflict_finds (hf : ∀ pre, request.firstLiteralSegment = some pre → pre ≠ []) :
    Finds (IsProbed ci request patterns) (firstConflict ci index request) := by
  have hr : Finds (fun p => isRootGlob p ∧ IsProbed ci request patterns p)
      (index.rootGlobs.findM? (·.overlaps ci request)) := by
    have hn : ∀ p ∈ index.rootGlobs, p.overlaps ci request ≠ none := by
      intro p hm
      obtain ⟨hm, hg, hs⟩ := (mem_rootGlobs h).mp hm
      exact hp p hm (by simp [Probed, hg, hs])
    refine (Finds.findM hn).congr fun p => ?_
    rw [mem_rootGlobs h, isRootGlob, Bool.and_eq_true, Option.isNone_iff_eq_none]
    constructor
    case mp  =>
      rintro ⟨⟨hm, hg, hs⟩, ho⟩
      exact ⟨⟨hg, hs⟩, hm, by simp [Probed, hg, hs], ho⟩
    case mpr =>
      rintro ⟨⟨hg, hs⟩, hm, _, ho⟩
      exact ⟨⟨hm, hg, hs⟩, ho⟩
  have hs : Finds (fun p => (isLiteral p ∨ isPrefixedGlob p) ∧ IsProbed ci request patterns p)
      (if request.isGlob then firstGlobRequestConflict ci index request
        else firstExactRequestConflict ci index request) := by
    cases hg : request.isGlob
    case false => exact firstExactRequestConflict_finds h hp hg
    case true  => exact firstGlobRequestConflict_finds h hp hg hf
  refine (hs.orElse hr).congr fun p => ?_
  cases hi : p.isGlob <;> cases hl : p.firstLiteralSegment <;>
    simp [isLiteral, isPrefixedGlob, isRootGlob, hi, hl]

end

-- Even if other comparisons would panic, a search that finds nothing has looked at all of these.

theorem orElse_eq_none {first next : Search} :
    Search.orElse first next = some none ↔ first = some none ∧ next = some none := by
  match first with
  | none          => simp [Search.orElse]
  | some none     => simp [Search.orElse]
  | some (some p) => simp [Search.orElse]

theorem of_findM_eq_none {test : CompiledPattern → Option Bool} {l : List CompiledPattern}
    (h : l.findM? test = some none) : ∀ p ∈ l, test p = some false := by
  induction l
  case nil => nofun
  case cons p l hi =>
    match ht : test p with
    | none       => simp [List.findM?, ht] at h
    | some true  => simp [List.findM?, ht] at h
    | some false =>
      have h : l.findM? test = some none := by simpa [List.findM?, ht] using h
      exact List.forall_mem_cons.mpr ⟨ht, hi h⟩

theorem overlaps_of_matchesOrOverlaps {p : CompiledPattern}
    (h : matchesOrOverlaps ci request p = some false) : p.overlaps ci request = some false := by
  unfold matchesOrOverlaps at h
  split at h
  case isTrue  => cases h
  case isFalse => exact h

section

variable (h : index.Holds id id patterns)

include h

theorem not_literal_of_firstExactRequestConflict (hr : request.isGlob = false)
    (hn : firstExactRequestConflict ci index request = some none) {p : CompiledPattern}
    (hm : p ∈ patterns) (hl : p.isGlob = false) : ¬Probed request p := by
  have ⟨hn, _⟩ := orElse_eq_none.mp hn
  simp only [Option.some.injEq, Option.or_eq_none_iff, List.head?_eq_none_iff] at hn
  have ⟨hexact, habove, hbelow⟩ := hn
  simp only [Probed, hl, hr, Bool.false_eq_true, if_false, not_or]
  refine ⟨fun hk => ?_, fun hk => ?_, fun hk => ?_⟩
  · have hm := (mem_get h).mpr ⟨hm, hl, hk⟩
    simp [hexact] at hm
  · have hm := (mem_get h).mpr ⟨hm, hl, rfl⟩
    have ha := List.findSome?_eq_none_iff.mp habove p.norm (mem_ancestors.mpr hk)
    simp [List.head?_eq_none_iff.mp ha] at hm
  · have hm := (mem_descendants h).mpr ⟨hm, hl, hk⟩
    simp [hbelow] at hm

theorem not_literal_of_firstGlobRequestConflict (hr : request.isGlob)
    (hf : ∀ pre, request.firstLiteralSegment = some pre → pre ≠ [])
    (hn : firstGlobRequestConflict ci index request = some none) {p : CompiledPattern}
    (hm : p ∈ patterns) (hl : p.isGlob = false) (hk : Probed request p) :
    p.overlaps ci request = some false := by
  simp only [Probed, hl, hr, Bool.false_eq_true, if_false, if_true] at hk
  simp only [firstGlobRequestConflict] at hn
  apply overlaps_of_matchesOrOverlaps
  split at hn
  case h_1 pre hs =>
    have ⟨hexact, hn⟩ := orElse_eq_none.mp hn
    have ⟨hbelow, _⟩ := orElse_eq_none.mp hn
    cases hk pre hs
    case inl hk => exact of_findM_eq_none hexact p ((mem_get h).mpr ⟨hm, hl, hk⟩)
    case inr hk => exact of_findM_eq_none hbelow p ((mem_descendants h).mpr ⟨hm, hl, hf pre hs, hk⟩)
  case h_2 =>
    have ⟨hexact, _⟩ := orElse_eq_none.mp hn
    exact of_findM_eq_none hexact p ((mem_values h).mpr ⟨hm, hl⟩)

omit h in
theorem firstGlob_of_firstConflict (hn : firstConflict ci index request = some none) :
    firstGlob ci index request = some none := by
  have ⟨hn, _⟩ := orElse_eq_none.mp hn
  split at hn
  case isFalse => exact (orElse_eq_none.mp hn).right
  case isTrue =>
    simp only [firstGlobRequestConflict] at hn
    split at hn
    case h_1 => exact (orElse_eq_none.mp (orElse_eq_none.mp hn).right).right
    case h_2 => exact (orElse_eq_none.mp hn).right

theorem overlaps_of_firstConflict
    (hf : ∀ pre, request.firstLiteralSegment = some pre → pre ≠ [])
    (hn : firstConflict ci index request = some none) {p : CompiledPattern} (hm : p ∈ patterns)
    (hk : Probed request p) : p.overlaps ci request = some false := by
  have ⟨hreq, hroot⟩ := orElse_eq_none.mp hn
  cases hl : p.isGlob
  case false =>
    cases hr : request.isGlob <;> rw [hr] at hreq
    case false => exact absurd hk (not_literal_of_firstExactRequestConflict h hr hreq hm hl)
    case true  => exact not_literal_of_firstGlobRequestConflict h hr hf hreq hm hl hk
  case true =>
    cases hs : p.firstLiteralSegment
    case none => exact of_findM_eq_none hroot p ((mem_rootGlobs h).mpr ⟨hm, hl, hs⟩)
    case some pre =>
      simp only [Probed, hl, if_true, hs, reduceCtorEq, false_or] at hk
      have hb := (mem_globBucket h).mpr ⟨hm, hl, by simp [hs], hs ▸ hk⟩
      exact of_findM_eq_none (firstGlob_of_firstConflict hn) p hb

theorem firstConflict_eq_none_iff (hf : ∀ pre, request.firstLiteralSegment = some pre → pre ≠ []) :
    firstConflict ci index request = some none ↔
      ∀ p ∈ patterns, Probed request p → p.overlaps ci request = some false := by
  constructor
  case mp => exact fun hn p hm hk => overlaps_of_firstConflict h hf hn hm hk
  case mpr =>
    intro ho
    have hp : ∀ p ∈ patterns, Probed request p → p.overlaps ci request ≠ none :=
      fun p hm hk he => nomatch he.symm.trans (ho p hm hk)
    have ⟨found, hc, hs, _⟩ := firstConflict_finds h hp hf
    match found with
    | none   => exact hc
    | some p =>
      have ⟨hm, hk, ht⟩ := hs p rfl
      simp [ho p hm hk] at ht

end

end ReservationConflictIndex

open ReservationIndex ReservationConflictIndex

variable {reservations : List (Str × ReservationRef)} {request : Str}

theorem references_ne_nil_iff {q : Entry → Bool} :
    ((reservations.map (compile gs ci)).filter q).map Prod.snd ≠ [] ↔
      ∃ r ∈ reservations, q (compile gs ci r) := by
  rw [Ne, List.map_eq_nil_iff, List.filter_eq_nil_iff, List.forall_mem_map]
  simp only [not_forall, not_not, exists_prop]

theorem bruteForce_ne_nil_iff {brute : List ReservationRef}
    (h : bruteForce gs ci reservations (.new gs ci request) = some brute) : brute ≠ [] ↔
      ∃ r ∈ reservations, (CompiledPattern.new gs ci r.1).overlaps ci (.new gs ci request) =
        some true := by
  rw [(bruteForce_eq_some_iff.mp h).right, references_ne_nil_iff]
  exact exists_congr fun r => and_congr_right fun _ => decide_eq_true_iff

-- What is looked at in the transaction is not missed by the other index.
theorem not_missed_of_probed {r : Str × ReservationRef}
    (h : Probed (.new gs ci request) (.new gs ci r.1)) :
    missed (.new gs ci request) (compile gs ci r) = false := by
  cases hm : missed (.new gs ci request) (compile gs ci r)
  case false => rfl
  case true =>
    simp only [missed, isLiteral, Bool.and_eq_true, decide_eq_true_eq, Bool.not_eq_true'] at hm
    obtain ⟨⟨hr, hl⟩, hn⟩ := hm
    have hg : (CompiledPattern.new gs ci request).isGlob = false := by
      rw [CompiledPattern.new_isGlob, hr]
      rfl
    simp only [compile] at hl hn
    simp [Probed, hl, hg, hr, hn] at h

theorem agrees_iff_probed (hgs : gs.Lawful) (reservations : List (Str × ReservationRef))
    (request : Str) : Agrees gs ci reservations request ↔
      (∀ r ∈ reservations,
        (CompiledPattern.new gs ci r.1).overlaps ci (.new gs ci request) ≠ none) ∧
      ((∃ r ∈ reservations,
          (CompiledPattern.new gs ci r.1).overlaps ci (.new gs ci request) = some true) →
        ∃ r ∈ reservations,
          (CompiledPattern.new gs ci r.1).overlaps ci (.new gs ci request) = some true ∧
          Probed (.new gs ci request) (.new gs ci r.1)) := by
  have hfinds (hp : ∀ r ∈ reservations,
      (CompiledPattern.new gs ci r.1).overlaps ci (.new gs ci request) ≠ none) :
      Finds (fun p => ∃ r ∈ reservations, p = .new gs ci r.1 ∧ Probed (.new gs ci request) p ∧
          p.overlaps ci (.new gs ci request) = some true)
        (firstConflict ci (.build gs ci (reservations.map Prod.fst)) (.new gs ci request)) := by
    have hf : ∀ pre, (CompiledPattern.new gs ci request).firstLiteralSegment = some pre →
        pre ≠ [] := fun pre h => (CompiledPattern.firstLiteralSegment_iff.mp h).right.left
    refine (firstConflict_finds (PrefixIndex.holds_build _) ?_ hf).congr fun p => ?_
    · rw [List.map_map]
      exact List.forall_mem_map.mpr fun r hr _ => hp r hr
    · simp only [IsProbed, List.map_map, List.mem_map, Function.comp_apply]
      constructor
      case mp  => exact fun ⟨⟨r, hr, he⟩, hk, ho⟩ => ⟨r, hr, he.symm, hk, ho⟩
      case mpr => exact fun ⟨r, hr, he, hk, ho⟩ => ⟨⟨r, hr, he.symm⟩, hk, ho⟩
  constructor
  case mp =>
    intro ⟨first, brute, found, hfirst, hbrute, _, hsome, _, _⟩
    have hp := (bruteForce_eq_some_iff.mp hbrute).left
    have ⟨first', hfirst', hprobed, _⟩ := hfinds hp
    cases hfirst.symm.trans hfirst'
    refine ⟨hp, fun h => ?_⟩
    have ⟨p, hfp⟩ := Option.isSome_iff_exists.mp (hsome.mpr ((bruteForce_ne_nil_iff hbrute).mpr h))
    have ⟨r, hr, he, hk, ho⟩ := hprobed p hfp
    exact ⟨r, hr, he ▸ ho, he ▸ hk⟩
  case mpr =>
    intro ⟨hp, hk⟩
    have hp' : ∀ e ∈ reservations.map (compile gs ci),
        e.1.overlaps ci (.new gs ci request) ≠ none := List.forall_mem_map.mpr hp
    have hc : ∀ e ∈ reservations.map (compile gs ci), ∃ raw, e.1 = .new gs ci raw :=
      List.forall_mem_map.mpr fun r _ => ⟨r.1, rfl⟩
    have ⟨first, hfirst, hprobed, hnone⟩ := hfinds hp
    have ⟨found, hfound, hperm⟩ := findConflicts_perm rfl hc hp' (PrefixIndex.holds_build _) hgs
    have hbrute := bruteForce_eq_some_iff.mpr ⟨hp, rfl⟩
    refine ⟨first, _, found, hfirst, hbrute, hfound, ?_, ?_, ?_⟩
    · rw [bruteForce_ne_nil_iff hbrute]
      constructor
      case mp =>
        intro hs
        have ⟨p, hfp⟩ := Option.isSome_iff_exists.mp hs
        have ⟨r, hr, he, _, ho⟩ := hprobed p hfp
        exact ⟨r, hr, he ▸ ho⟩
      case mpr =>
        intro h
        have ⟨r, hr, ho, hk⟩ := hk h
        exact Option.isSome_iff_ne_none.mpr fun hn => hnone hn _ ⟨r, hr, rfl, hk, ho⟩
    · intro p hfp
      have ⟨r, hr, he, _, ho⟩ := hprobed p hfp
      exact ⟨r, hr, he, ho⟩
    · rw [← List.length_pos_iff, hperm.length_eq, List.length_pos_iff, references_ne_nil_iff]
      simp only [Bool.and_eq_true, Bool.not_eq_true']
      constructor
      case mp =>
        intro hs
        have ⟨p, hfp⟩ := Option.isSome_iff_exists.mp hs
        have ⟨r, hr, he, hk, ho⟩ := hprobed p hfp
        subst he
        exact ⟨r, hr, decide_eq_true_iff.mpr ho, not_missed_of_probed hk⟩
      case mpr =>
        intro ⟨r, hr, hh, _⟩
        have ⟨r, hr, ho, hk⟩ := hk ⟨r, hr, decide_eq_true_iff.mp hh⟩
        exact Option.isSome_iff_ne_none.mpr fun hn => hnone hn _ ⟨r, hr, rfl, hk, ho⟩

theorem agrees_iff_probed_sources :
    Agrees .wildcard false
      [("".toList, ⟨1, [], true, 9⟩), ("src/**".toList, ⟨2, "src/**".toList, true, 9⟩)]
      "src/main.rs".toList := by
  refine (agrees_iff_probed Globset.wildcard_lawful _ _).mpr ⟨by decide +kernel, fun _ => ?_⟩
  exact ⟨_, List.mem_cons_of_mem _ List.mem_cons_self, by decide +kernel,
    .inr (.inr (by decide +kernel))⟩

-- A reservation of the whole tree is not seen in the transaction.
theorem not_agrees_root :
    ¬Agrees .wildcard false [("".toList, ⟨1, [], true, 9⟩)] "src/main.rs".toList := by
  intro ⟨first, brute, found, hfirst, hbrute, _, hsome, _, _⟩
  have hf : (firstConflict false (.build .wildcard false ["".toList])
      (.new .wildcard false "src/main.rs".toList)).map Option.isSome = some false := by
        decide +kernel
  have hb : bruteForce .wildcard false [("".toList, ⟨1, [], true, 9⟩)]
      (.new .wildcard false "src/main.rs".toList) = some [⟨1, [], true, 9⟩] := by decide +kernel
  simp only [List.map_cons, List.map_nil] at hfirst
  rw [hfirst, Option.map_some, Option.some_inj] at hf
  rw [hbrute, Option.some_inj] at hb
  simp [hf, hb] at hsome

end Reservation
