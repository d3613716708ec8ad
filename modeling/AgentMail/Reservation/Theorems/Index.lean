import AgentMail.Reservation.Index
import AgentMail.Reservation.Theorems.PrefixIndex
import AgentMail.Pattern.Theorems.Globset

open Pattern
open List (Perm)

namespace Reservation

variable {gs : Globset} {ci : Bool}

namespace ReservationIndex

variable {index : ReservationIndex} {entries : List Entry} {request : Str}

theorem collect_eq_some_iff {test : CompiledPattern → Option Bool} {found : List ReservationRef} :
    collect test entries = some found ↔ (∀ e ∈ entries, test e.1 ≠ none) ∧
      found = (entries.filter (test ·.1 = some true)).map Prod.snd := by
  induction entries generalizing found
  case nil => simp [collect, eq_comm]
  case cons e entries hi =>
    cases ht : test e.1
    case none => simp [collect, ht]
    case some conflict =>
      cases hc : collect test entries
      case none =>
        have hn : ¬∀ e ∈ entries, test e.1 ≠ none := by
          intro hn
          have := hi.mpr ⟨hn, rfl⟩
          simp [hc] at this
        simp only [collect, ht, hc, Option.bind_eq_bind, Option.bind_some, Option.bind_none,
          reduceCtorEq, List.forall_mem_cons, false_iff]
        exact fun h => hn h.left.right
      case some rest =>
        have ⟨hn, hr⟩ := hi.mp hc
        have hn : ∀ e' ∈ e :: entries, test e'.1 ≠ none :=
          List.forall_mem_cons.mpr ⟨by simp [ht], hn⟩
        rw [and_iff_right hn]
        cases conflict <;> simp [collect, ht, hc, ← hr, eq_comm]

-- The keys of the literals that are looked up for a literal with key `k`: the same path, the
-- directories above it, and everything below it. There is nothing below the root.
def Routed (k key : Str) : Prop :=
  ((key = k ∨ k ≠ [] ∧ key = []) ∨ key ∈ ancestors k) ∨ k ≠ [] ∧ k ++ ['/'] <+: key

instance (k key : Str) : Decidable (Routed k key) :=
  inferInstanceAs (Decidable ((_ ∨ _) ∨ k ≠ [] ∧ k ++ ['/'] <+: key))

-- The lookups of literals.
def lookups (ci : Bool) (index : ReservationIndex) (path : Str) : List Entry :=
  index.exactByPath.get (routingKey ci path) ++
    (if path.isEmpty then [] else index.exactByPath.get (routingKey ci [])) ++
    ((ancestors path).flatMap fun a => index.exactByPath.get (routingKey ci a)) ++
    descendants index.exactByPath (routingKey ci path)

theorem perm_lookups (h : index.Holds Prod.fst (routingKey ci) entries) {path : Str}
    (hp : path ≠ [] → head path ≠ []) :
    Perm (lookups ci index path) ((entries.filter (isLiteral ·.1)).filter fun e =>
      Routed (routingKey ci path) (routingKey ci e.1.norm)) := by
  have hroot : Perm (if path.isEmpty then [] else index.exactByPath.get (routingKey ci []))
      ((entries.filter (isLiteral ·.1)).filter fun e =>
        routingKey ci path ≠ [] ∧ routingKey ci e.1.norm = []) := by
    by_cases hn : path = []
    case pos => simp [hn, routingKey]
    case neg => simpa [hn, routingKey] using h.exact.get (routingKey ci [])
  have habove : Perm ((ancestors path).flatMap fun a => index.exactByPath.get (routingKey ci a))
      ((entries.filter (isLiteral ·.1)).filter fun e =>
        routingKey ci e.1.norm ∈ ancestors (routingKey ci path)) := by
    have hget := List.Perm.flatMap_left (ancestors path) fun a _ => h.exact.get (routingKey ci a)
    have hall := MultiMap.perm_flatMap_filter (l := entries.filter (isLiteral ·.1))
      (f := fun e => routingKey ci e.1.norm) (nodup_ancestors (routingKey ci path))
    simp only [routingKey, ancestors_fold, List.flatMap_map] at hget hall ⊢
    exact hget.trans (hall.trans (.of_eq (List.filter_congr fun _ _ => decide_eq_decide.mpr .rfl)))
  have hlen {k k' : Str} (h : k ++ ['/'] <+: k') : k.length < k'.length := by
    have := h.length_le
    simp only [List.length_append, List.length_singleton] at this
    exact this
  have hnil : [] ∉ ancestors (routingKey ci path) := by
    intro ha
    have hs := mem_ancestors.mp ha
    have hk : path ≠ [] := by
      rintro rfl
      simp [routingKey] at hs
    have ⟨t, ht⟩ := hs
    have hf : fold ci (head path) = [] := by
      rw [fold_head, ← show _ = fold ci path from ht]
      rfl
    exact hp hk (fold_eq_nil.mp hf)
  refine (((h.exact.get _).append hroot).append habove).append (descendants_perm h.exact _) |>.trans
    ?_
  refine (((MultiMap.perm_filter_or ?_).append_right _).append_right _).trans ?_
  · intro e _
    simp only [decide_eq_true_eq]
    exact fun h₁ h₂ => h₂.left (h₁ ▸ h₂.right)
  refine ((MultiMap.perm_filter_or ?_).append_right _).trans ?_
  · intro e _
    simp only [decide_eq_true_eq, Bool.or_eq_true]
    rintro (h₁ | h₁) h₂
    · exact absurd (hlen (mem_ancestors.mp h₂)) (by simp [h₁])
    · exact hnil (h₁.right ▸ h₂)
  refine (MultiMap.perm_filter_or ?_).trans (.of_eq (List.filter_congr fun e _ => ?_))
  · intro e _
    simp only [decide_eq_true_eq, Bool.or_eq_true]
    rintro ((h₁ | h₁) | h₁) ⟨_, h₂⟩
    · exact absurd (hlen h₂) (by simp [h₁])
    · exact absurd (hlen h₂) (by simp [h₁.right])
    · exact absurd (hlen h₂) (hlen (mem_ancestors.mp h₁)).not_gt
  · rw [Bool.eq_iff_iff]
    simp only [Bool.or_eq_true, decide_eq_true_eq]
    exact .rfl

-- The reservations that the brute force finds.
def hit (ci : Bool) (request : CompiledPattern) (e : Entry) : Bool :=
  e.1.overlaps ci request = some true

-- The literals that are not looked up although they are below the requested root.
def missed (request : CompiledPattern) (e : Entry) : Bool :=
  request.norm = [] && isLiteral e.1 && e.1.norm ≠ []

theorem collect_perm (test : CompiledPattern → Option Bool) {stored : List Entry}
    (h : Perm stored entries) (ht : ∀ e ∈ entries, test e.1 ≠ none) :
    ∃ found, collect test stored = some found ∧
      Perm found ((entries.filter (test ·.1 = some true)).map Prod.snd) :=
  ⟨_, collect_eq_some_iff.mpr ⟨fun e he => ht e (h.mem_iff.mp he), rfl⟩, (h.filter _).map _⟩

section

-- The entries are compiled patterns, and so is the request. No comparison panics.
variable {req : CompiledPattern}
variable (hr : req = .new gs ci request)
variable (hc : ∀ e ∈ entries, ∃ raw, e.1 = .new gs ci raw)
variable (hp : ∀ e ∈ entries, e.1.overlaps ci req ≠ none)

include hp in
theorem hit_iff {e : Entry} (he : e ∈ entries) :
    hit ci req e ↔ CompiledPattern.Conflict ci e.1 req := by
  simpa [hit] using CompiledPattern.overlaps_iff (hp e he)

include hr hc hp

theorem routed_iff_hit (hg : req.isGlob = false) {e : Entry} (he : e ∈ entries)
    (hl : isLiteral e.1) :
    Routed (routingKey ci req.norm) (routingKey ci e.1.norm) ↔ hit ci req e ∧ ¬missed req e := by
  have hl' : e.1.isGlob = false := by simpa [isLiteral] using hl
  obtain ⟨raw, hraw⟩ := hc e he
  rw [hit_iff hp he]
  subst hr
  rw [hraw] at hl hl' ⊢
  rw [CompiledPattern.conflict_literal hl' hg]
  by_cases hn : (CompiledPattern.new gs ci request).norm = []
  case pos =>
    simp [Routed, missed, CompiledPattern.IsDirectory, hl, hraw, hl', hg, hn, routingKey, ancestors]
  case neg =>
    simp only [Routed, missed, CompiledPattern.IsDirectory, hl', hg, hn, routingKey, mem_ancestors,
      below_iff, fold_eq_nil]
    simp
    tauto

-- A request with a leading literal segment only hits the literals that start with it, and the root.
theorem routed_of_hit (hgs : gs.Lawful) {pre : Str} (hf : req.firstLiteralSegment = some pre)
    {e : Entry} (he : e ∈ entries) (hl : isLiteral e.1) (h : hit ci req e) :
    Routed (routingKey ci pre) (routingKey ci e.1.norm) := by
  have hl' : e.1.isGlob = false := by simpa [isLiteral] using hl
  obtain ⟨raw, hraw⟩ := hc e he
  have h := (hit_iff hp he).mp h
  subst hr
  rw [hraw] at hl' h ⊢
  obtain ⟨_, hpre, _⟩ := CompiledPattern.firstLiteralSegment_iff.mp hf
  have hk : routingKey ci pre ≠ [] := fold_eq_nil.not.mpr hpre
  by_cases hn : (CompiledPattern.new gs ci raw).norm = []
  case pos => exact .inl (.inl (.inr ⟨hk, by simp [hn, routingKey]⟩))
  case neg =>
    have hh := CompiledPattern.head_of_conflict hgs h
      (CompiledPattern.firstLiteralSegment_literal hl' hn) hf
    cases eq_head_append (CompiledPattern.new gs ci raw).norm
    case inl hs => exact .inl (.inl (.inl (by rw [hs]; exact hh)))
    case inr hs =>
      obtain ⟨t, ht⟩ := hs
      refine .inr ⟨hk, fold ci t, ?_⟩
      rw [routingKey, routingKey, ht, ← hh]
      simp

-- The globs in the bucket of the first literal segment.
theorem collect_globs (h : index.Holds Prod.fst (routingKey ci) entries) (hgs : gs.Lawful) :
    ∃ found, collect (·.overlaps ci req) (index.globBucket (routingKey ci) req) = some found ∧
      Perm found (((entries.filter (isPrefixedGlob ·.1)).filter (hit ci req)).map Prod.snd) := by
  have hn : ∀ e ∈ entries.filter (isPrefixedGlob ·.1), e.1.overlaps ci req ≠ none :=
    fun e he => hp e (List.mem_of_mem_filter he)
  cases hf : req.firstLiteralSegment <;> simp only [PrefixIndex.globBucket, hf]
  case none => exact collect_perm (·.overlaps ci req) h.globs.values hn
  case some pre =>
    have ⟨found, hfound, hperm⟩ := collect_perm (·.overlaps ci req)
      (h.globs.get (routingKey ci pre)) fun e he => hn e (List.mem_of_mem_filter he)
    refine ⟨found, hfound, hperm.trans (.of_eq (congrArg _ ?_))⟩
    rw [List.filter_filter]
    refine List.filter_congr fun e he => ?_
    have ⟨he, hg⟩ := List.mem_filter.mp he
    have ⟨s, hs⟩ := Option.isSome_iff_exists.mp (Bool.and_eq_true_iff.mp hg).right
    have hk : hit ci req e → routingKey ci s = routingKey ci pre := by
      have ⟨raw, hraw⟩ := hc e he
      intro h
      have h := (hit_iff hp he).mp h
      subst hr
      rw [hraw] at h hs
      exact CompiledPattern.head_of_conflict hgs h hs hf
    cases hh : hit ci req e
    case true  => simpa [hs, hk hh, hit] using hh
    case false =>
      have hh : e.1.overlaps ci req ≠ some true := by simpa [hit] using hh
      simp [hh]

theorem scanExactRequest_perm (h : index.Holds Prod.fst (routingKey ci) entries) (hgs : gs.Lawful)
    (hg : req.isGlob = false) : ∃ found, scanExactRequest ci index req = some found ∧
      Perm found
        (((entries.filter (isLiteral ·.1)).filter (fun e => hit ci req e && !missed req e) ++
        (entries.filter (isPrefixedGlob ·.1)).filter (hit ci req)).map Prod.snd) := by
  have ⟨globs, hglobs, hperm⟩ := collect_globs hr hc hp h hgs
  have hnorm : req.norm ≠ [] → head req.norm ≠ [] :=
    hr ▸ (CompiledPattern.new_normalized request).head_ne_nil
  refine ⟨(lookups ci index req.norm).map Prod.snd ++ globs, ?_, ?_⟩
  · simp only [scanExactRequest, hglobs, lookups]
    rfl
  · rw [List.map_append]
    refine ((perm_lookups h hnorm).trans (.of_eq (List.filter_congr fun e he => ?_))).map _
      |>.append hperm
    have ⟨he, hl⟩ := List.mem_filter.mp he
    rw [Bool.eq_iff_iff]
    simpa using routed_iff_hit hr hc hp hg he hl

theorem scanGlobRequest_perm (h : index.Holds Prod.fst (routingKey ci) entries) (hgs : gs.Lawful)
    (hg : req.isGlob) : ∃ found, scanGlobRequest ci index req = some found ∧
      Perm found (((entries.filter (isLiteral ·.1)).filter (hit ci req) ++
        (entries.filter (isPrefixedGlob ·.1)).filter (hit ci req)).map Prod.snd) := by
  have ⟨globs, hglobs, hperm⟩ := collect_globs hr hc hp h hgs
  have hm : ∀ e ∈ entries.filter (isLiteral ·.1),
      matchesOrOverlaps ci req e.1 = e.1.overlaps ci req := by
    intro e he
    have ⟨he, hl⟩ := List.mem_filter.mp he
    exact matchesOrOverlaps_eq (hp e he) hl hg
  have hn : ∀ e ∈ entries.filter (isLiteral ·.1), matchesOrOverlaps ci req e.1 ≠ none :=
    fun e he => hm e he ▸ hp e (List.mem_of_mem_filter he)
  rw [List.map_append]
  cases hf : req.firstLiteralSegment
  case none =>
    have ⟨found, hfound, hperm'⟩ := collect_perm (matchesOrOverlaps ci req) h.exact.values hn
    refine ⟨found ++ globs, ?_, Perm.append (hperm'.trans (.of_eq (congrArg _ ?_))) hperm⟩
    · simp [scanGlobRequest, hf, hfound, hglobs]
    · exact List.filter_congr fun e he => by rw [hm e he]; rfl
  case some pre =>
    have ⟨hs, hpre, _⟩ := CompiledPattern.firstLiteralSegment_iff.mp (hr ▸ hf)
    have hhead : head pre ≠ [] := by rwa [← hs, head_head, hs]
    have hlook := perm_lookups h fun _ => hhead
    have hmem : ∀ e ∈ lookups ci index pre, e ∈ entries.filter (isLiteral ·.1) :=
      fun e he => List.mem_of_mem_filter (hlook.mem_iff.mp he)
    have hnil : pre.isEmpty = false := by simpa using hpre
    simp only [lookups, hnil, Bool.false_eq_true, if_false, List.mem_append, or_imp,
      forall_and] at hmem
    have hcollect {l : List Entry} (hl : ∀ e ∈ l, e ∈ entries.filter (isLiteral ·.1)) :
        collect (matchesOrOverlaps ci req) l = some ((l.filter (hit ci req)).map Prod.snd) := by
      refine collect_eq_some_iff.mpr ⟨fun e he => hn e (hl e he), congrArg _ ?_⟩
      exact List.filter_congr fun e he => by rw [hm e (hl e he)]; rfl
    refine ⟨((lookups ci index pre).filter (hit ci req)).map Prod.snd ++ globs, ?_, ?_⟩
    · simp [scanGlobRequest, hf, hglobs, hcollect hmem.left.left.left,
        hcollect hmem.left.left.right, hcollect hmem.left.right, hcollect hmem.right, lookups, hpre]
    · refine Perm.append (((hlook.filter _).trans (.of_eq ?_)).map _) hperm
      rw [List.filter_filter]
      refine List.filter_congr fun e he => ?_
      have ⟨he, hl⟩ := List.mem_filter.mp he
      cases hh : hit ci req e
      case false => rfl
      case true  => simpa using routed_of_hit hr hc hp hgs hf he hl hh

theorem findConflicts_perm (h : index.Holds Prod.fst (routingKey ci) entries) (hgs : gs.Lawful) :
    ∃ found, findConflicts ci index req = some found ∧
      Perm found ((entries.filter fun e => hit ci req e && !missed req e).map Prod.snd) := by
  have hglob {e : Entry} (he : e.1.isGlob) : missed req e = false := by
    simp [missed, isLiteral, he]
  have hroots : collect (·.overlaps ci req) index.rootGlobs =
      some (((entries.filter (isRootGlob ·.1)).filter (hit ci req)).map Prod.snd) := by
    rw [h.roots]
    exact collect_eq_some_iff.mpr ⟨fun e he => hp e (List.mem_of_mem_filter he), rfl⟩
  have hscan : ∃ found, scanRequest ci index req = some found ∧
      Perm found
        (((entries.filter (isLiteral ·.1)).filter (fun e => hit ci req e && !missed req e) ++
        (entries.filter (isPrefixedGlob ·.1)).filter (hit ci req)).map Prod.snd) := by
    cases hg : req.isGlob <;> simp only [scanRequest, hg]
    case false => exact scanExactRequest_perm hr hc hp h hgs hg
    case true  =>
      have hn : req.norm ≠ [] := by
        intro hn
        subst hr
        rw [CompiledPattern.new_isGlob, hn] at hg
        cases hg
      simpa [missed, hn] using scanGlobRequest_perm hr hc hp h hgs hg
  obtain ⟨found, hfound, hperm⟩ := hscan
  refine ⟨found ++ ((entries.filter (isRootGlob ·.1)).filter (hit ci req)).map Prod.snd, ?_, ?_⟩
  · simp [findConflicts, hfound, hroots]
  refine (hperm.append_right _).trans ?_
  rw [← List.map_append]
  refine Perm.map _ (.trans (.of_eq ?_) (PrefixIndex.perm_kinds Prod.fst entries _))
  have hkind (kind : Entry → Bool) (hk : ∀ e, kind e → e.1.isGlob) :
      (entries.filter kind).filter (hit ci req) =
        (entries.filter kind).filter fun e => hit ci req e && !missed req e :=
    List.filter_congr fun e he => by simp [hglob (hk e (List.mem_filter.mp he).right)]
  rw [hkind (isPrefixedGlob ·.1) fun e he => (Bool.and_eq_true_iff.mp he).left,
    hkind (isRootGlob ·.1) fun e he => (Bool.and_eq_true_iff.mp he).left]

end

end ReservationIndex

open ReservationIndex

variable {reservations : List (Str × ReservationRef)} {request : Str}

theorem bruteForce_eq_some_iff {brute : List ReservationRef} :
    bruteForce gs ci reservations (.new gs ci request) = some brute ↔
      (∀ r ∈ reservations,
        (CompiledPattern.new gs ci r.1).overlaps ci (.new gs ci request) ≠ none) ∧
      brute = ((reservations.map (compile gs ci)).filter (hit ci (.new gs ci request))).map
        Prod.snd := by
  rw [bruteForce, collect_eq_some_iff, List.forall_mem_map]
  exact .rfl

-- Everything below a requested root is overlapped.
theorem hit_of_missed {e : Entry} (hn : e.1.overlaps ci (.new gs ci request) ≠ none)
    (h : missed (.new gs ci request) e) : hit ci (.new gs ci request) e := by
  have h : (CompiledPattern.new gs ci request).norm = [] := by
    simp only [missed, Bool.and_eq_true, decide_eq_true_eq] at h
    exact h.left.left
  have hg : (CompiledPattern.new gs ci request).isGlob = false := by
    rw [CompiledPattern.new_isGlob, h]
    rfl
  simpa [hit] using (CompiledPattern.overlaps_iff hn).mpr (.inr (.inr (.inl ⟨hg, .inl h⟩)))

theorem exact_iff_root (hgs : gs.Lawful) (reservations : List (Str × ReservationRef))
    (request : Str) : Exact gs ci reservations request ↔
      (∀ r ∈ reservations,
        (CompiledPattern.new gs ci r.1).overlaps ci (.new gs ci request) ≠ none) ∧
      (normalizePattern request = [] →
        ∀ r ∈ reservations, hasGlobMeta (normalizePattern r.1) = false →
          normalizePattern r.1 = []) := by
  have hc : ∀ e ∈ reservations.map (compile gs ci), ∃ raw, e.1 = .new gs ci raw := by
    simp only [List.forall_mem_map]
    exact fun r _ => ⟨r.1, rfl⟩
  have hmissed (r : Str × ReservationRef) :
      missed (.new gs ci request) (compile gs ci r) ↔
        normalizePattern request = [] ∧ hasGlobMeta (normalizePattern r.1) = false ∧
          normalizePattern r.1 ≠ [] := by
    simp only [missed, isLiteral, Bool.and_eq_true, decide_eq_true_eq, Bool.not_eq_true', and_assoc]
    exact .rfl
  constructor
  case mp =>
    rintro ⟨found, brute, hfound, hbrute, hperm⟩
    obtain ⟨hp, hb⟩ := bruteForce_eq_some_iff.mp hbrute
    refine ⟨hp, fun hroot r hr hl => ?_⟩
    have hp' : ∀ e ∈ reservations.map (compile gs ci),
        e.1.overlaps ci (.new gs ci request) ≠ none := List.forall_mem_map.mpr hp
    obtain ⟨found', hfound', hperm'⟩ :=
      findConflicts_perm rfl hc hp' (PrefixIndex.holds_build _) hgs
    cases hfound.symm.trans hfound'
    have hlen := (hperm'.symm.trans (hb ▸ hperm)).length_eq
    have hsub : (reservations.map (compile gs ci)).filter
          (fun e => hit ci (.new gs ci request) e && !missed (.new gs ci request) e) =
        ((reservations.map (compile gs ci)).filter (hit ci (.new gs ci request))).filter
          (!missed (.new gs ci request) ·) := by
      rw [List.filter_filter]
      exact List.filter_congr fun e _ => Bool.and_comm ..
    rw [List.length_map, List.length_map, hsub, List.length_filter_eq_length_iff] at hlen
    -- A literal below the root would be found by the brute force only.
    by_contra hn
    have hm := (hmissed r).mpr ⟨hroot, hl, hn⟩
    have he := List.mem_filter.mpr ⟨List.mem_map.mpr ⟨r, hr, rfl⟩, hit_of_missed (hp r hr) hm⟩
    have := hlen (compile gs ci r) he
    simp [hm] at this
  case mpr =>
    rintro ⟨hp, hroot⟩
    have hp' : ∀ e ∈ reservations.map (compile gs ci),
        e.1.overlaps ci (.new gs ci request) ≠ none := List.forall_mem_map.mpr hp
    obtain ⟨found, hfound, hperm⟩ := findConflicts_perm rfl hc hp' (PrefixIndex.holds_build _) hgs
    refine ⟨found, _, hfound, bruteForce_eq_some_iff.mpr ⟨hp, rfl⟩, hperm.trans ?_⟩
    refine .of_eq (congrArg _ (List.filter_congr fun e he => ?_))
    obtain ⟨r, hr, he⟩ := List.mem_map.mp he
    have hn : missed (.new gs ci request) e = false := by
      subst he
      rw [← Bool.not_eq_true, hmissed]
      rintro ⟨h, hl, hn⟩
      exact hn (hroot h r hr hl)
    simp [hn]

theorem exact_iff_root_sources :
    Exact .wildcard true
      [("src/**".toList, ⟨1, "src/**".toList, true, 9⟩), ("SRC/main.rs".toList, ⟨2, [], true, 9⟩)]
      "Src/Main.rs".toList :=
  (exact_iff_root Globset.wildcard_lawful _ _).mpr (by decide +kernel)

-- A reservation of the whole tree does not see the files in it.
theorem not_exact_root :
    ¬Exact .wildcard false [("src/main.rs".toList, ⟨1, "src/main.rs".toList, true, 9⟩)] [] := by
  intro ⟨found, brute, hfound, hbrute, hperm⟩
  have hf : findConflicts false
      (build .wildcard false [("src/main.rs".toList, ⟨1, "src/main.rs".toList, true, 9⟩)])
      (.new .wildcard false []) = some [] := by decide +kernel
  have hb : bruteForce .wildcard false [("src/main.rs".toList, ⟨1, "src/main.rs".toList, true, 9⟩)]
      (.new .wildcard false []) = some [⟨1, "src/main.rs".toList, true, 9⟩] := by decide +kernel
  cases hfound.symm.trans hf
  cases hbrute.symm.trans hb
  exact absurd hperm.length_eq (by decide)

end Reservation
