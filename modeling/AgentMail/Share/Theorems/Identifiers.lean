import Mathlib.Data.List.Induction
import AgentMail.Share.Scope

open Pattern (Str trim)
open Schema

namespace Share

variable {db db' : Database} {engine : Engine} {identifiers : List Str} {ids : List Int}
  {p : ProjectRow}
variable {ident key : Str} {projects : List ProjectRow}

theorem lookup_append : lookup (projects ++ [p]) key =
    if nocase p.slug = key ∨ nocase p.humanKey = key then some p else lookup projects key := by
  simp only [lookup, List.foldl_append, List.foldl_cons, List.foldl_nil, Function.update_apply]
  by_cases hk : key = nocase p.humanKey
  case pos => simp [hk]
  case neg =>
    by_cases hs : key = nocase p.slug
    case pos => simp [hs]
    case neg => simp [hk, hs, Ne.symm hk, Ne.symm hs]

-- The newest project with the key.
theorem lookup_eq_some (h : projects.Pairwise (·.id < ·.id)) : lookup projects key = some p ↔
    p ∈ projects ∧ (nocase p.slug = key ∨ nocase p.humanKey = key) ∧
      ∀ q ∈ projects, nocase q.slug = key ∨ nocase q.humanKey = key → q.id ≤ p.id := by
  induction projects using List.reverseRecOn
  case nil => simp [lookup]
  case append_singleton projects p' hi =>
    have ⟨hp, _, hlt⟩ := List.pairwise_append.mp h
    have hlt {q : ProjectRow} (hq : q ∈ projects) : q.id < p'.id := hlt q hq p' List.mem_cons_self
    rw [lookup_append]
    split
    case isTrue hk =>
      simp only [Option.some.injEq, List.mem_append, List.mem_singleton]
      constructor
      case mp =>
        rintro rfl
        refine ⟨.inr rfl, hk, fun q hq _ => ?_⟩
        rcases hq with hq | rfl
        case inl => exact (hlt hq).le
        case inr => exact le_rfl
      case mpr =>
        intro ⟨hm, _, hle⟩
        have hle := hle p' (.inr rfl) hk
        exact (hm.resolve_left fun hm => absurd hle (hlt hm).not_ge).symm
    case isFalse hk =>
      rw [hi hp]
      simp only [List.mem_append, List.mem_singleton]
      constructor
      case mp =>
        intro ⟨hm, hk', hle⟩
        exact ⟨.inl hm, hk', fun q hq hqk => hle q (hq.resolve_right fun he => hk (he ▸ hqk)) hqk⟩
      case mpr =>
        intro ⟨hm, hk', hle⟩
        exact ⟨hm.resolve_right fun he => hk (he ▸ hk'), hk', fun q hq => hle q (.inl hq)⟩

theorem lookup_isSome (h : p ∈ projects) (hk : nocase p.slug = key ∨ nocase p.humanKey = key) :
    ∃ q, lookup projects key = some q := by
  induction projects using List.reverseRecOn
  case nil => cases h
  case append_singleton projects p' hi =>
    rw [lookup_append]
    split
    case isTrue      => exact ⟨p', rfl⟩
    case isFalse hk' =>
      refine hi ((List.mem_append.mp h).resolve_right fun h => hk' ?_)
      exact List.mem_singleton.mp h ▸ hk

theorem nocase_eq_nil {s : Str} : nocase s = [] ↔ s = [] :=
  List.map_eq_nil_iff

theorem matchIdentifiers_spec {look : Str → Option ProjectRow} {matched : List ProjectRow}
    (hs : ∀ ident ∈ identifiers, trim ident ≠ [] → ∃ p, look (nocase (trim ident)) = some p)
    (hi : ∀ p ∈ projects, ∀ q ∈ projects, p.id = q.id → p = q)
    (hl : ∀ key p, look key = some p → p ∈ projects) (hm : ∀ p ∈ matched, p ∈ projects)
    (hn : (matched.map (·.id)).Nodup) :
    ∃ matched', matchIdentifiers look identifiers matched = .ok matched' ∧
      (matched'.map (·.id)).Nodup ∧ ∀ p, p ∈ matched' ↔ p ∈ matched ∨
        ∃ ident ∈ identifiers, trim ident ≠ [] ∧ look (nocase (trim ident)) = some p := by
  induction identifiers generalizing matched
  case nil => exact ⟨matched, rfl, hn, by simp⟩
  case cons ident identifiers ih =>
    have ⟨h, hs⟩ := List.forall_mem_cons.mp hs
    by_cases hb : trim ident = []
    case pos =>
      have ⟨matched', he, hn', hm'⟩ := ih hs hm hn
      refine ⟨matched', ?_, hn', fun p => (hm' p).trans (by simp [hb])⟩
      rw [matchIdentifiers, if_pos (nocase_eq_nil.mpr hb), he]
    case neg =>
      have ⟨p, hp⟩ := h hb
      have mem_iff (q : ProjectRow) : q ∈ (if p.id ∈ matched.map (·.id) then matched
          else matched ++ [p]) ↔ q ∈ matched ∨ q = p := by
        split
        case isFalse => simp
        case isTrue hid =>
          have ⟨p', hp', he⟩ := List.mem_map.mp hid
          have he := hi p' (hm p' hp') p (hl _ p hp) he
          exact ⟨.inl, fun h => h.elim id fun h => h ▸ he ▸ hp'⟩
      have hm₂ : ∀ q ∈ (if p.id ∈ matched.map (·.id) then matched else matched ++ [p]),
          q ∈ projects :=
        fun q hq => ((mem_iff q).mp hq).elim (hm q) fun he => he ▸ hl _ p hp
      have hn₂ :
          ((if p.id ∈ matched.map (·.id) then matched else matched ++ [p]).map (·.id)).Nodup := by
        split
        case isTrue      => exact hn
        case isFalse hid =>
          rw [List.map_append, List.nodup_append]
          refine ⟨hn, List.nodup_singleton _, fun a ha b hb he => hid ?_⟩
          rw [he, List.mem_singleton.mp hb] at ha
          exact ha
      have ⟨matched', he, hn', hm'⟩ := ih hs hm₂ hn₂
      refine ⟨matched', ?_, hn', fun q => ?_⟩
      · simp only [matchIdentifiers, mt nocase_eq_nil.mp hb, if_false, hp]
        exact he
      · rw [hm', mem_iff, or_assoc, List.exists_mem_cons_iff]
        simp only [hb, hp, not_false_eq_true, true_and, Option.some.injEq, ne_eq]
        rw [eq_comm (a := q)]

section

variable (db)

theorem mem_allProjects : p ∈ db.projects.rows.insertionSort (·.id ≤ ·.id) ↔ p ∈ db.projects.rows :=
  List.mem_insertionSort _

theorem pairwise_allProjects :
    (db.projects.rows.insertionSort (·.id ≤ ·.id)).Pairwise fun p q => p.id < q.id := by
  have hp := db.projects.rows.perm_insertionSort fun p q => p.id ≤ q.id
  have hn : (db.projects.rows.insertionSort (·.id ≤ ·.id)).Pairwise fun p q => p.id ≠ q.id :=
    List.pairwise_map.mp ((hp.map _).nodup_iff.mpr db.projects.nodup)
  have hs : (db.projects.rows.insertionSort (·.id ≤ ·.id)).Pairwise fun p q => p.id ≤ q.id := by
    have : Std.Total fun p q : ProjectRow => p.id ≤ q.id := ⟨fun p q => le_total p.id q.id⟩
    have : IsTrans ProjectRow fun p q => p.id ≤ q.id := ⟨fun _ _ _ => le_trans⟩
    exact List.pairwise_insertionSort _ _
  exact (hs.and hn).imp fun h => lt_of_le_of_ne h.left h.right

theorem lookup_allProjects :
    lookup (db.projects.rows.insertionSort (·.id ≤ ·.id)) (nocase (trim ident)) = some p ↔
      p ∈ db.projects.rows ∧ SameKey p ident ∧ ∀ q ∈ db.projects.rows, SameKey q ident →
        q.id ≤ p.id := by
  simp only [lookup_eq_some (pairwise_allProjects db), mem_allProjects, SameKey]

end

theorem exists_lookup (h : Identifies db identifiers) (hi : ident ∈ identifiers)
    (hb : trim ident ≠ []) :
    ∃ p, lookup (db.projects.rows.insertionSort (·.id ≤ ·.id)) (nocase (trim ident)) = some p := by
  have ⟨p, hp, hk⟩ := h ident hi hb
  exact lookup_isSome ((mem_allProjects db).mpr hp) (hk.imp (congrArg nocase) (congrArg nocase))

theorem exists_selected (h : Identifies db identifiers) (hi : ident ∈ identifiers)
    (hb : trim ident ≠ []) : ∃ id, Selected db identifiers id := by
  have ⟨p, hp⟩ := exists_lookup h hi hb
  have ⟨hp, hk⟩ := (lookup_allProjects db).mp hp
  exact ⟨p.id, ident, hi, hb, p, hp, rfl, hk⟩

theorem matchIdentifiers_selected (h : Identifies db identifiers) :
    ∃ matched, matchIdentifiers (lookup (db.projects.rows.insertionSort (·.id ≤ ·.id))) identifiers
      [] =
        .ok matched ∧ (matched.map (·.id)).Nodup ∧
      (∀ p ∈ matched, p ∈ db.projects.rows) ∧
      ∀ id, id ∈ matched.map (·.id) ↔ Selected db identifiers id := by
  have hi : ∀ p ∈ db.projects.rows, ∀ q ∈ db.projects.rows, p.id = q.id → p = q :=
    fun p hp q hq => List.inj_on_of_nodup_map db.projects.nodup hp hq
  have hl : ∀ key p, lookup (db.projects.rows.insertionSort (·.id ≤ ·.id)) key = some p →
      p ∈ db.projects.rows :=
    fun key p hp => (mem_allProjects db).mp ((lookup_eq_some (pairwise_allProjects db)).mp hp).left
  have ⟨matched, he, hn, hm⟩ := @matchIdentifiers_spec _ _ _ []
    (fun _ => exists_lookup h) hi hl nofun List.nodup_nil
  have mem_iff {p : ProjectRow} : p ∈ matched ↔ ∃ ident ∈ identifiers, trim ident ≠ [] ∧
      p ∈ db.projects.rows ∧ SameKey p ident ∧ ∀ q ∈ db.projects.rows, SameKey q ident →
        q.id ≤ p.id := by
    rw [hm, or_iff_right List.not_mem_nil]
    simp only [lookup_allProjects]
  refine ⟨matched, he, hn, fun p hp => ?_, fun id => ?_⟩
  · have ⟨_, _, _, hp, _⟩ := mem_iff.mp hp
    exact hp
  · rw [List.mem_map]
    constructor
    case mp =>
      intro ⟨p, hp, hid⟩
      have ⟨ident, hi, hb, hp, hk⟩ := mem_iff.mp hp
      exact ⟨ident, hi, hb, p, hp, hid, hk⟩
    case mpr =>
      intro ⟨ident, hi, hb, p, hp, hid, hk⟩
      exact ⟨p, mem_iff.mpr ⟨ident, hi, hb, hp, hk⟩, hid⟩

end Share
