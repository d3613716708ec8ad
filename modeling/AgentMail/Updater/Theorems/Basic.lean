import AgentMail.Updater.Basic
import Mathlib.Data.List.Flatten
import Mathlib.Data.List.Induction

open List (Perm)

namespace Updater

variable {ι : Type} [DecidableEq ι] {s s' : State ι} {e : Event ι} {t : ι} {flush flush' : Flush}
  {index : Index}

-- What a step does.
inductive Steps (s : State ι) : Event ι → State ι → Prop
  | enqueue {change : DocChange} : Steps s (.enqueue change) (s.enqueue change)
  | drain {t : ι} : s.flushes.get? t = none → Steps s (.drain t) (s.drain t)
  | update {t : ι} {batch : List Entry} {result : Option Nat} :
    s.flushes.get? t = some (t, .update batch) →
      Steps s (.update t result) (s.update t batch result)
  | restore {t : ι} {batch : List Entry} :
    s.flushes.get? t = some (t, .restore batch) → Steps s (.putBack t) (s.restore t batch)
  | retain {t : ι} {batch : List Entry} {applied : Nat} :
    s.flushes.get? t = some (t, .retain batch applied) →
      Steps s (.putBack t) (s.retain t batch applied)
  | finish {t : ι} {applied : Nat} :
    s.flushes.get? t = some (t, .finish applied) → Steps s (.finish t) (s.finish t applied)

theorem eq_of_get? {u : ι} (h : s.flushes.get? t = some (u, flush)) :
    s.flushes.get? t = some (t, flush) := by
  have hk := (Table.get?_eq_some_iff.mp h).right
  exact hk ▸ h

theorem step_cases (h : step s e = some s') : Steps s e s' := by
  cases e <;> simp only [step] at h
  case enqueue =>
    cases h
    exact .enqueue
  case drain =>
    split at h
    case h_1 hg =>
      cases h
      exact .drain hg
    case h_2 => contradiction
  case update =>
    split at h
    case h_1 hg =>
      cases h
      exact .update (eq_of_get? hg)
    case h_2 => contradiction
  case putBack =>
    split at h
    case h_1 hg =>
      cases h
      exact .restore (eq_of_get? hg)
    case h_2 hg =>
      cases h
      exact .retain (eq_of_get? hg)
    case h_3 => contradiction
  case finish =>
    split at h
    case h_1 hg =>
      cases h
      exact .finish (eq_of_get? hg)
    case h_2 => contradiction

namespace State

theorem held_leave (h : s.flushes.get? t = some (t, flush)) :
    Perm s.held (flush.held ++ (s.leave t).held) :=
  (Table.perm_of_get? h).flatMap_right _

theorem get?_enter : (s.enter t flush).flushes.get? t = some (t, flush) := by
  have hn : (s.leave t).flushes.get? (t, flush).1 = none := Table.get?_delete_self
  rw [enter, Table.get?_insertOrIgnore, hn]
  simp

theorem get?_leave_of_ne {u : ι} (h : u ≠ t) : (s.leave t).flushes.get? u = s.flushes.get? u :=
  Table.get?_delete_of_ne h

theorem get?_enter_of_ne {u : ι} (h : u ≠ t) :
    (s.enter t flush).flushes.get? u = s.flushes.get? u := by
  rw [enter, Table.get?_insertOrIgnore, if_neg h.symm, get?_leave_of_ne h]

theorem rows_enter : (s.enter t flush).flushes.rows = (s.leave t).flushes.rows ++ [(t, flush)] := by
  have hn : (s.leave t).flushes.get? (t, flush).1 = none := Table.get?_delete_self
  rw [enter, Table.rows_insertOrIgnore hn]

theorem rows_leave_of_none (h : s.flushes.get? t = none) :
    (s.leave t).flushes.rows = s.flushes.rows :=
  List.filter_eq_self.mpr fun a ha => by simpa using Table.get?_eq_none_iff.mp h a ha

end State

section Changes

variable {batch : List Entry} {key : DocKey}

-- The backend applies a part of the batch, and the rest is held.
theorem held_update {n : Nat} :
    (if n < batch.length then Flush.retain batch n else .finish n).held = batch.drop n := by
  split
  case isTrue  => rfl
  case isFalse hn => exact (List.drop_of_length_le (Nat.le_of_not_lt hn)).symm

theorem applyAll_eq {changes : List DocChange} :
    index.applyAll changes key = (changes.filter (·.key = key)).getLast?.elim
      (index key) DocChange.effect := by
  induction changes using List.reverseRecOn
  case nil => rfl
  case append_singleton cs c hi =>
    rw [Index.applyAll, List.foldl_concat, ← Index.applyAll, Index.apply, List.filter_append]
    by_cases hk : c.key = key
    case pos => simp [hk]
    case neg => simpa [hk] using hi

end Changes

section Moves

variable (s s' : State ι)

-- How a step moves changes. A flush that takes a step applies the first ones that it holds, puts
-- the last ones back, and holds the others in its next state if there is one.
inductive Moves : Event ι → Prop
  | keep {e : Event ι} : s'.flushes.rows = s.flushes.rows → s'.pending.changes = s.pending.changes →
      s'.applied = s.applied →
    s'.accepted = s.accepted → s'.index = s.index → Moves e
  | accept {e : Event ι} (x : Entry) : x.seq = s.accepted.length →
      s'.flushes.rows = s.flushes.rows →
    s'.pending.changes = s.pending.changes ++ [x] → s'.applied = s.applied →
      s'.accepted = s.accepted ++ [x] →
    s'.index = s.index → Moves e
  | drain (t : ι) : s'.flushes.rows = s.flushes.rows ++ [(t, .update s.pending.changes)] →
      s.flushes.get? t = none →
    s'.pending.changes = [] → s'.applied = s.applied → s'.accepted = s.accepted →
      s'.index = s.index → Moves (.drain t)
  | advance {e : Event ι} (t : ι) (flush : Flush) (applied held back : List Entry)
      (next : List (ι × Flush)) :
    s.flushes.get? t = some (t, flush) → flush.held = applied ++ held ++ back →
    s'.flushes.rows = (s.leave t).flushes.rows ++ next → (∀ x ∈ next, x.1 = t) →
      next.flatMap (·.2.held) = held →
    s'.pending.changes = back ++ s.pending.changes → s'.applied = s.applied ++ applied →
      s'.accepted = s.accepted →
    s'.index = s.index.applyAll (applied.map Entry.change) → Moves e

variable {s s'}

theorem moves_of_step (h : step s e = some s') : Moves s s' e := by
  cases step_cases h
  case enqueue change =>
    rw [State.enqueue]
    split
    case isTrue  => exact .keep rfl rfl rfl rfl rfl
    case isFalse => exact .accept ⟨s.accepted.length, change⟩ rfl rfl rfl rfl rfl rfl
  case drain t hg =>
    rw [State.drain]
    split
    case isTrue hb  => exact .keep rfl (List.isEmpty_iff.mp hb).symm rfl rfl rfl
    case isFalse hb =>
      refine .drain t (State.rows_enter.trans ?_) hg rfl rfl rfl rfl
      exact congrArg (· ++ _) (State.rows_leave_of_none hg)
  case update t batch result hg =>
    cases result
    case none =>
      exact .advance t (.update batch) [] batch [] [(t, .restore batch)] hg
        (by simp [Flush.held]) State.rows_enter (by simp)
        (by simp [Flush.held]) rfl (by simp [State.update, State.enter, State.leave]) rfl rfl
    case some n =>
      let m := min n batch.length
      refine .advance t (.update batch) (batch.take m) (batch.drop m) [] _ hg ?_ State.rows_enter
        (by simp) ?_ rfl rfl rfl rfl
      · simp [Flush.held]
      · rw [List.flatMap_singleton, held_update]
  case restore t batch hg =>
    exact .advance t (.restore batch) [] [] batch [] hg rfl (List.append_nil _).symm
      (by simp) rfl rfl
      (List.append_nil _).symm rfl rfl
  case retain t batch n hg =>
    exact .advance t (.retain batch n) [] [] (batch.drop n) [(t, .finish n)] hg rfl State.rows_enter
      (by simp) rfl rfl
      (List.append_nil _).symm rfl rfl
  case finish t n hg =>
    exact .advance t (.finish n) [] [] [] [] hg rfl (List.append_nil _).symm (by simp) rfl rfl
      (List.append_nil _).symm rfl rfl

end Moves

variable {key : DocKey} {batch : List DocChange} {change : DocChange}
  {acc : List (DocKey × Nat) × List DocChange}

theorem exists_of_getElem? {α : Type} {l : List α} {i : Nat} {a : α} (h : l[i]? = some a) :
    ∃ l₁ l₂, l = l₁ ++ a :: l₂ ∧ l₁.length = i := by
  have ⟨hi, ha⟩ := List.getElem?_eq_some_iff.mp h
  exact ⟨l.take i, l.drop (i + 1), by rw [← ha, List.getElem_cons_drop, List.take_append_drop],
    List.length_take_of_le (Nat.le_of_lt hi)⟩

-- The result has the last change of each document, at the position that is known for its key.
structure Deduplicated (batch : List DocChange) (acc : List (DocKey × Nat) × List DocChange) :
    Prop where
  result  : ∀ key, acc.2.filter (·.key = key) = (batch.filter (·.key = key)).getLast?.toList
  seen    : ∀ key idx, acc.1.lookup key = some idx → ∃ c, acc.2[idx]? = some c ∧ c.key = key
  missing : ∀ key, acc.1.lookup key = none → acc.2.filter (·.key = key) = []

theorem Deduplicated.step (h : Deduplicated batch acc) (change : DocChange) :
    Deduplicated (batch ++ [change]) (deduplicateStep acc change) := by
  rw [deduplicateStep]
  cases hl : acc.1.lookup change.key
  case none =>
    constructor
    case result =>
      intro key
      rw [List.filter_append, List.filter_append]
      by_cases hk : change.key = key
      case pos =>
        subst hk
        simp [h.missing change.key hl]
      case neg => simpa [hk] using h.result key
    case seen =>
      intro key idx hs
      rw [List.lookup_cons] at hs
      split at hs
      case h_1 hk =>
        cases hs
        exact ⟨change, List.getElem?_concat_length, (eq_of_beq hk).symm⟩
      case h_2 =>
        have ⟨c, hc, hk⟩ := h.seen key idx hs
        exact ⟨c, List.getElem?_append_left (List.getElem?_eq_some_iff.mp hc).1 |>.trans hc, hk⟩
    case missing =>
      intro key hs
      rw [List.lookup_cons] at hs
      split at hs
      case h_1 => contradiction
      case h_2 hk =>
        rw [List.filter_append, h.missing key hs]
        simpa using ne_of_beq_false hk |>.symm
  case some idx =>
    have ⟨c, hc, hk⟩ := h.seen change.key idx hl
    have ⟨l, r, hacc, hidx⟩ := exists_of_getElem? hc
    have hset : acc.2.set idx change = l ++ change :: r := by
      simp [hacc, ← hidx]
    have hother (key) (hne : change.key ≠ key) :
        (l ++ change :: r).filter (·.key = key) = acc.2.filter (·.key = key) := by
      simp [hacc, hne, hk]
    have hlr : l.filter (·.key = change.key) = [] ∧ r.filter (·.key = change.key) = [] := by
      have hlen : (acc.2.filter (·.key = change.key)).length ≤ 1 := by
        rw [h.result]
        cases (batch.filter (·.key = change.key)).getLast? <;> simp
      have hc : (c :: r).filter (·.key = change.key) = c :: r.filter (·.key = change.key) :=
        List.filter_cons_of_pos (decide_eq_true hk)
      rw [hacc, List.filter_append, hc, List.length_append, List.length_cons] at hlen
      exact ⟨List.length_eq_zero_iff.mp (by omega), List.length_eq_zero_iff.mp (by omega)⟩
    change Deduplicated (batch ++ [change]) (acc.1, acc.2.set idx change)
    constructor
    case result =>
      intro key
      rw [hset, List.filter_append batch]
      by_cases hk' : change.key = key
      case pos =>
        subst hk'
        simp [hlr]
      case neg =>
        rw [hother key hk', h.result]
        simp [hk']
    case seen =>
      intro key i hs
      have ⟨c', hc', hk'⟩ := h.seen key i hs
      by_cases hi : idx = i
      case neg => exact ⟨c', (List.getElem?_set_ne hi).trans hc', hk'⟩
      case pos =>
        subst hi
        cases hc.symm.trans hc'
        exact ⟨change, List.getElem?_set_self (List.getElem?_eq_some_iff.mp hc).1,
          hk.symm.trans hk'⟩
    case missing =>
      intro key hs
      have hne : change.key ≠ key := by
        intro he
        rw [he, hs] at hl
        contradiction
      rw [hset, hother key hne, h.missing key hs]

theorem applyAll_deduplicateChanges (index : Index) (batch : List DocChange) :
    index.applyAll (deduplicateChanges batch) = index.applyAll batch := by
  have h : Deduplicated batch (batch.foldl deduplicateStep ([], [])) := by
    induction batch using List.reverseRecOn
    case nil => exact ⟨fun _ => rfl, nofun, fun _ _ => rfl⟩
    case append_singleton cs c hi =>
      rw [List.foldl_concat]
      exact hi.step c
  funext key
  rw [applyAll_eq, applyAll_eq, deduplicateChanges, h.result key]
  cases (batch.filter (·.key = key)).getLast? <;> rfl

end Updater
