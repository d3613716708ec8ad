import Mathlib.Data.List.Nodup
import Mathlib.Logic.Function.Basic
import AgentMail.Clock.Basic
import AgentMail.Lib.Threads

namespace Clock

theorem wrap_eq {n : Int} (h : i64Min ≤ n) (h' : n ≤ i64Max) : wrap n = n := by
  simp only [wrap, i64Min, i64Max] at *
  omega

namespace System

variable {ι : Type} {s s' : System ι} {i : ι} {e : Event ι} {seen : List Int} {v : Int}

-- What has been returned is not above the mark, and neither is what a call is about to return,
-- which has not been returned before.
def PhaseInv (s : System ι) : Phase → Prop
  | .idle                  => True
  | .start seen            => ∀ v ∈ seen, v ≤ s.last
  | .fetchMax seen current => (∀ v ∈ seen, v ≤ s.last) ∧ current ≤ i64Max
  | .fetchAdd seen         => ∀ v ∈ seen, v ≤ s.last
  | .done seen value       =>
    (∀ v ∈ seen, v < value) ∧ value ≤ s.last ∧ value ∉ s.returned.map Prod.snd

-- No two calls are about to return the same value.
def Differ : Phase → Phase → Prop
  | .done _ value, .done _ value' => value ≠ value'
  | _, _                          => True

theorem Differ.symm {p q : Phase} (h : Differ p q) : Differ q p := by
  cases p <;> cases q
  case done.done => exact Ne.symm h
  all_goals trivial

structure Inv (s : System ι) : Prop where
  nonneg     : 0 ≤ s.last
  le_max     : s.last ≤ i64Max
  phases     : ∀ i, s.PhaseInv (s.threads i)
  differ     : ∀ i j, i ≠ j → Differ (s.threads i) (s.threads j)
  returned   : ∀ x ∈ s.returned, x.2 ≤ s.last
  increasing : s.StrictlyIncreasing

theorem init_inv : (init : System ι).Inv where
  nonneg     := Int.le_refl 0
  le_max     := (by decide : (0 : Int) ≤ i64Max)
  phases     := fun _ => trivial
  differ     := fun _ _ _ => trivial
  returned   := nofun
  increasing := ⟨.nil, nofun⟩

-- The invariant does not depend on the counters.
theorem Inv.congr (h : s.Inv) (hl : s'.last = s.last) (ht : s'.threads = s.threads)
    (hr : s'.returned = s.returned) : s'.Inv := by
  have hp : s'.PhaseInv = s.PhaseInv := by
    funext phase
    cases phase <;> simp only [PhaseInv, hl, hr]
  exact {
    nonneg     := hl ▸ h.nonneg
    le_max     := hl ▸ h.le_max
    phases     := by rw [hp, ht]; exact h.phases
    differ     := ht ▸ h.differ
    returned   := by rw [hl, hr]; exact h.returned
    increasing := by rw [StrictlyIncreasing, hr]; exact h.increasing }

theorem PhaseInv.raise {phase : Phase} (h : s.PhaseInv phase) (hv : s.last ≤ v) :
    { s with last := v }.PhaseInv phase := by
  cases phase
  case idle     => trivial
  case start    => exact fun w hw => Int.le_trans (h w hw) hv
  case fetchMax => exact ⟨fun w hw => Int.le_trans (h.left w hw) hv, h.right⟩
  case fetchAdd => exact fun w hw => Int.le_trans (h w hw) hv
  case done     => exact ⟨h.left, Int.le_trans h.right.left hv, h.right.right⟩

theorem last_count (s : System ι) (delta : Int) : (s.count delta).last = s.last := by
  unfold count
  split <;> rfl

theorem threads_count (s : System ι) (delta : Int) : (s.count delta).threads = s.threads := by
  unfold count
  split <;> rfl

theorem returned_count (s : System ι) (delta : Int) : (s.count delta).returned = s.returned := by
  unfold count
  split <;> rfl

variable [DecidableEq ι]

theorem Inv.goto {phase : Phase} (h : s.Inv) (hp : s.PhaseInv phase)
    (hd : ∀ j, j ≠ i → Differ phase (s.threads j)) : (s.goto i phase).Inv where
  nonneg     := h.nonneg
  le_max     := h.le_max
  returned   := h.returned
  increasing := h.increasing
  phases     :=
    (Function.forall_update_iff s.threads fun _ => s.PhaseInv).mpr ⟨hp, fun j _ => h.phases j⟩
  differ     := Threads.pairwise_update .symm h.differ hd

-- A value above the mark is new, so that the mark may be raised to it.
theorem Inv.issue (h : s.Inv) (hs : ∀ w ∈ seen, w ≤ s.last) (hv : s.last < v) (hm : v ≤ i64Max) :
    ({ s with last := v }.goto i (.done seen v)).Inv := by
  have hr : { s with last := v }.Inv := {
    nonneg     := Int.le_trans h.nonneg (Int.le_of_lt hv)
    le_max     := hm
    phases     := fun j => (h.phases j).raise (Int.le_of_lt hv)
    differ     := h.differ
    returned   := fun x hx => Int.le_trans (h.returned x hx) (Int.le_of_lt hv)
    increasing := h.increasing }
  refine hr.goto ⟨fun w hw => Int.lt_of_le_of_lt (hs w hw) hv, Int.le_refl v, fun hm => ?_⟩
    fun j _ => ?_
  · have ⟨x, hx, he⟩ := List.mem_map.mp hm
    exact absurd (h.returned x hx) (by omega)
  · have hp := h.phases j
    simp only at hp ⊢
    generalize s.threads j = phase at hp
    cases phase
    case done seen' w => exact (Int.ne_of_lt (Int.lt_of_le_of_lt hp.right.left hv)).symm
    all_goals trivial

theorem Inv.fetchMax {current : Int} (h : s.Inv) (ht : s.threads i = .fetchMax seen current)
    (hs : s.step (.fetchMax i) = some s') : s'.Inv := by
  have ⟨hseen, hmax⟩ : (∀ v ∈ seen, v ≤ s.last) ∧ current ≤ i64Max := by
    simpa [PhaseInv, ht] using h.phases i
  have hc : (s.count (wrap (current - s.last))).Inv :=
    h.congr (last_count ..) (threads_count ..) (returned_count ..)
  simp only [step, ht] at hs
  split at hs <;> cases hs
  case isTrue hgt =>
    rw [Int.max_eq_right (Int.le_of_lt hgt)]
    exact hc.issue (by rwa [last_count]) (by rwa [last_count]) hmax
  case isFalse hle =>
    have hle : current ≤ s.last := Int.not_lt.mp hle
    rw [Int.max_eq_left hle]
    have hc' : { s.count (wrap (current - s.last)) with last := s.last }.Inv :=
      hc.congr (last_count s _).symm rfl rfl
    exact hc'.goto hseen fun j _ => by cases s.threads j <;> trivial

theorem Inv.fetchAdd (h : s.Inv) (ht : s.threads i = .fetchAdd seen) (hm : s.last < i64Max)
    (hs : s.step (.fetchAdd i) = some s') : s'.Inv := by
  have hseen : ∀ v ∈ seen, v ≤ s.last := by simpa [PhaseInv, ht] using h.phases i
  have hw : wrap (s.last + 1) = s.last + 1 := by
    have := h.nonneg
    apply wrap_eq
    · simp only [i64Min]
      omega
    · omega
  simp only [step, ht, hw] at hs
  cases hs
  exact h.issue hseen (by omega) (by omega)

theorem Inv.ret (h : s.Inv) (ht : s.threads i = .done seen v) (hs : s.step (.ret i) = some s') :
    s'.Inv := by
  have ⟨hseen, hlast, hnew⟩ : (∀ w ∈ seen, w < v) ∧ v ≤ s.last ∧ v ∉ s.returned.map Prod.snd := by
    have hp := h.phases i
    rwa [ht] at hp
  simp only [step, ht] at hs
  cases hs
  refine ⟨h.nonneg, h.le_max, ?_, ?_, ?_, ?_, ?_⟩
  · refine (Function.forall_update_iff s.threads _).mpr ⟨trivial, fun j hj => ?_⟩
    have hp := h.phases j
    have hd := h.differ i j hj.symm
    rw [ht] at hd
    generalize s.threads j = phase at hp hd ⊢
    cases phase
    case done seen' w =>
      have hw : w ∉ (s.returned ++ [(seen, v)]).map Prod.snd := by
        rw [List.map_append, List.mem_append, List.map_singleton, List.mem_singleton, not_or]
        exact ⟨hp.right.right, Ne.symm hd⟩
      exact ⟨hp.left, hp.right.left, hw⟩
    all_goals exact hp
  · exact Threads.pairwise_update .symm h.differ fun j _ => by cases s.threads j <;> trivial
  · intro x hx
    cases List.mem_append.mp hx
    case inl hx => exact h.returned x hx
    case inr hx =>
      cases List.mem_singleton.mp hx
      exact hlast
  · have hn : ((s.returned ++ [(seen, v)]).map Prod.snd).Nodup := by
      rw [List.map_append, List.map_singleton]
      refine List.nodup_append.mpr ⟨h.increasing.left, List.nodup_singleton _,
        fun w hw w' hw' he => ?_⟩
      rw [he, List.mem_singleton.mp hw'] at hw
      exact hnew hw
    exact hn
  · intro x hx
    cases List.mem_append.mp hx
    case inl hx => exact h.increasing.right x hx
    case inr hx =>
      cases List.mem_singleton.mp hx
      exact hseen

theorem step_inv (h : s.Inv) (hr : s.InRange e) (hs : s.step e = some s') : s'.Inv := by
  cases e
  case call i =>
    simp only [step] at hs
    split at hs <;> cases hs
    refine h.goto ?_ fun j _ => by cases s.threads j <;> trivial
    intro v hv
    have ⟨x, hx, he⟩ := List.mem_map.mp hv
    exact he ▸ h.returned x hx
  case read i current =>
    simp only [step] at hs
    split at hs
    case h_2 => cases hs
    case h_1 seen ht =>
      split at hs <;> cases hs
      case isTrue hc =>
        have hp := h.phases i
        rw [ht] at hp
        exact h.goto ⟨hp, Int.le_of_lt hc.right⟩ fun j _ => by cases s.threads j <;> trivial
  case fetchMax i =>
    cases ht : s.threads i
    case fetchMax seen current => exact h.fetchMax ht hs
    all_goals simp [step, ht] at hs
  case fetchAdd i =>
    cases ht : s.threads i
    case fetchAdd seen => exact h.fetchAdd ht hr hs
    all_goals simp [step, ht] at hs
  case ret i =>
    cases ht : s.threads i
    case done seen v => exact h.ret ht hs
    all_goals simp [step, ht] at hs

theorem run_strictlyIncreasing {es : List (Event ι)} (hr : Along step InRange init es)
    (h : run step init es = some s) : s.StrictlyIncreasing :=
  (Run.invariant_along step_inv init_inv hr h).increasing

-- The clock of the second thread is behind, and the first one takes the next value in between.
theorem run_strictlyIncreasing_behind :
    ∃ s, run step (init : System Nat)
        [.call 0, .call 1, .read 0 500, .read 1 400, .fetchMax 0, .fetchMax 1, .ret 0, .call 0,
          .read 0 500, .fetchMax 0, .fetchAdd 0, .fetchAdd 1, .ret 1, .ret 0] = some s ∧
      s.returned = [([], 500), ([], 502), ([500], 501)] ∧ s.StrictlyIncreasing := by
  have hrun : ((run step (init : System Nat)
      [.call 0, .call 1, .read 0 500, .read 1 400, .fetchMax 0, .fetchMax 1, .ret 0, .call 0,
        .read 0 500, .fetchMax 0, .fetchAdd 0, .fetchAdd 1, .ret 1, .ret 0]).map returned) =
      some [([], 500), ([], 502), ([500], 501)] := by decide +kernel
  have ⟨s, h, hs⟩ := Option.map_eq_some_iff.mp hrun
  exact ⟨s, h, hs, run_strictlyIncreasing (by decide +kernel) h⟩

-- With three readings next to the largest `i64`, the mark wraps around.
theorem not_strictlyIncreasing_wrapped :
    ∃ s, run step (init : System Nat)
        [.call 0, .read 0 (i64Max - 1), .fetchMax 0, .ret 0,
          .call 0, .read 0 (i64Max - 1), .fetchMax 0, .fetchAdd 0, .ret 0,
          .call 0, .read 0 (i64Max - 1), .fetchMax 0, .fetchAdd 0, .ret 0] = some s ∧
      ¬s.StrictlyIncreasing := by
  have hrun : ((run step (init : System Nat)
      [.call 0, .read 0 (i64Max - 1), .fetchMax 0, .ret 0,
        .call 0, .read 0 (i64Max - 1), .fetchMax 0, .fetchAdd 0, .ret 0,
        .call 0, .read 0 (i64Max - 1), .fetchMax 0, .fetchAdd 0, .ret 0]).map returned) =
      some [([], i64Max - 1), ([i64Max - 1], i64Max), ([i64Max - 1, i64Max], i64Min)] := by
    decide +kernel
  have ⟨s, h, hs⟩ := Option.map_eq_some_iff.mp hrun
  refine ⟨s, h, fun hi => ?_⟩
  have hx : ([i64Max - 1, i64Max], i64Min) ∈ s.returned := by simp [hs]
  exact absurd (hi.right _ hx i64Max (by simp)) (by decide)

end System
end Clock
