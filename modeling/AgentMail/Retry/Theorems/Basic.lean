import AgentMail.Retry.Basic

namespace Retry

variable {cfg : Config} {now : Nat} {cb : CircuitBreaker}

namespace CircuitBreaker

theorem state_eq : cb.state cfg now =
    if now < cb.openUntilUs then .opened else if cfg.threshold ≤ cb.failures then .halfOpen
      else .closed := by
  have h : cb.openUntilUs > 0 ∧ now < cb.openUntilUs ↔ now < cb.openUntilUs :=
    and_iff_right_of_imp Nat.zero_lt_of_lt
  simp only [state, h, ge_iff_le]

theorem state_eq_opened : cb.state cfg now = .opened ↔ now < cb.openUntilUs := by
  rw [state_eq]
  split
  case isTrue h  => exact iff_of_true rfl h
  case isFalse h => split <;> exact iff_of_false nofun h

theorem state_eq_halfOpen :
    cb.state cfg now = .halfOpen ↔ cb.openUntilUs ≤ now ∧ cfg.threshold ≤ cb.failures := by
  rw [state_eq]
  split
  case isTrue h  => exact iff_of_false nofun fun hn => absurd h (Nat.not_lt.mpr hn.left)
  case isFalse h => split <;> simp_all

theorem state_eq_closed :
    cb.state cfg now = .closed ↔ cb.openUntilUs ≤ now ∧ cb.failures < cfg.threshold := by
  rw [state_eq]
  split
  case isTrue h  => exact iff_of_false nofun fun hn => absurd h (Nat.not_lt.mpr hn.left)
  case isFalse h => split <;> simp_all

-- A check only changes the time of the last probe, and it does not allow a call while the breaker
-- is open.
theorem check_eq {cb' : CircuitBreaker} {r : Except CircuitBreakerOpen Unit}
    (h : cb.check cfg now = (cb', r)) :
    ∃ lastProbeUs, cb' = { cb with lastProbeUs } ∧ (r = .ok () → cb.openUntilUs ≤ now) := by
  unfold check at h
  split at h
  case h_1 hs =>
    cases h
    exact ⟨_, rfl, fun _ => (state_eq_closed.mp hs).left⟩
  case h_2 hs =>
    simp only at h
    split at h <;> cases h
    case isTrue  => exact ⟨_, rfl, nofun⟩
    case isFalse => exact ⟨_, rfl, fun _ => (state_eq_halfOpen.mp hs).left⟩
  case h_3 =>
    cases h
    exact ⟨_, rfl, nofun⟩

end CircuitBreaker

namespace System

variable {ι : Type} {s s' : System ι} {e : Event ι} {breaker : CircuitBreaker} {streak : Nat}

structure Inv (cfg : Config) (s : System ι) : Prop where
  successes : s.breaker.halfOpenSuccesses = s.streak
  few       : s.streak < halfOpenSuccessThreshold
  closed    : s.breaker.failures < cfg.threshold → s.breaker.halfOpenSuccesses = 0
  openings  : ∀ t ∈ s.openings, t ≤ s.clock ∧
    (t + cfg.resetUs ≤ s.clock ∨ t + cfg.resetUs ≤ s.breaker.openUntilUs)
  safe      : s.Safe cfg

theorem init_inv (clock : Nat) : (init clock : System ι).Inv cfg where
  successes := rfl
  few       := (by decide : 0 < halfOpenSuccessThreshold)
  closed    := fun _ => rfl
  openings  := nofun
  safe      := ⟨nofun, nofun⟩

-- Unless the breaker is open, all openings are long ago.
theorem Inv.le_clock (h : s.Inv cfg) (hn : s.breaker.openUntilUs ≤ s.clock) {t : Nat}
    (ht : t ∈ s.openings) : t + cfg.resetUs ≤ s.clock := by
  cases (h.openings t ht).right
  case inl h => exact h
  case inr h => exact Nat.le_trans h hn

-- What has to be shown of a change: earlier openings still count, a new one lasts long enough, and
-- the breaker does not close too soon.
theorem Inv.change (h : s.Inv cfg)
    (hs : breaker.state cfg s.clock ≠ .closed →
      breaker.halfOpenSuccesses = streak ∧ streak < halfOpenSuccessThreshold)
    (hz : breaker.failures < cfg.threshold → breaker.halfOpenSuccesses = 0)
    (ho : ∀ t ∈ s.openings, t + cfg.resetUs ≤ s.clock ∨ t + cfg.resetUs ≤ breaker.openUntilUs)
    (hn : s.state cfg ≠ .opened → breaker.state cfg s.clock = .opened →
      s.clock + cfg.resetUs ≤ breaker.openUntilUs)
    (hc : s.state cfg = .halfOpen → breaker.state cfg s.clock = .closed →
      halfOpenSuccessThreshold ≤ streak) : (s.change cfg breaker streak).Inv cfg := by
  have hclosed (h : breaker.state cfg s.clock = .closed) : breaker.halfOpenSuccesses = 0 :=
    hz (CircuitBreaker.state_eq_closed.mp h).right
  refine ⟨?_, ?_, hz, ?_, h.safe.left, ?_⟩
  · simp only [System.change]
    split
    case isTrue h  => exact hclosed h
    case isFalse h => exact (hs h).left
  · simp only [System.change]
    split
    case isTrue    => decide
    case isFalse h => exact (hs h).right
  · intro t ht
    simp only [System.change] at ht
    split at ht
    case isFalse => exact ⟨(h.openings t ht).left, ho t ht⟩
    case isTrue hopen =>
      cases List.mem_append.mp ht
      case inl ht => exact ⟨(h.openings t ht).left, ho t ht⟩
      case inr ht =>
        cases List.mem_singleton.mp ht
        exact ⟨Nat.le_refl _, .inr (hn hopen.left hopen.right)⟩
  · intro n hm
    simp only [System.change] at hm
    split at hm
    case isFalse => exact h.safe.right n hm
    case isTrue hclose =>
      cases List.mem_append.mp hm
      case inl hm => exact h.safe.right n hm
      case inr hm => exact List.mem_singleton.mp hm ▸ hc hclose.left hclose.right

-- A change that concerns neither the failures nor the time does not change the state.
theorem Inv.same (h : s.Inv cfg) (lastProbeUs : Nat) :
    (s.change cfg { s.breaker with lastProbeUs } s.streak).Inv cfg := by
  refine h.change (fun _ => ⟨h.successes, h.few⟩) h.closed (fun t ht => (h.openings t ht).right)
    (fun hn ho => absurd ho hn) fun hh hc => ?_
  cases hh.symm.trans hc

theorem Inv.recordSuccess (h : s.Inv cfg) (hn : s.state cfg ≠ .opened) :
    (s.change cfg (s.breaker.recordSuccess cfg s.clock)
      (if s.state cfg = .halfOpen then s.streak + 1 else 0)).Inv cfg := by
  have hu : s.breaker.openUntilUs ≤ s.clock :=
    Nat.le_of_not_lt fun hlt => hn (CircuitBreaker.state_eq_opened.mpr hlt)
  have hnew : CircuitBreaker.new.state cfg s.clock = .closed :=
    CircuitBreaker.state_eq_closed.mpr ⟨Nat.zero_le _, cfg.threshold_pos⟩
  cases hs : s.state cfg
  case opened => exact absurd hs hn
  case closed =>
    have hr : s.breaker.recordSuccess cfg s.clock = { s.breaker with failures := 0 } := by
      simp only [CircuitBreaker.recordSuccess, show s.breaker.state cfg s.clock = .closed from hs]
    have hc : { s.breaker with failures := 0 }.state cfg s.clock = .closed :=
      CircuitBreaker.state_eq_closed.mpr ⟨hu, cfg.threshold_pos⟩
    rw [hr, if_neg nofun]
    refine h.change (fun hne => absurd hc hne)
      (fun _ => h.closed (CircuitBreaker.state_eq_closed.mp hs).right)
      (fun t ht => .inl (h.le_clock hu ht)) (fun _ ho => ?_) (fun hh => ?_)
    · cases hc.symm.trans ho
    · cases hs.symm.trans hh
  case halfOpen =>
    have hfew := h.few
    rw [← h.successes] at hfew
    have hmod : (s.breaker.halfOpenSuccesses + 1) % 2 ^ 32 = s.breaker.halfOpenSuccesses + 1 := by
      simp only [halfOpenSuccessThreshold] at hfew
      omega
    simp only [CircuitBreaker.recordSuccess,
      show s.breaker.state cfg s.clock = .halfOpen from hs, hmod, if_true]
    split
    case isTrue hge =>
      refine h.change (fun hne => absurd hnew hne) (fun _ => rfl)
        (fun t ht => .inl (h.le_clock hu ht)) (fun _ ho => ?_) (fun _ _ => h.successes ▸ hge)
      cases hnew.symm.trans ho
    case isFalse hlt =>
      -- The state is still half-open.
      have hh : ({ s.breaker with
          halfOpenSuccesses := s.breaker.halfOpenSuccesses + 1 }).state cfg s.clock = .halfOpen :=
        CircuitBreaker.state_eq_halfOpen.mpr (CircuitBreaker.state_eq_halfOpen.mp hs)
      have hf := (CircuitBreaker.state_eq_halfOpen.mp hs).right
      refine h.change (fun _ => ⟨by rw [h.successes], ?_⟩)
        (fun hlt => absurd hf (Nat.not_le.mpr hlt))
        (fun t ht => (h.openings t ht).right) (fun _ ho => ?_) (fun _ hc => ?_)
      · rw [← h.successes]
        exact Nat.lt_of_not_le hlt
      · cases hh.symm.trans ho
      · cases hh.symm.trans hc

theorem Inv.recordFailure (h : s.Inv cfg) (hf : s.breaker.failures + 1 < 2 ^ 32)
    (ht : s.clock + cfg.resetUs < 2 ^ 64) :
    (s.change cfg (s.breaker.recordFailure cfg s.clock) 0).Inv cfg := by
  simp only [CircuitBreaker.recordFailure, Nat.mod_eq_of_lt hf, Nat.mod_eq_of_lt ht]
  refine h.change (fun _ => ⟨rfl, by decide⟩) (fun _ => rfl) (fun t ht => ?_) (fun hn ho => ?_)
    (fun hh hc => ?_)
  · simp only
    have ⟨hle, ho⟩ := h.openings t ht
    split
    case isTrue  => exact .inr (Nat.add_le_add_right hle _)
    case isFalse => exact ho
  · have ho := CircuitBreaker.state_eq_opened.mp ho
    simp only at ho ⊢
    split at ho
    case isTrue hge => exact Nat.le_of_eq (if_pos hge).symm
    case isFalse    => exact absurd (CircuitBreaker.state_eq_opened.mpr ho) hn
  · have hf := (CircuitBreaker.state_eq_halfOpen.mp hh).right
    have hc := (CircuitBreaker.state_eq_closed.mp hc).right
    simp only at hc
    omega

variable [DecidableEq ι]

theorem Inv.goto {i : ι} {client : Client} (h : s.Inv cfg) : (s.goto i client).Inv cfg :=
  { h with }

theorem step_inv (h : s.Inv cfg) (hg : s.Guarded cfg e) (hs : s.step cfg e = some s') :
    s'.Inv cfg := by
  cases e
  case tick clock =>
    simp only [step] at hs
    split at hs <;> cases hs
    case isTrue hle =>
      refine { h with openings := fun t ht => ?_ }
      have ⟨hc, ho⟩ := h.openings t ht
      exact ⟨Nat.le_trans hc hle, ho.imp_left (Nat.le_trans · hle)⟩
  case check i =>
    simp only [step] at hs
    split at hs
    case h_1 => cases hs
    case h_2 =>
      split at hs <;> cases hs
      case h_1 breaker _ hc =>
        have ⟨lastProbeUs, hb, _⟩ := CircuitBreaker.check_eq hc
        exact hb ▸ h.same lastProbeUs
      case h_2 breaker _ hc =>
        have ⟨lastProbeUs, hb, hok⟩ := CircuitBreaker.check_eq hc
        subst hb
        have hi := h.same lastProbeUs
        refine Inv.goto { hi with safe := ⟨fun x hx => ?_, hi.safe.right⟩ }
        cases List.mem_append.mp hx
        case inl hx => exact h.safe.left x hx
        case inr hx =>
          cases List.mem_singleton.mp hx
          exact fun t ht => h.le_clock (hok rfl) ht
  case success i =>
    simp only [step] at hs
    split at hs <;> cases hs
    exact (h.recordSuccess hg).goto
  case failure i =>
    simp only [step] at hs
    split at hs <;> cases hs
    exact (h.recordFailure hg.left hg.right).goto
  case finish i =>
    simp only [step] at hs
    split at hs <;> cases hs
    exact h.goto

theorem run_safe {clock : Nat} {es : List (Event ι)}
    (hg : Along (step cfg) (Guarded cfg) (init clock) es)
    (h : run (step cfg) (init clock) es = some s) : s.Safe cfg :=
  (Run.invariant_along step_inv (init_inv clock) hg h).safe

-- Two failures open the breaker, and after three probes it is closed again.
theorem run_safe_closed :
    ∃ s, run (step (.new 2 30)) (init 1 : System Nat)
        [.check 0, .failure 0, .check 0, .check 1, .failure 0, .failure 1, .check 0,
          .tick 40, .check 0,
          .success 0, .tick 5000050, .check 0, .success 0, .tick 10000060, .check 1, .success 1,
          .check 0] = some s ∧
      s.closings = [3] ∧ s.Safe (.new 2 30) := by
  have hrun : ((run (step (.new 2 30)) (init 1 : System Nat)
      [.check 0, .failure 0, .check 0, .check 1, .failure 0, .failure 1, .check 0,
        .tick 40, .check 0, .success 0, .tick 5000050, .check 0, .success 0, .tick 10000060,
        .check 1, .success 1, .check 0]).map closings) = some [3] := by decide +kernel
  have ⟨s, h, hs⟩ := Option.map_eq_some_iff.mp hrun
  exact ⟨s, h, hs, run_safe (by decide +kernel) h⟩

-- The operation of client 0 was allowed before the breaker opened, and it succeeds afterwards.
theorem not_safe_late_success :
    ∃ s, run (step (.new 2 30000000)) (init 1 : System Nat)
        [.check 0, .check 1, .check 2, .failure 1, .failure 2, .success 0, .check 1] = some s ∧
      ¬s.Safe (.new 2 30000000) := by
  have hrun : ((run (step (.new 2 30000000)) (init 1 : System Nat)
      [.check 0, .check 1, .check 2, .failure 1, .failure 2, .success 0, .check 1]).map allowed) =
      some [([], 1), ([], 1), ([], 1), ([1], 1)] := by decide +kernel
  have ⟨s, h, hs⟩ := Option.map_eq_some_iff.mp hrun
  refine ⟨s, h, fun hsafe => ?_⟩
  have hx : ([1], 1) ∈ s.allowed := by simp [hs]
  exact absurd (hsafe.left _ hx 1 (by simp)) (by decide)

end System
end Retry
