import Mathlib.Tactic.Common

-- Runs of a system that takes one event at a time, where not every event is possible in every
-- state.

variable {σ ε : Type*}

def run (step : σ → ε → Option σ) (s : σ) : List ε → Option σ
  | []      => some s
  | e :: es => (step s e).bind (run step · es)

-- The condition holds in front of every event of a run.
def Along (step : σ → ε → Option σ) (cond : σ → ε → Prop) (s : σ) : List ε → Prop
  | []      => True
  | e :: es => cond s e ∧ ∀ s', step s e = some s' → Along step cond s' es

instance decidableAlong {step : σ → ε → Option σ} {cond : σ → ε → Prop}
    [∀ s e, Decidable (cond s e)] : ∀ s es, Decidable (Along step cond s es)
  | _, []      => isTrue trivial
  | s, e :: es =>
    have (s' : σ) : Decidable (Along step cond s' es) := decidableAlong s' es
    inferInstanceAs (Decidable (cond s e ∧ ∀ s' ∈ step s e, Along step cond s' es))

namespace Run

variable {step : σ → ε → Option σ} {s s' s'' : σ} {es es' : List ε}

theorem invariant_along {I : σ → Prop} {cond : σ → ε → Prop}
    (hstep : ∀ {s e s'}, I s → cond s e → step s e = some s' → I s')
    (hs : I s) (hc : Along step cond s es) (h : run step s es = some s') : I s' := by
  induction es generalizing s
  case nil =>
    cases h
    exact hs
  case cons e es hi =>
    have ⟨t, ht, h⟩ := Option.bind_eq_some_iff.mp h
    exact hi (hstep hs hc.left ht) (hc.right t ht) h

theorem invariant {I : σ → Prop} (hstep : ∀ {s e s'}, I s → step s e = some s' → I s')
    (hs : I s) (h : run step s es = some s') : I s' := by
  induction es generalizing s
  case nil =>
    cases h
    exact hs
  case cons e es hi =>
    have ⟨t, ht, h⟩ := Option.bind_eq_some_iff.mp h
    exact hi (hstep hs ht) h

-- What every event keeps is kept from any point of a run on.
theorem preserves {I : σ → Prop} {R : σ → σ → Prop} (hr : ∀ s, R s s)
    (ht : ∀ {s t u}, R s t → R t u → R s u)
    (hi : ∀ {s e s'}, I s → step s e = some s' → I s')
    (hstep : ∀ {s e s'}, I s → step s e = some s' → R s s')
    (hs : I s) (h : run step s es = some s') : R s s' := by
  induction es generalizing s
  case nil =>
    cases h
    exact hr _
  case cons e es hi' =>
    have ⟨t, he, h⟩ := Option.bind_eq_some_iff.mp h
    exact ht (hstep hs he) (hi' (hi hs he) h)

-- Events of one kind reach a goal if one of them is always possible that makes a measure smaller.
theorem reaches {I goal : σ → Prop} {own : ε → Prop} (measure : σ → Nat)
    (hstep : ∀ s, I s → goal s ∨ ∃ e s', own e ∧ step s e = some s' ∧ I s' ∧ measure s' < measure s)
    (hs : I s) : ∃ es s', (∀ e ∈ es, own e) ∧ run step s es = some s' ∧ I s' ∧ goal s' := by
  induction hm : measure s using Nat.strongRecOn generalizing s
  case ind m hi =>
    obtain hg | ⟨e, t, ho, ht, hit, hlt⟩ := hstep s hs
    · exact ⟨[], s, nofun, rfl, hs, hg⟩
    · have ⟨es, s', hes, h, his, hg⟩ := hi (measure t) (hm ▸ hlt) hit rfl
      exact ⟨e :: es, s', List.forall_mem_cons.mpr ⟨ho, hes⟩, by simpa [run, ht] using h, his, hg⟩

end Run
