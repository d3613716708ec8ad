import Mathlib.Tactic.Common

-- Computations that stop at their first error.

namespace Except

variable {ε α β σ : Type} {l : List α}

theorem bind_eq_ok_iff {x : Except ε α} {f : α → Except ε β} {b : β} :
    x >>= f = .ok b ↔ ∃ a, x = .ok a ∧ f a = .ok b := by
  cases x <;> simp [bind, Except.bind]

theorem forM_ok {f : α → Except ε Unit} (h : l.forM f = .ok ()) : ∀ a ∈ l, f a = .ok () := by
  induction l
  case nil => simp
  case cons a l hi =>
    have ⟨(), h₁, h⟩ := bind_eq_ok_iff.mp h
    exact List.forall_mem_cons.mpr ⟨h₁, hi h⟩

theorem mapM_ok {f : α → Except ε β} {bs : List β} (h : l.mapM f = .ok bs) :
    List.Forall₂ (fun a b => f a = .ok b) l bs := by
  induction l generalizing bs
  case nil =>
    cases h
    exact .nil
  case cons a l hi =>
    rw [List.mapM_cons] at h
    have ⟨b, h₁, h⟩ := bind_eq_ok_iff.mp h
    have ⟨bs, h₂, h⟩ := bind_eq_ok_iff.mp h
    cases h
    exact .cons h₁ (hi h₂)

-- What every step keeps is kept by the whole loop.
theorem foldlM_ok {f : σ → α → Except ε σ} {R : σ → σ → Prop} (hr : ∀ s, R s s)
    (ht : ∀ {s t u}, R s t → R t u → R s u) (hf : ∀ s a t, f s a = .ok t → R s t) {s t : σ}
    (h : l.foldlM f s = .ok t) : R s t := by
  induction l generalizing s
  case nil =>
    cases h
    exact hr _
  case cons a l hi =>
    have ⟨u, hs, h⟩ := bind_eq_ok_iff.mp h
    exact ht (hf _ _ _ hs) (hi h)

-- A loop of which no step fails does not fail.
theorem exists_foldlM_ok {f : σ → α → Except ε σ} {s : σ} (hf : ∀ s, ∀ a ∈ l, ∃ t, f s a = .ok t) :
    ∃ t, l.foldlM f s = .ok t := by
  induction l generalizing s
  case nil => exact ⟨s, rfl⟩
  case cons a l hi =>
    have ⟨t, ht⟩ := hf s a List.mem_cons_self
    have ⟨u, hu⟩ := @hi t fun s b hb => hf s b (List.mem_cons_of_mem _ hb)
    exact ⟨u, by rw [List.foldlM_cons, ht]; exact hu⟩

end Except
