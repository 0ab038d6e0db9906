import Mathlib.Logic.Relation

/-! # Transition systems

Reachability of a step relation, the rule that an invariant of every step holds in
every reachable state, and forward simulation of one system by another.
-/

namespace OperatingSystem

theorem guarded {α : Type*} {c : Prop} [Decidable c] {x y : α}
    (h : (if c then some x else none) = some y) : c ∧ x = y := by
  rw [Option.ite_none_right_eq_some] at h
  exact ⟨h.1, Option.some.inj h.2⟩

/-- A step relation with its initial states. -/
structure System (σ : Type*) where
  init : σ → Prop
  step : σ → σ → Prop

namespace System

variable {σ τ : Type*} {S : System σ} {T : System τ}

/-- The states reached from an initial state by finitely many steps. -/
def Reachable (S : System σ) (s : σ) : Prop :=
  ∃ s₀, S.init s₀ ∧ Relation.ReflTransGen S.step s₀ s

theorem Reachable.init {s : σ} (h : S.init s) : S.Reachable s := ⟨s, h, .refl⟩

theorem Reachable.trans {s t : σ} (h : S.Reachable s) (hst : Relation.ReflTransGen S.step s t) :
    S.Reachable t := by
  obtain ⟨s₀, h₀, hr⟩ := h
  exact ⟨s₀, h₀, hr.trans hst⟩

theorem Reachable.tail {s t : σ} (h : S.Reachable s) (hst : S.step s t) : S.Reachable t :=
  h.trans (.single hst)

/-- A property of the initial states that every step preserves holds in every reachable state. -/
theorem Reachable.invariant {I : σ → Prop} (h₀ : ∀ s, S.init s → I s)
    (hI : ∀ s t, I s → S.step s t → I t) {s : σ} (h : S.Reachable s) : I s := by
  obtain ⟨s₀, hs₀, hr⟩ := h
  induction hr with
  | refl => exact h₀ _ hs₀
  | tail _ hst ih => exact hI _ _ ih hst

/-- A forward simulation: from related states every step of `S` is matched by steps of `T`. -/
structure Simulation (S : System σ) (T : System τ) (R : σ → τ → Prop) : Prop where
  init : ∀ s, S.init s → ∃ t, T.init t ∧ R s t
  step : ∀ s s' t, T.Reachable t → R s t → S.step s s' →
    ∃ t', Relation.ReflTransGen T.step t t' ∧ R s' t'

/-- A simulated system reaches only states related to reachable ones. -/
theorem Simulation.reachable {R : σ → τ → Prop} (h : Simulation S T R) {s : σ}
    (hs : S.Reachable s) : ∃ t, T.Reachable t ∧ R s t := by
  refine hs.invariant (I := fun s => ∃ t, T.Reachable t ∧ R s t) ?_ ?_
  · intro s h₀
    obtain ⟨t, ht, hR⟩ := h.init s h₀
    exact ⟨t, .init ht, hR⟩
  · rintro s s' ⟨t, ht, hR⟩ hst
    obtain ⟨t', hr, hR'⟩ := h.step s s' t ht hR hst
    exact ⟨t', ht.trans hr, hR'⟩

end System

end OperatingSystem
