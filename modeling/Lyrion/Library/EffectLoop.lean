/- GID: Lyrion.Library.EffectLoop
   digest: Loops whose steps act by effects that compose. -/

import Mathlib

set_option autoImplicit false
set_option relaxedAutoImplicit false

namespace Lyrion.Library.EffectLoop

/-- Effects that act partially on states: doing nothing is the unit, doing one after the other
is the product. -/
structure PartialAction (σ E : Type) [Monoid E] where
  act : σ → E → Option σ
  act_one : ∀ s, act s 1 = some s
  act_mul : ∀ s e f, act s (e * f) = (act s e).bind fun t => act t f

section Loops

variable {σ E ι ε : Type} [Monoid E] (A : PartialAction σ E)

/-- The step succeeds on an item exactly when the item is admissible and its effect can act. -/
def Steps (step : σ → ι → Except ε σ) (ok : ι → Prop) (effect : ι → E) : Prop :=
  ∀ s i t, step s i = .ok t ↔ ok i ∧ A.act s (effect i) = some t

variable {A} {step : σ → ι → Except ε σ} {ok : ι → Prop} {effect : ι → E}

theorem Steps.foldlM_eq_ok (spec : Steps A step ok effect) (items : List ι) (s t : σ) :
    items.foldlM step s = .ok t ↔
      (∀ i ∈ items, ok i) ∧ A.act s (items.map effect).prod = some t := by
  induction items generalizing s with
  | nil =>
      simp only [List.foldlM_nil, List.map_nil, List.prod_nil, A.act_one, List.not_mem_nil,
        false_implies, implies_true, true_and, Option.some.injEq]
      exact Except.ok.injEq s t ▸ Iff.rfl
  | cons i items ih =>
      simp only [List.foldlM_cons, List.map_cons, List.prod_cons, A.act_mul, List.forall_mem_cons]
      cases stepped : step s i with
      | error e =>
          have stuck : ¬ (ok i ∧ ∃ u, A.act s (effect i) = some u) := by
            rintro ⟨admissible, u, acted⟩
            have := (spec s i u).mpr ⟨admissible, acted⟩
            rw [stepped] at this
            exact absurd this (by simp)
          constructor
          · intro finished
            exact absurd finished (by simp [Bind.bind, Except.bind])
          · rintro ⟨⟨admissible, -⟩, acted⟩
            obtain ⟨u, first, -⟩ := Option.bind_eq_some_iff.mp acted
            exact absurd ⟨admissible, u, first⟩ stuck
      | ok u =>
          obtain ⟨admissible, acted⟩ := (spec s i u).mp stepped
          have rest := ih u
          simp only [Bind.bind, Except.bind] at rest ⊢
          rw [rest, acted, Option.bind_some]
          tauto

end Loops

end Lyrion.Library.EffectLoop
