/- GID: Lyrion/Library/GapScan
   digest: Walking numbered places until a number of them in a row were idle. -/

import Mathlib

set_option autoImplicit false
set_option relaxedAutoImplicit false

namespace Lyrion.Library.GapScan

variable {active active' : ℕ → Prop} {limit index gap m n n' : ℕ}

/-- The places before which a walk may end: `limit` idle ones lie right before them. -/
def stops (active : ℕ → Prop) (limit : ℕ) : Set ℕ :=
  {n | limit ≤ n ∧ ∀ i, n ≤ i + limit → i < n → ¬ active i}

theorem stops_anti (more : ∀ i, active i → active' i) :
    stops active' limit ⊆ stops active limit := by
  rintro n ⟨far, idle⟩
  refine ⟨far, ?_⟩
  intro i near before here
  exact idle i near before (more i here)

theorem lt_isLeast_stops_iff (first : IsLeast (stops active limit) n)
    (second : IsLeast (stops active' limit) n') (grown : ∀ i, active' i ↔ active i ∨ i = m) :
    m < n' ↔ m < n := by
  have later : n ≤ n' := first.2 (stops_anti (fun i here => (grown i).mpr (Or.inl here)) second.1)
  constructor
  · intro met
    by_contra beyond
    have same : n ∈ stops active' limit := by
      refine ⟨first.1.1, ?_⟩
      intro i near before here
      rcases (grown i).mp here with here | rfl
      · exact first.1.2 i near before here
      · omega
    have earlier : n' ≤ n := second.2 same
    omega
  · intro passed
    omega

/-- A walk on its way: the last `gap` places were idle, and no place to stop at was missed. -/
structure Walking (active : ℕ → Prop) (limit index gap : ℕ) : Prop where
  within : gap ≤ index
  few : gap ≤ limit
  idle : ∀ i, index ≤ i + gap → i < index → ¬ active i
  ahead : ∀ k ∈ stops active limit, index + limit ≤ k + gap

theorem walking_zero : Walking active limit 0 0 where
  within := le_rfl
  few := Nat.zero_le _
  idle i _ before := absurd before (Nat.not_lt_zero i)
  ahead k stop := by
    have far : limit ≤ k := stop.1
    omega

theorem Walking.idle_step (walking : Walking active limit index gap) (more : gap < limit)
    (quiet : ¬ active index) : Walking active limit (index + 1) (gap + 1) where
  within := Nat.succ_le_succ walking.within
  few := more
  idle := by
    intro i near before
    rcases Nat.lt_succ_iff_lt_or_eq.mp before with earlier | rfl
    · exact walking.idle i (by omega) earlier
    · exact quiet
  ahead k stop := by
    have ahead := walking.ahead k stop
    omega

theorem Walking.active_step (walking : Walking active limit index gap) (more : gap < limit)
    (here : active index) : Walking active limit (index + 1) 0 where
  within := Nat.zero_le _
  few := Nat.zero_le _
  idle i near before := by omega
  ahead k stop := by
    have ahead := walking.ahead k stop
    have far : limit ≤ k := stop.1
    by_contra close
    exact stop.2 index (by omega) (by omega) here

theorem Walking.isLeast (walking : Walking active limit index gap) (done : ¬ gap < limit) :
    IsLeast (stops active limit) index := by
  have full : gap = limit := by
    have few := walking.few
    omega
  subst full
  refine ⟨⟨walking.within, walking.idle⟩, ?_⟩
  intro k stop
  have ahead := walking.ahead k stop
  omega

end Lyrion.Library.GapScan
