/- GID: Lyrion/Utils/Subsidy
   digest: The block subsidy from height to height, and what it adds up to. -/

import Lyrion.Utils

set_option autoImplicit false
set_option relaxedAutoImplicit false

namespace Lyrion.Utils

def epochSubsidy (halvings : Nat) : Nat :=
  if maxSubsidyHalvings ≤ halvings then tailSubsidy.toNat else initialSubsidy.toNat / 2 ^ halvings

private theorem toNat_subsidy (height : Nat) :
    (subsidy height).toNat = epochSubsidy (height / halvingInterval) := by
  by_cases late : maxSubsidyHalvings ≤ height / halvingInterval
  · simp only [subsidy, epochSubsidy, ge_iff_le, if_pos late]
  · have small : height / halvingInterval < 64 := Nat.not_le.mp late
    have shift : (UInt64.ofNat (height / halvingInterval)).toNat % 64 =
        height / halvingInterval := by
      rw [UInt64.toNat_ofNat', Nat.mod_eq_of_lt (small.trans (by decide)), Nat.mod_eq_of_lt small]
    simp only [subsidy, epochSubsidy, ge_iff_le, if_neg late]
    rw [UInt64.toNat_shiftRight, shift, Nat.shiftRight_eq_div_pow]

/-- The epochs whose subsidy is less than the tail: from the fifth halving on, until the tail
begins. -/
def InTrough (height : Nat) : Prop :=
  5 ≤ height / halvingInterval ∧ height / halvingInterval < maxSubsidyHalvings

instance decidableInTrough (height : Nat) : Decidable (InTrough height) :=
  inferInstanceAs (Decidable (_ ∧ _))

private theorem tail_le_epochSubsidy_iff {halvings : Nat} :
    tailSubsidy.toNat ≤ epochSubsidy halvings ↔
      ¬ (5 ≤ halvings ∧ halvings < maxSubsidyHalvings) := by
  unfold epochSubsidy
  split
  · rename_i late
    simp [late]
  · rename_i early
    rw [Nat.le_div_iff_mul_le (by positivity)]
    constructor
    · rintro enough ⟨fifth, -⟩
      have doubled : 2 ^ 5 ≤ 2 ^ halvings := Nat.pow_le_pow_right (by omega) fifth
      have initial : initialSubsidy.toNat = 20 * tailSubsidy.toNat := by decide
      have tail : 0 < tailSubsidy.toNat := by decide
      nlinarith
    · intro outside
      have few : halvings ≤ 4 := by omega
      have doubled : 2 ^ halvings ≤ 2 ^ 4 := Nat.pow_le_pow_right (by omega) few
      calc tailSubsidy.toNat * 2 ^ halvings ≤ tailSubsidy.toNat * 2 ^ 4 :=
            Nat.mul_le_mul_left _ doubled
        _ ≤ initialSubsidy.toNat := by decide

private theorem epochSubsidy_antitone {a b : Nat} (ordered : a ≤ b)
    (early : b < maxSubsidyHalvings) :
    epochSubsidy b ≤ epochSubsidy a := by
  rw [epochSubsidy, epochSubsidy, if_neg (by omega), if_neg (by omega)]
  apply Nat.div_le_div_left
  · exact Nat.pow_le_pow_right (by omega) ordered
  · positivity

private theorem epochSubsidy_tail {halvings : Nat} (late : maxSubsidyHalvings ≤ halvings) :
    epochSubsidy halvings = tailSubsidy.toNat := if_pos late

/-- The subsidy does not rise between two heights and does not fall below the tail exactly if
neither height lies in the trough: the later one would pay less than the tail, the earlier one less
than what the later one has to pay. -/
theorem subsidy_schedule_iff {h₁ h₂ : Nat} (ordered : h₁ ≤ h₂) :
    (tailSubsidy ≤ subsidy h₂ ∧ subsidy h₂ ≤ subsidy h₁) ↔ ¬ InTrough h₁ ∧ ¬ InTrough h₂ := by
  have epochs : h₁ / halvingInterval ≤ h₂ / halvingInterval := Nat.div_le_div_right ordered
  rw [UInt64.le_iff_toNat_le, UInt64.le_iff_toNat_le, toNat_subsidy, toNat_subsidy]
  constructor
  · rintro ⟨above, falling⟩
    exact ⟨tail_le_epochSubsidy_iff.mp (above.trans falling), tail_le_epochSubsidy_iff.mp above⟩
  · rintro ⟨first, second⟩
    refine ⟨tail_le_epochSubsidy_iff.mpr second, ?_⟩
    rcases Nat.lt_or_ge (h₂ / halvingInterval) maxSubsidyHalvings with early | late
    · exact epochSubsidy_antitone epochs early
    · rw [epochSubsidy_tail late]
      exact tail_le_epochSubsidy_iff.mpr first

theorem subsidy_before_trough :
    tailSubsidy ≤ subsidy 10499999 ∧ subsidy 10499999 ≤ subsidy 0 :=
  (subsidy_schedule_iff (by decide)).mpr (by decide)

/-- The fifth halving goes below the tail, and the tail is an increase: after 34 halvings nothing
is left, and 30 epochs later the tail begins. -/
theorem subsidy_falls_below_tail :
    subsidy 10500000 < tailSubsidy ∧ subsidy 71400000 = 0 ∧
      subsidy 134399999 < subsidy 134400000 := by
  decide

section Totals

def tailHeight : Nat := maxSubsidyHalvings * halvingInterval

private theorem toNat_subsidy_le (height : Nat) :
    (subsidy height).toNat ≤
      if height < tailHeight then initialSubsidy.toNat else tailSubsidy.toNat := by
  rw [toNat_subsidy]
  split
  · rename_i early
    have halvings : height / halvingInterval < maxSubsidyHalvings :=
      Nat.div_lt_of_lt_mul (by rwa [Nat.mul_comm])
    rw [epochSubsidy, if_neg (by omega)]
    exact Nat.div_le_self _ _
  · rename_i late
    have halvings : maxSubsidyHalvings ≤ height / halvingInterval :=
      (Nat.le_div_iff_mul_le (by decide)).mpr (by unfold tailHeight at late; omega)
    rw [epochSubsidy_tail halvings]

theorem sum_subsidy_le (count : Nat) :
    ((List.range count).map fun height => (subsidy height).toNat).sum ≤
      min count tailHeight * initialSubsidy.toNat + (count - tailHeight) * tailSubsidy.toNat := by
  -- By induction on the number of heights, with those before the tail at the initial subsidy.
  induction count with
  | zero => simp
  | succ count ih =>
      rw [List.range_succ, List.map_append, List.sum_append]
      have next := toNat_subsidy_le count
      simp only [List.map_cons, List.map_nil, List.sum_cons, List.sum_nil, Nat.add_zero]
      split at next
      · rename_i early
        rw [Nat.min_eq_left early.le, Nat.sub_eq_zero_of_le early.le] at ih
        rw [Nat.min_eq_left (by omega), Nat.sub_eq_zero_of_le (by omega), Nat.succ_mul]
        omega
      · rename_i late
        rw [Nat.min_eq_right (by omega)] at ih
        rw [Nat.min_eq_right (by omega), Nat.succ_sub (by omega), Nat.succ_mul]
        omega

end Totals

end Lyrion.Utils
