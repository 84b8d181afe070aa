/- GID: Lyrion/Node/Audit
   digest: The supply audits against the emission schedule, for every height that can be stored. -/

import Lyrion.Node.Load
import Lyrion.Utils.Subsidy

set_option autoImplicit false
set_option relaxedAutoImplicit false

namespace Lyrion.Node

open Data Utils

/-- `validate_state_full`: the same scans and the same loop as in `validate_supply_full`, with
another error at the end. -/
def validateStateFull (c : Chain) : Result Unit := do
  let utxoSupply ← scanSupply (c.db .utxo)
  let anonSupply ← scanSupply (c.db .anonymous)
  let fullSupply := utxoSupply + anonSupply
  let totalSupply ← orFail .valueOverflow
    (checkedSum ((List.range (c.bestHeight + 1)).map subsidy))
  if fullSupply ≠ totalSupply then fail (.invalidBlock "Supply mismatch")
  pure ()

/-- An audit without a loop of its own: the two scans against a given amount. -/
def auditAgainst (c : Chain) (expected : Nat) (mismatch : ChainError) : Result Unit := do
  let utxoSupply ← scanSupply (c.db .utxo)
  let anonSupply ← scanSupply (c.db .anonymous)
  if (utxoSupply + anonSupply).toNat ≠ expected then fail mismatch
  pure ()

private theorem calculatedSupply_lt {bestHeight : Nat} (fits : bestHeight < 2 ^ 32) :
    calculatedSupply bestHeight < 2 ^ 64 := by
  -- The heights before the tail are counted at the initial subsidy, all others at the tail.
  have early : min (bestHeight + 1) tailHeight ≤ tailHeight := Nat.min_le_right _ _
  have late : bestHeight + 1 - tailHeight ≤ 2 ^ 32 := by omega
  calc calculatedSupply bestHeight
      ≤ min (bestHeight + 1) tailHeight * initialSubsidy.toNat +
          (bestHeight + 1 - tailHeight) * tailSubsidy.toNat := sum_subsidy_le (bestHeight + 1)
    _ ≤ tailHeight * initialSubsidy.toNat + 2 ^ 32 * tailSubsidy.toNat :=
        Nat.add_le_add (Nat.mul_le_mul_right _ early) (Nat.mul_le_mul_right _ late)
    _ < 2 ^ 64 := by decide

private theorem checkedSum_schedule {bestHeight : Nat} (fits : bestHeight < 2 ^ 32) :
    checkedSum ((List.range (bestHeight + 1)).map subsidy) =
      some (UInt64.ofNat (calculatedSupply bestHeight)) := by
  rw [checkedSum_eq_some, List.map_map, UInt64.toNat_ofNat',
    Nat.mod_eq_of_lt (calculatedSupply_lt fits)]
  rfl

private theorem ne_schedule_iff {bestHeight : Nat} (fits : bestHeight < 2 ^ 32) (supply : UInt64) :
    supply ≠ UInt64.ofNat (calculatedSupply bestHeight) ↔
      supply.toNat ≠ calculatedSupply bestHeight := by
  rw [← UInt64.toNat_inj.ne, UInt64.toNat_ofNat', Nat.mod_eq_of_lt (calculatedSupply_lt fits)]

/-- For every height that the stored 32 bits can hold the schedule fits into 64 bits. The checked
loops of the two full audits then never fail: the audits compare the scans with the amount that the
loop of `validate_supply_smart` computes. -/
theorem audits_against_schedule (c : Chain) (fits : c.bestHeight < 2 ^ 32) :
    calculatedSupply c.bestHeight < 2 ^ 64 ∧
      checkedSum ((List.range (c.bestHeight + 1)).map subsidy) =
        some (UInt64.ofNat (calculatedSupply c.bestHeight)) ∧
      validateSupplyFull c =
        auditAgainst c (calculatedSupply c.bestHeight) .supplyMismatch ∧
      validateStateFull c =
        auditAgainst c (calculatedSupply c.bestHeight) (.invalidBlock "Supply mismatch") := by
  refine ⟨calculatedSupply_lt fits, checkedSum_schedule fits, ?_, ?_⟩
  · simp only [validateSupplyFull, auditAgainst, checkedSum_schedule fits, orFail, ok_bind,
      ne_schedule_iff fits]
  · simp only [validateStateFull, auditAgainst, checkedSum_schedule fits, orFail, ok_bind,
      ne_schedule_iff fits]

def sampleTop : Chain :=
  ⟨emptyDb, emptyState, zeroHash, 2 ^ 32 - 1, [], zeroHash, false, false, 0, []⟩

theorem largest_height_audited :
    sampleTop.bestHeight = 2 ^ 32 - 1 ∧ calculatedSupply sampleTop.bestHeight < 2 ^ 64 ∧
      validateSupplyFull sampleTop =
        auditAgainst sampleTop (calculatedSupply sampleTop.bestHeight) .supplyMismatch := by
  have audited := audits_against_schedule sampleTop (by decide)
  exact ⟨rfl, audited.1, audited.2.2.1⟩

end Lyrion.Node
