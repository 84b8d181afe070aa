/- GID: Lyrion/Node/Difficulty
   digest: The required bits of every chain stay between zero and the target of genesis. -/

import Lyrion.Utils.Compact
import Lyrion.Node.MedianTime

set_option autoImplicit false
set_option relaxedAutoImplicit false

namespace Lyrion.Node

open Library.KeyValue Data Utils Tx

/-- Bits that decode to a target above zero and at most that of genesis. -/
def InRange (bits : UInt32) : Prop :=
  ∃ target limit, compactToTarget bits = .ok target ∧ compactToTarget 0x1d00ffff = .ok limit ∧
    0 < target ∧ target ≤ limit

private theorem inRange_genesis : InRange 0x1d00ffff :=
  ⟨_, _, rfl, rfl, by decide, le_rfl⟩

private theorem inRange_targetToCompact {target limit : Nat}
    (genesis : compactToTarget 0x1d00ffff = .ok limit) (bounded : target ≤ limit) :
    InRange (targetToCompact target) := by
  rcases Nat.eq_zero_or_pos target with rfl | positive
  · exact inRange_genesis
  · obtain rfl := Except.ok.inj (compactToTarget_genesis.symm.trans genesis)
    have decoded :=
      compactToTarget_targetToCompact positive (bounded.trans_lt (by decide +kernel))
    exact ⟨_, _, decoded, genesis, compactFormat.round_pos positive,
      (compactFormat.round_le target).trans bounded⟩

private theorem retarget_le (oldTarget actualTime limit : Nat) :
    retarget oldTarget actualTime limit ≤ limit :=
  Nat.min_le_right _ _

private theorem inRange_calculateNextBits {db : Db} {height : Nat} {parent : BlockHeader}
    {bits : UInt32} (positive : 0 < height) (last : loadHeader db (height - 1) = .ok parent)
    (before : InRange parent.bits) (required : calculateNextBits db height = .ok bits) :
    InRange bits := by
  have header : headerAt db (usizeSub height 1) = .ok parent := by
    rw [usizeSub_of_le positive, headerAt, last]
  rw [calculateNextBits] at required
  split at required
  case isTrue inside =>
    rw [header] at required
    obtain rfl := Except.ok.inj required
    exact before
  case isFalse period =>
    obtain ⟨start, _, required⟩ := bind_eq_ok.mp required
    obtain ⟨_, found, required⟩ := bind_eq_ok.mp required
    obtain rfl := Except.ok.inj (header.symm.trans found)
    obtain ⟨oldTarget, old, required⟩ := bind_eq_ok.mp required
    obtain ⟨limit, genesis, required⟩ := bind_eq_ok.mp required
    obtain ⟨medianTime, _, required⟩ := bind_eq_ok.mp required
    split at required
    case isTrue early =>
      obtain ⟨target, most, decoded, same, _, bounded⟩ := before
      obtain rfl := Except.ok.inj (old.symm.trans decoded)
      obtain rfl := Except.ok.inj (genesis.symm.trans same)
      obtain rfl := Except.ok.inj required
      exact inRange_targetToCompact genesis bounded
    case isFalse late =>
      obtain rfl := Except.ok.inj required
      exact inRange_targetToCompact genesis (retarget_le ..)

/-- Headers from the bits of genesis, each with the bits that some database with the headers below
it requires. -/
structure RequiredBits (headers : Nat → BlockHeader) (length : Nat) : Prop where
  genesis : (headers 0).bits = 0x1d00ffff
  required : ∀ height, 0 < height → height ≤ length → ∃ db,
    (∀ i < height, loadHeader db i = .ok (headers i)) ∧
      calculateNextBits db height = .ok (headers height).bits

private theorem RequiredBits.inRange {headers : Nat → BlockHeader} {length : Nat}
    (chain : RequiredBits headers length) {height : Nat} (inside : height ≤ length) :
    InRange (headers height).bits := by
  induction height with
  | zero =>
      rw [chain.genesis]
      exact inRange_genesis
  | succ height ih =>
      obtain ⟨db, stored, next⟩ := chain.required (height + 1) (Nat.succ_pos height) inside
      have before := ih (Nat.le_of_succ_le inside)
      have last := stored height (Nat.lt_succ_self height)
      exact inRange_calculateNextBits (Nat.succ_pos height) last before next

private theorem blockWork_of_le {target limit : Nat}
    (genesis : compactToTarget 0x1d00ffff = .ok limit) (bounded : target ≤ limit) : 2 ^ 32 ≤
    blockWork target := by
  obtain rfl := Except.ok.inj (compactToTarget_genesis.symm.trans genesis)
  rw [blockWork, twoPow256, Nat.le_div_iff_mul_le (Nat.succ_pos target)]
  omega

/-- The work of a chain up to a height, as it is recorded block by block. -/
def workUpTo (headers : Nat → BlockHeader) : Nat → Nat
  | 0 => headerWork (headers 0)
  | height + 1 => workUpTo headers height + headerWork (headers (height + 1))

private theorem headerWork_pos {header : BlockHeader} (range : InRange header.bits) :
    0 < headerWork header := by
  obtain ⟨target, limit, decoded, genesis, _, bounded⟩ := range
  have work : headerWork header = blockWork target := by simp [headerWork, decoded]
  have least := blockWork_of_le genesis bounded
  omega

/-- Along every chain of required bits the targets stay in range, every block brings work, and the
work of the chain grows with every block. -/
theorem required_bits_in_range (headers : Nat → BlockHeader) (length : Nat)
    (chain : RequiredBits headers length) :
    (∀ height ≤ length, ∃ target limit, compactToTarget (headers height).bits = .ok target ∧
      compactToTarget 0x1d00ffff = .ok limit ∧ 0 < target ∧ target ≤ limit ∧
      2 ^ 32 ≤ blockWork target) ∧
    ∀ lower height, lower < height → height ≤ length →
      workUpTo headers lower < workUpTo headers height := by
  constructor
  · intro height inside
    obtain ⟨target, limit, decoded, genesis, positive, bounded⟩ := chain.inRange inside
    exact ⟨target, limit, decoded, genesis, positive, bounded, blockWork_of_le genesis bounded⟩
  · intro lower height below inside
    induction height with
    | zero => omega
    | succ height ih =>
        have more := headerWork_pos (chain.inRange inside)
        rw [workUpTo]
        rcases Nat.lt_or_eq_of_le (Nat.le_of_lt_succ below) with deeper | rfl
        · have grown := ih deeper (by omega)
          omega
        · omega

def sampleHurry (height : Nat) : Block :=
  { sampleBlock [] with header := { (sampleBlock []).header with
    timestamp := genesisTimestamp + UInt32.ofNat height
    bits := if height < difficultyAdjustInterval then 0x1d00ffff else 0x1c3fffc0 } }

private theorem sampleHurry_required :
    RequiredBits (fun height => (sampleHurry height).header) difficultyAdjustInterval := by
  refine ⟨rfl, fun height positive inside => ?_⟩
  have bounded : height ≤ 2 ^ 64 := inside.trans (by decide)
  have sized (i : Nat) : (sampleHurry i).size < 2 ^ 64 := by
    simp only [sampleHurry, Block.size_eq]
    decide +kernel
  have stored := chainDb_stored sampleHurry bounded fun i _ => sized i
  refine ⟨chainDb sampleHurry height, stored.headers, ?_⟩
  have header (i : Nat) (below : i < height) :
      headerAt (chainDb sampleHurry height) i = .ok (sampleHurry i).header := by
    rw [headerAt, stored.headers i below]
  have parent : usizeSub height 1 = height - 1 := usizeSub_of_le positive
  rw [calculateNextBits]
  rcases Nat.lt_or_eq_of_le inside with within | rfl
  · have same (i : Nat) (below : i < difficultyAdjustInterval) :
        (sampleHurry i).header.bits = 0x1d00ffff := if_pos below
    rw [Nat.mod_eq_of_lt within, if_pos positive.ne', parent,
      header _ (Nat.sub_lt positive one_pos)]
    change Except.ok (sampleHurry (height - 1)).header.bits = _
    rw [same _ within, same _ (by omega)]
  · rw [if_neg (by decide), usizeSub_of_le le_rfl, parent, header _ (by decide),
      header _ (by decide),
      getMedianTimestamp_of_stored stored (by decide)]
    decide +kernel

theorem first_retarget_in_range :
    RequiredBits (fun height => (sampleHurry height).header) difficultyAdjustInterval ∧
      (sampleHurry difficultyAdjustInterval).header.bits ≠ (sampleHurry 0).header.bits ∧
      workUpTo (fun height => (sampleHurry height).header) 0 <
        workUpTo (fun height => (sampleHurry height).header) difficultyAdjustInterval :=
  ⟨sampleHurry_required, by decide, (required_bits_in_range _ difficultyAdjustInterval
    sampleHurry_required).2 0 difficultyAdjustInterval (by decide) le_rfl⟩

end Lyrion.Node
