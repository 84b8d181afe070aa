/- GID: Lyrion/Utils
   digest: Consensus constants, checked words, compact targets, the subsidy, and supply scans. -/

import Lyrion.Data

set_option autoImplicit false
set_option relaxedAutoImplicit false

namespace Lyrion.Utils

open Library.ByteCodec Library.KeyValue Data

def maxBlockSize : Nat := 4000000
def coinbaseMaturity : Nat := 100
def halvingInterval : Nat := 2100000
def difficultyAdjustInterval : Nat := 2016
def targetBlockTime : Nat := 60
def expectedTime : Nat := targetBlockTime * difficultyAdjustInterval
def pruneDepth : Nat := 10080
def reorgMaxDepth : Nat := 2016
def orphanTtl : Nat := 3600 * 1000000000
def minFeePerByte : UInt64 := 10
def maxMsgDecompressed : Nat := 16 * 1024 * 1024
def maxPackageDepth : Nat := 50
def maxCompressedSize : Nat := maxMsgDecompressed / 4
def maxPackageSize : Nat := 1000000
def maxRingSize : Nat := 20
def genesisTimestamp : UInt32 := 1732060800
def initialSubsidy : UInt64 := 10000000000
def tailSubsidy : UInt64 := 500000000
def maxSubsidyHalvings : Nat := 64
def anonFeeMultiplierNumerator : Nat := 3
def anonFeeMultiplierDenominator : Nat := 2
def twoPow256 : Nat := 2 ^ 256

def checkedAdd (a b : UInt64) : Option UInt64 :=
  if a.toNat + b.toNat < 2 ^ 64 then some (a + b) else none

def checkedSub (a b : UInt64) : Option UInt64 :=
  if b.toNat ≤ a.toNat then some (a - b) else none

def saturatingSub (a b : UInt64) : UInt64 := if b.toNat ≤ a.toNat then a - b else 0

def checkedSum (values : List UInt64) : Option UInt64 := values.foldlM checkedAdd 0

/-- Subtraction on `usize`, which wraps in a release build. -/
def usizeSub (a b : Nat) : Nat := if b ≤ a then a - b else a + 2 ^ 64 - b

theorem checkedAdd_eq_some {a b c : UInt64} :
    checkedAdd a b = some c ↔ a.toNat + b.toNat = c.toNat := by
  unfold checkedAdd
  constructor
  · intro h
    split at h
    · rename_i small
      obtain rfl := Option.some.inj h
      rw [UInt64.toNat_add, Nat.mod_eq_of_lt small]
    · exact absurd h (by simp)
  · intro h
    have small : a.toNat + b.toNat < 2 ^ 64 := h ▸ c.toNat_lt
    rw [if_pos small, Option.some.injEq]
    apply UInt64.toNat_inj.mp
    rw [UInt64.toNat_add, Nat.mod_eq_of_lt small, h]

theorem checkedSub_eq_some {a b c : UInt64} :
    checkedSub a b = some c ↔ a.toNat = c.toNat + b.toNat := by
  unfold checkedSub
  constructor
  · intro h
    split at h
    · rename_i enough
      obtain rfl := Option.some.inj h
      rw [UInt64.toNat_sub_of_le _ _ (UInt64.le_iff_toNat_le.mpr enough)]
      omega
    · exact absurd h (by simp)
  · intro h
    have enough : b.toNat ≤ a.toNat := by omega
    rw [if_pos enough, Option.some.injEq]
    apply UInt64.toNat_inj.mp
    rw [UInt64.toNat_sub_of_le _ _ (UInt64.le_iff_toNat_le.mpr enough)]
    omega

theorem checkedAdd_eq_none {a b : UInt64} :
    checkedAdd a b = none ↔ 2 ^ 64 ≤ a.toNat + b.toNat := by
  simp [checkedAdd]

theorem checkedSub_eq_none {a b : UInt64} : checkedSub a b = none ↔ a.toNat < b.toNat := by
  simp [checkedSub]

private theorem foldlM_checkedAdd (values : List UInt64) (start result : UInt64) :
    values.foldlM checkedAdd start = some result ↔
      start.toNat + (values.map UInt64.toNat).sum = result.toNat := by
  induction values generalizing start with
  | nil => simp [UInt64.toNat_inj]
  | cons v values ih =>
      simp only [List.foldlM_cons, List.map_cons, List.sum_cons]
      cases added : checkedAdd start v with
      | none =>
          have large : ¬ start.toNat + v.toNat < 2 ^ 64 := by
            intro small
            rw [checkedAdd, if_pos small] at added
            exact absurd added (by simp)
          have bound := result.toNat_lt
          simp only [Option.bind_eq_bind, Option.bind_none, reduceCtorEq, false_iff]
          omega
      | some mid =>
          have sum := checkedAdd_eq_some.mp added
          simp only [Option.bind_eq_bind, Option.bind_some, ih]
          omega

theorem checkedSum_eq_some {values : List UInt64} {result : UInt64} :
    checkedSum values = some result ↔ (values.map UInt64.toNat).sum = result.toNat := by
  simp [checkedSum, foldlM_checkedAdd]

theorem checkedSum_eq_none {values : List UInt64} :
    checkedSum values = none ↔ 2 ^ 64 ≤ (values.map UInt64.toNat).sum := by
  rw [Option.eq_none_iff_forall_ne_some]
  simp only [ne_eq, checkedSum_eq_some]
  constructor
  · intro beyond
    by_contra small
    exact beyond (UInt64.ofNat (values.map UInt64.toNat).sum)
      (UInt64.toNat_ofNat_of_lt' (Nat.not_le.mp small)).symm
  · intro large result same
    have bound := result.toNat_lt
    omega

def subsidy (height : Nat) : UInt64 :=
  let halvings := height / halvingInterval
  if halvings ≥ maxSubsidyHalvings then tailSubsidy
  else initialSubsidy >>> UInt64.ofNat halvings

def compactToTarget (bits : UInt32) : Result Nat :=
  if bits = 0 then .ok 0
  else
    let exp := bits.toNat >>> 24
    if exp > 80 then fail (.invalidBlock "target exponent too large")
    else
      let mant := bits.toNat &&& 0x007fffff
      let mant := if bits.toNat &&& 0x00800000 ≠ 0 then mant + 2 ^ 23 else mant
      if exp > 3 then .ok (mant <<< (8 * (exp - 3)))
      else if exp < 3 then .ok (mant >>> (8 * (3 - exp)))
      else .ok mant

def targetToCompact (target : Nat) : UInt32 :=
  if target = 0 then 0x1d00ffff
  else
    let size := (target.size + 7) / 8
    if size > 80 then 0x1d00ffff
    else
      let compact : UInt32 :=
        if size ≤ 3 then
          UInt32.ofNat (min (target % 2 ^ 32) 0x007fffff) <<< UInt32.ofNat (8 * (3 - size))
        else UInt32.ofNat (min ((target >>> (8 * (size - 3))) % 2 ^ 32) 0x007fffff)
      if compact &&& 0x00800000 ≠ 0 then (compact >>> 8) ||| (UInt32.ofNat (size + 1) <<< 24)
      else compact ||| (UInt32.ofNat size <<< 24)

def blockWork (target : Nat) : Nat := twoPow256 / (target + 1)

/-- The next partial sum of a supply scan, `none` after any error. -/
def supplyStep (acc : Option UInt64) (value : Bytes) : Option UInt64 :=
  acc.bind fun sum => (txOutputCodec.read value).bind fun out => checkedAdd sum out.value

private theorem checkedAdd_right_comm (s a b : UInt64) :
    (checkedAdd s a).bind (fun t => checkedAdd t b) =
      (checkedAdd s b).bind (fun t => checkedAdd t a) := by
  apply Option.ext
  intro c
  simp only [Option.bind_eq_some_iff, checkedAdd_eq_some]
  constructor
  · rintro ⟨mid, first, second⟩
    have bound := c.toNat_lt
    refine ⟨s + b, ?_, ?_⟩ <;> rw [UInt64.toNat_add, Nat.mod_eq_of_lt (by omega)]
    omega
  · rintro ⟨mid, first, second⟩
    have bound := c.toNat_lt
    refine ⟨s + a, ?_, ?_⟩ <;> rw [UInt64.toNat_add, Nat.mod_eq_of_lt (by omega)]
    omega

private theorem supplyStep_right_comm (acc : Option UInt64) (u v : Bytes) :
    supplyStep (supplyStep acc u) v = supplyStep (supplyStep acc v) u := by
  cases acc with
  | none => rfl
  | some sum =>
      cases hu : txOutputCodec.read u with
      | none => cases hv : txOutputCodec.read v <;> simp [supplyStep, hu, hv]
      | some ou =>
          cases hv : txOutputCodec.read v with
          | none => simp [supplyStep, hu, hv]
          | some ov =>
              simpa [supplyStep, hu, hv] using checkedAdd_right_comm sum ou.value ov.value

/-- The value sum of a column family. The scan order cannot matter: an unreadable entry or
an overflow is met in every order. -/
def computeCfSupply (cf : Map Bytes Bytes) : Option UInt64 :=
  cf.foldl (fun acc _ value => supplyStep acc value)
    (fun acc _ u _ v => supplyStep_right_comm acc u v) (some 0)

def coinValue (value : Bytes) : Nat :=
  ((txOutputCodec.read value).map fun o => o.value.toNat).getD 0

private theorem foldl_supplyStep_none (values : List Bytes) :
    values.foldl supplyStep none = none := by
  induction values with
  | nil => rfl
  | cons v values ih => exact ih

private theorem foldl_supplyStep (values : List Bytes) (start result : UInt64) :
    values.foldl supplyStep (some start) = some result ↔
      (∀ v ∈ values, (txOutputCodec.read v).isSome) ∧
        start.toNat + (values.map coinValue).sum = result.toNat := by
  induction values generalizing start with
  | nil => simp [UInt64.toNat_inj]
  | cons v values ih =>
      rw [List.foldl_cons, List.forall_mem_cons, List.map_cons, List.sum_cons]
      cases found : txOutputCodec.read v with
      | none => simp [supplyStep, found, foldl_supplyStep_none]
      | some out =>
          have worth : coinValue v = out.value.toNat := by simp [coinValue, found]
          simp only [supplyStep, found, Option.bind_some, Option.isSome_some, true_and, worth]
          cases added : checkedAdd start out.value with
          | none =>
              have large : ¬ start.toNat + out.value.toNat < 2 ^ 64 := by
                intro small
                rw [checkedAdd, if_pos small] at added
                exact absurd added (by simp)
              have bound := result.toNat_lt
              simp only [foldl_supplyStep_none, reduceCtorEq, false_iff, not_and]
              intro _
              omega
          | some mid =>
              have sum := checkedAdd_eq_some.mp added
              rw [ih mid, ← sum, Nat.add_assoc]

theorem computeCfSupply_eq_some {cf : Map Bytes Bytes} {supply : UInt64} :
    computeCfSupply cf = some supply ↔
      (∀ e ∈ cf.entries, (txOutputCodec.read e.2).isSome) ∧ total coinValue cf = supply.toNat := by
  obtain ⟨l, entries⟩ := Quotient.exists_rep cf.entries
  have scan : computeCfSupply cf = (l.map Sigma.snd).foldl supplyStep (some 0) := by
    simp only [computeCfSupply, Finmap.foldl, List.foldl_map]
    simp only [← entries]
    rfl
  rw [scan, foldl_supplyStep, List.forall_mem_map, total, ← entries]
  simp [Function.comp_def]

end Lyrion.Utils
