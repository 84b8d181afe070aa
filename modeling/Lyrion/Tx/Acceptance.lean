/- GID: Lyrion/Tx/Acceptance
   digest: Exactly which transactions pass validation, and that no rule looks at a script. -/

import Lyrion.Tx

set_option autoImplicit false
set_option relaxedAutoImplicit false

namespace Lyrion.Tx

open Library.ByteCodec Library.KeyValue Data Utils

variable {env : Env}

/-- The coin of one kind that an input refers to, if it is stored and can be read. -/
def storedCoin (db : Db) (isAnonymous : Bool) (vin : TXInput) : Option TXOutput :=
  (get db (coinFamily isAnonymous) (coinKey isAnonymous vin.txid vin.vout)).bind txOutputCodec.read

def spentValue (db : Db) (isAnonymous : Bool) (inputs : List TXInput) : Nat :=
  (inputs.map fun vin => ((storedCoin db isAnonymous vin).map fun o => o.value.toNat).getD 0).sum

def createdValue (outputs : List TXOutput) : Nat := (outputs.map fun o => o.value.toNat).sum

def Mature (db : Db) (height : Nat) (vin : TXInput) : Prop :=
  ∀ bytes, get db .coinbase vin.txid.toList = some bytes →
    bytes.length = 8 ∧ coinbaseMaturity ≤ height - ofBeBytes bytes

/-- The rules that `validate_transaction` applies to a transparent transaction. -/
structure SpendRules (db : Db) (bestHeight height : Nat) (tx : Transaction) : Prop where
  final : lockTimeOpen tx bestHeight = false
  distinct : (tx.inputs.map TXInput.outpoint).Nodup
  mature : ∀ vin ∈ tx.inputs, Mature db height vin
  present : ∀ vin ∈ tx.inputs, (storedCoin db false vin).isSome
  bounded : spentValue db false tx.inputs < 2 ^ 64
  paid : createdValue tx.outputs + tx.size * minFeePerByte.toNat ≤ spentValue db false tx.inputs

private theorem checkInputs_eq_ok (db : Db) (height : Nat) (seen : List Outpoint)
    (inputs : List TXInput) :
    checkInputs db height seen inputs = .ok () ↔
      (inputs.map TXInput.outpoint).Nodup ∧ (∀ vin ∈ inputs, vin.outpoint ∉ seen) ∧
        ∀ vin ∈ inputs, Mature db height vin := by
  induction inputs generalizing seen with
  | nil => simp [checkInputs]
  | cons vin rest ih =>
      have later : (∀ v ∈ rest, v.outpoint ∉ vin.outpoint :: seen) ↔
          vin.outpoint ∉ rest.map TXInput.outpoint ∧ ∀ v ∈ rest, v.outpoint ∉ seen := by
        simp only [List.mem_cons, not_or, List.mem_map, not_exists, not_and]
        exact forall₂_and
      rw [checkInputs, guard_eq_ok, List.map_cons, List.nodup_cons, List.forall_mem_cons,
        List.forall_mem_cons]
      cases found : get db .coinbase vin.txid.toList with
      | none =>
          have mature : Mature db height vin := by simp [Mature, found]
          simp only [ih, later]
          tauto
      | some bytes =>
          have mature : Mature db height vin ↔
              bytes.length = 8 ∧ coinbaseMaturity ≤ height - ofBeBytes bytes := by
            simp [Mature, found]
          simp only [guard_eq_ok, ih, later, mature, not_not, not_lt]
          tauto

theorem gatherUtxos_eq_ok (db : Db) (inputs : List TXInput) (start sum : UInt64)
    (outputs : Map Outpoint TXOutput) :
    (∃ gathered, gatherUtxos db inputs start outputs = .ok (sum, gathered)) ↔
      (∀ vin ∈ inputs, (storedCoin db false vin).isSome) ∧
        start.toNat + spentValue db false inputs = sum.toNat := by
  induction inputs generalizing start outputs with
  | nil => simp [gatherUtxos, spentValue, UInt64.toNat_inj]
  | cons vin rest ih =>
      have split : spentValue db false (vin :: rest) =
          ((storedCoin db false vin).map fun o => o.value.toNat).getD 0 +
            spentValue db false rest := rfl
      rw [List.forall_mem_cons, split]
      unfold storedCoin coinFamily
      simp only [gatherUtxos, bind_eq_ok, orFail_eq_ok, Bool.false_eq_true, if_false]
      constructor
      · rintro ⟨gathered, value, found, out, readable, mid, added, tail⟩
        obtain ⟨present, sums⟩ := (ih mid (outputs.insert vin.outpoint out)).mp ⟨gathered, tail⟩
        have first := checkedAdd_eq_some.mp added
        refine ⟨⟨by simp [found, readable], present⟩, ?_⟩
        simp only [found, readable, Option.bind_some, Option.map_some, Option.getD_some]
        omega
      · rintro ⟨⟨here, present⟩, sums⟩
        obtain ⟨out, both⟩ := Option.isSome_iff_exists.mp here
        obtain ⟨value, found, readable⟩ := Option.bind_eq_some_iff.mp both
        simp only [found, readable, Option.bind_some, Option.map_some, Option.getD_some] at sums
        have bound := sum.toNat_lt
        have first : start.toNat + out.value.toNat = (start + out.value).toNat := by
          rw [UInt64.toNat_add, Nat.mod_eq_of_lt (by omega)]
        obtain ⟨gathered, tail⟩ := (ih (start + out.value) (outputs.insert vin.outpoint out)).mpr
          ⟨present, by omega⟩
        exact ⟨gathered, value, found, out, readable, _, checkedAdd_eq_some.mpr first, tail⟩

private theorem sizeFee_eq_some {size : Nat} {fee : UInt64} :
    sizeFee size = some fee ↔ size * minFeePerByte.toNat = fee.toNat := by
  unfold sizeFee
  constructor
  · intro h
    split at h
    · rename_i small
      obtain rfl := Option.some.inj h
      exact (UInt64.toNat_ofNat_of_lt' small).symm
    · exact absurd h (by simp)
  · intro h
    rw [if_pos (h ▸ fee.toNat_lt), h, UInt64.ofNat_toNat]

theorem createdValue_eq_checkedSum {outputs : List TXOutput} {sum : UInt64} :
    checkedSum (outputs.map TXOutput.value) = some sum ↔ createdValue outputs = sum.toNat := by
  rw [checkedSum_eq_some, List.map_map]
  rfl

theorem checkPayment_eq_ok (tx : Transaction) (inputSum : UInt64)
    (transparent : tx.isAnonymous = false) :
    checkPayment tx inputSum = .ok () ↔
      createdValue tx.outputs + tx.size * minFeePerByte.toNat ≤ inputSum.toNat := by
  simp only [checkPayment, requiredFee, transparent, Bool.false_eq_true, if_false, fail_bind,
    bind_eq_ok, orFail_eq_ok, guard_eq_ok, createdValue_eq_checkedSum, sizeFee_eq_some,
    checkedSub_eq_some, pure_eq_ok, and_true, not_lt]
  constructor
  · rintro ⟨outputSum, created, covered, fee, left, required, owed, enough⟩
    omega
  · intro paid
    have bound := inputSum.toNat_lt
    have word (n : Nat) (small : n < 2 ^ 64) : n = (UInt64.ofNat n).toNat :=
      (UInt64.toNat_ofNat_of_lt' small).symm
    have created := word (createdValue tx.outputs) (by omega)
    have left := word (inputSum.toNat - createdValue tx.outputs) (by omega)
    have owed := word (tx.size * minFeePerByte.toNat) (by omega)
    refine ⟨_, created, by omega, UInt64.ofNat (inputSum.toNat - createdValue tx.outputs), ?_, _,
      owed, ?_⟩ <;> omega

theorem size_pos (tx : Transaction) : 0 < tx.size :=
  List.length_pos_of_ne_nil (transactionCodec.encode_ne_nil tx)

theorem validateTransaction_transparent (db : Db) (bestHeight height : Nat) (tx : Transaction)
    (ordinary : isCoinbase tx = false) (transparent : tx.isAnonymous = false) :
    validateTransaction env db bestHeight tx height = .ok () ↔
      SpendRules db bestHeight height tx := by
  have start : (0 : UInt64).toNat = 0 := rfl
  simp only [validateTransaction, ordinary, Bool.false_eq_true, if_false, guard_eq_ok,
    bind_eq_ok, exists_done, inputSumOf, transparent, pure_eq_ok, Bool.not_eq_true,
    checkInputs_eq_ok, checkPayment_eq_ok tx _ transparent]
  constructor
  · rintro ⟨final, ⟨distinct, -, mature⟩, sum, ⟨⟨sum', gathered⟩, found, rfl⟩, paid⟩
    obtain ⟨present, total⟩ := (gatherUtxos_eq_ok db tx.inputs 0 sum' ∅).mp ⟨gathered, found⟩
    rw [start, Nat.zero_add] at total
    exact ⟨final, distinct, mature, present, total ▸ sum'.toNat_lt, total ▸ paid⟩
  · rintro ⟨final, distinct, mature, present, bounded, paid⟩
    have word : (UInt64.ofNat (spentValue db false tx.inputs)).toNat =
        spentValue db false tx.inputs := UInt64.toNat_ofNat_of_lt' bounded
    obtain ⟨gathered, found⟩ := (gatherUtxos_eq_ok db tx.inputs 0
      (UInt64.ofNat (spentValue db false tx.inputs)) ∅).mpr
        ⟨present, by rw [start, Nat.zero_add, word]⟩
    exact ⟨final, ⟨distinct, by simp, mature⟩, _, ⟨_, found, rfl⟩, by rwa [word]⟩

private theorem anonymous_fee_ne_zero {size : Nat} (positive : 0 < size) (sized : size < 2 ^ 64) :
    15 * size % 2 ^ 64 ≠ 0 := by
  intro divides
  have coprime : Nat.Coprime (2 ^ 64) 15 := Nat.Coprime.pow_left 64 (by decide)
  have divides := coprime.dvd_of_dvd_mul_left (Nat.dvd_of_mod_eq_zero divides)
  exact absurd (Nat.le_of_dvd positive divides) (Nat.not_le.mpr sized)

theorem validateTransaction_anonymous (db : Db) (bestHeight height : Nat) (tx : Transaction)
    (ordinary : isCoinbase tx = false) (anonymous : tx.isAnonymous = true)
    (sized : tx.size < 2 ^ 64) :
    validateTransaction env db bestHeight tx height ≠ .ok () := by
  -- The input sum of an anonymous transaction is left at 0, and a fee is due.
  intro accepted
  simp only [validateTransaction, ordinary, Bool.false_eq_true, if_false, guard_eq_ok,
    bind_eq_ok, exists_done, inputSumOf, anonymous, if_true, pure_eq_ok] at accepted
  obtain ⟨-, -, sum, ⟨-, -, -, empty⟩, paid⟩ := accepted
  simp only [checkPayment, requiredFee, anonymous, if_true, fail_bind, bind_eq_ok, orFail_eq_ok,
    guard_eq_ok, checkedSub_eq_some, pure_eq_ok, and_true, not_lt, Except.ok.injEq] at paid
  obtain ⟨outputSum, -, -, fee, left, required, due, enough⟩ := paid
  have owed : (tx.size * minFeePerByte.toNat * anonFeeMultiplierNumerator +
      (anonFeeMultiplierDenominator - 1)) / anonFeeMultiplierDenominator = 15 * tx.size := by
    have perByte : minFeePerByte.toNat = 10 := rfl
    simp only [anonFeeMultiplierNumerator, anonFeeMultiplierDenominator, perByte]
    omega
  have charged : required.toNat = 15 * tx.size % 2 ^ 64 := by
    rw [← due, owed, UInt64.toNat_ofNat']
  have nothing : fee.toNat = 0 := by
    rw [← empty] at left
    exact (Nat.add_eq_zero_iff.mp (left.symm.trans rfl)).1
  rw [nothing, charged, Nat.le_zero] at enough
  exact anonymous_fee_ne_zero (size_pos tx) sized enough

theorem validateTransaction_shape {db : Db} {bestHeight height : Nat} {tx : Transaction}
    (ordinary : isCoinbase tx = false) (sized : tx.size < 2 ^ 64)
    (valid : validateTransaction env db bestHeight tx height = .ok ()) :
    tx.isAnonymous = false ∧ SpendRules db bestHeight height tx := by
  have transparent : tx.isAnonymous = false := by
    by_contra anonymous
    exact validateTransaction_anonymous db bestHeight height tx ordinary (by simpa using anonymous)
      sized valid
  exact ⟨transparent, (validateTransaction_transparent db bestHeight height tx ordinary
    transparent).mp valid⟩

end Lyrion.Tx
