/- GID: Lyrion/Wallet/Fees
   digest: The fee a wallet transaction pays against the fee that its validation asks for. -/

import Lyrion.Wallet.Signing

set_option autoImplicit false
set_option relaxedAutoImplicit false

namespace Lyrion.Wallet

open Library.ByteCodec Data Utils Tx Node

variable {fee second third : UInt64}

section Estimates

variable {feeRate spare : UInt64} {inputs : Nat}

theorem close_iff {newFee : UInt64} (order : fee.toNat ≤ newFee.toNat)
    (small : newFee.toNat < fee.toNat + 2 ^ 63) :
    close newFee fee = true ↔ newFee.toNat < fee.toNat + 20 := by
  have difference : (newFee - fee).toNat = newFee.toNat - fee.toNat :=
    UInt64.toNat_sub_of_le _ _ (UInt64.le_iff_toNat_le.mpr order)
  have positive : (newFee - fee).toBitVec.msb = false := by
    rw [BitVec.msb_eq_false_iff_two_mul_lt, UInt64.toNat_toBitVec, difference]
    omega
  have same : (newFee - fee).toInt64.abs.toInt = (newFee - fee).toNat := by
    change (newFee - fee).toBitVec.abs.toInt = _
    rw [BitVec.abs_eq, positive, if_neg Bool.false_ne_true, BitVec.toInt_eq_toNat_of_msb positive]
    rfl
  rw [close, ← UInt64.toInt64_sub, decide_eq_true_eq, Int64.lt_iff_toInt_lt, same, difference]
  change ((newFee.toNat - fee.toNat : Nat) : Int) < 20 ↔ _
  omega

theorem close_eq_false {newFee : UInt64} (gap : fee.toNat + 20 ≤ newFee.toNat)
    (small : newFee.toNat < fee.toNat + 2 ^ 63) : close newFee fee = false := by
  rw [← Bool.not_eq_true, close_iff (by omega) small]
  omega

private theorem toNat_size_mul {size : Nat} (fits : size * feeRate.toNat < 2 ^ 64) :
    (UInt64.ofNat size * feeRate).toNat = size * feeRate.toNat := by
  rcases Nat.eq_zero_or_pos feeRate.toNat with zero | positive
  · rw [UInt64.toNat_mul, zero, Nat.mul_zero, Nat.mul_zero, Nat.zero_mod]
  · have short : size < 2 ^ 64 := (Nat.le_mul_of_pos_right size positive).trans_lt fits
    rw [UInt64.toNat_mul, UInt64.toNat_ofNat_of_lt' short, Nat.mod_eq_of_lt fits]

theorem outputsCount_mem (spare fee : UInt64) : outputsCount spare fee ∈ Set.Icc 1 2 := by
  rw [outputsCount]
  split
  · decide
  · decide

theorem toNat_estimate {outputs : Nat} (few : outputs ≤ 2)
    (fits : (110 * inputs + 94) * feeRate.toNat < 2 ^ 64) :
    (estimate feeRate inputs outputs).toNat =
      (110 * inputs + 26 + 34 * outputs) * feeRate.toNat := by
  have size : overhead + inputs * dummySigSize + outputs * 34 + inputs * 4 =
      110 * inputs + 26 + 34 * outputs := by
    simp only [overhead, dummySigSize]
    omega
  rw [estimate, size]
  exact toNat_size_mul ((Nat.mul_le_mul_right _ (by omega)).trans_lt fits)

theorem toNat_firstFee (fits : (110 * inputs + 94) * feeRate.toNat < 2 ^ 64) :
    (firstFee feeRate inputs).toNat = (106 * inputs + 60) * feeRate.toNat := by
  have size : inputs * dummySigSize + overhead + 34 = 106 * inputs + 60 := by
    simp only [overhead, dummySigSize]
    omega
  rw [firstFee, size]
  exact toNat_size_mul ((Nat.mul_le_mul_right _ (by omega)).trans_lt fits)

section Rounds

private theorem int64_abs_neg (x : Int64) : (-x).abs = x.abs := by
  have words : (-x.toBitVec).abs = x.toBitVec.abs := by
    rw [BitVec.abs_eq, BitVec.abs_eq, BitVec.msb_neg, BitVec.neg_neg]
    by_cases zero : x.toBitVec = 0#64
    · simp [zero]
    · by_cases least : x.toBitVec = BitVec.intMin 64
      · simp [least]
      · cases x.toBitVec.msb <;> simp [zero, least]
  exact congrArg Int64.ofBitVec words

private theorem close_comm (fee fee' : UInt64) : close fee fee' = close fee' fee := by
  have same : (fee.toInt64 - fee'.toInt64).abs = (fee'.toInt64 - fee.toInt64).abs := by
    rw [← Int64.neg_sub, int64_abs_neg]
  rw [close, close, same]

private theorem close_self (fee : UInt64) : close fee fee = true := by
  have same : fee.toInt64 - fee.toInt64 = 0 := by simp
  rw [close, same]
  decide

variable (feeRate spare inputs)

def nextFee (fee : UInt64) : UInt64 := estimate feeRate inputs (outputsCount spare fee)

def agreedFee : UInt64 :=
  let first := firstFee feeRate inputs
  let second := nextFee feeRate spare inputs first
  let third := nextFee feeRate spare inputs second
  if close second first then first else if close third second then second else third

private theorem feeLoop_succ (rounds : Nat) (fee : UInt64) :
    feeLoop feeRate spare inputs (rounds + 1) fee =
      if close (nextFee feeRate spare inputs fee) fee then fee
      else feeLoop feeRate spare inputs rounds (nextFee feeRate spare inputs fee) :=
  rfl

private theorem nextFee_cases (step : nextFee feeRate spare inputs fee = second)
    (step' : nextFee feeRate spare inputs second = third) :
    nextFee feeRate spare inputs third = second ∨ nextFee feeRate spare inputs third = third := by
  have two (fee : UInt64) : nextFee feeRate spare inputs fee = estimate feeRate inputs 1 ∨
      nextFee feeRate spare inputs fee = estimate feeRate inputs 2 := by
    rw [nextFee, outputsCount]
    split
    · exact Or.inr rfl
    · exact Or.inl rfl
  by_cases same : third = second
  · exact Or.inr (by rw [same, step', same])
  · rcases two fee with first | first <;> rcases two second with next | next <;>
      rcases two third with last | last <;> rw [last] <;> simp_all

private theorem feeLoop_even (rounds : Nat) (step : nextFee feeRate spare inputs fee = second)
    (step' : nextFee feeRate spare inputs second = third) (apart : close third second = false) :
    feeLoop feeRate spare inputs (2 * rounds) third = third := by
  induction rounds with
  | zero => rfl
  | succ rounds ih =>
      rw [Nat.mul_succ, feeLoop_succ]
      rcases nextFee_cases feeRate spare inputs step step' with back | stays
      · rw [back, close_comm, apart, if_neg Bool.false_ne_true, feeLoop_succ, step', apart,
          if_neg Bool.false_ne_true, ih]
      · rw [stays, close_self, if_pos rfl]

private theorem settledFee_eq : settledFee feeRate spare inputs = agreedFee feeRate spare inputs :=
    by
  rw [settledFee, feeLoop_succ, agreedFee]
  split
  · rfl
  · rw [feeLoop_succ]
    split
    · rfl
    · rename_i apart
      exact feeLoop_even feeRate spare inputs 9 rfl rfl (Bool.eq_false_iff.mpr apart)

end Rounds

section Amounts

/-- The fee in numbers: the estimate for two outputs if that leaves change worth an output. -/
def plannedFee (rate spare inputs : Nat) : Nat :=
  if (110 * inputs + 94) * rate + 1000 < spare then (110 * inputs + 94) * rate
  else (110 * inputs + 60) * rate

private theorem outputsCount_eq (small : fee.toNat < 2 ^ 62) :
    outputsCount spare fee =
      if fee.toNat ≤ spare.toNat ∧ spare.toNat ≤ fee.toNat + 1000 then 1 else 2 := by
  have fits := spare.toNat_lt
  have more : spare - fee > dust ↔
      ¬ (fee.toNat ≤ spare.toNat ∧ spare.toNat ≤ fee.toNat + 1000) := by
    rw [gt_iff_lt, UInt64.lt_iff_toNat_lt, UInt64.toNat_sub]
    change 1000 < (2 ^ 64 - fee.toNat + spare.toNat) % 2 ^ 64 ↔ _
    omega
  simp only [outputsCount, more]
  split <;> simp_all

private theorem agreedFee_of_steps
    (step : nextFee feeRate spare inputs (firstFee feeRate inputs) = second)
    (step' : nextFee feeRate spare inputs second = third)
    (far : close second (firstFee feeRate inputs) = false)
    (ends : third = second ∨ close third second = false) :
    agreedFee feeRate spare inputs = third := by
  simp only [agreedFee, step, step', far, Bool.false_eq_true, if_false]
  rcases ends with rfl | apart
  · exact ite_self _
  · rw [apart, if_neg Bool.false_ne_true]

private theorem agreedFee_eq (small : (estimate feeRate inputs 2).toNat < 2 ^ 62)
    (gap : (firstFee feeRate inputs).toNat + 20 ≤ (estimate feeRate inputs 1).toNat)
    (gap' : (estimate feeRate inputs 1).toNat + 20 ≤ (estimate feeRate inputs 2).toNat)
    (covered : agreedFee feeRate spare inputs ≤ spare) :
    agreedFee feeRate spare inputs =
      if (estimate feeRate inputs 2).toNat + 1000 < spare.toNat then estimate feeRate inputs 2
      else estimate feeRate inputs 1 := by
  have next {fee : UInt64} (least : fee.toNat ≤ (estimate feeRate inputs 2).toNat) :
      nextFee feeRate spare inputs fee =
        if fee.toNat ≤ spare.toNat ∧ spare.toNat ≤ fee.toNat + 1000 then estimate feeRate inputs 1
        else estimate feeRate inputs 2 := by
    rw [nextFee, outputsCount_eq (by omega)]
    split
    · rfl
    · rfl
  have apart : close (estimate feeRate inputs 2) (estimate feeRate inputs 1) = false :=
    close_eq_false (by omega) (by omega)
  have covers := UInt64.le_iff_toNat_le.mp covered
  by_cases first : (firstFee feeRate inputs).toNat ≤ spare.toNat ∧
      spare.toNat ≤ (firstFee feeRate inputs).toNat + 1000
  · have second : nextFee feeRate spare inputs (firstFee feeRate inputs) =
        estimate feeRate inputs 1 := by rw [next (by omega), if_pos first]
    have far : close (estimate feeRate inputs 1) (firstFee feeRate inputs) = false :=
      close_eq_false (by omega) (by omega)
    by_cases one : (estimate feeRate inputs 1).toNat ≤ spare.toNat
    · have third : nextFee feeRate spare inputs (estimate feeRate inputs 1) =
          estimate feeRate inputs 1 := by rw [next (by omega), if_pos ⟨one, by omega⟩]
      rw [agreedFee_of_steps second third far (Or.inl rfl), if_neg (by omega)]
    · have third : nextFee feeRate spare inputs (estimate feeRate inputs 1) =
          estimate feeRate inputs 2 := by rw [next (by omega), if_neg (by omega)]
      rw [agreedFee_of_steps second third far (Or.inr apart)] at covers
      omega
  · have second : nextFee feeRate spare inputs (firstFee feeRate inputs) =
        estimate feeRate inputs 2 := by rw [next (by omega), if_neg first]
    have far : close (estimate feeRate inputs 2) (firstFee feeRate inputs) = false :=
      close_eq_false (by omega) (by omega)
    by_cases two : (estimate feeRate inputs 2).toNat ≤ spare.toNat ∧
        spare.toNat ≤ (estimate feeRate inputs 2).toNat + 1000
    · have third : nextFee feeRate spare inputs (estimate feeRate inputs 2) =
          estimate feeRate inputs 1 := by rw [next le_rfl, if_pos two]
      rw [agreedFee_of_steps second third far (Or.inr (close_comm _ _ ▸ apart)), if_neg (by omega)]
    · have third : nextFee feeRate spare inputs (estimate feeRate inputs 2) =
          estimate feeRate inputs 2 := by rw [next le_rfl, if_neg two]
      have whole := agreedFee_of_steps second third far (Or.inl rfl)
      rw [whole] at covers
      rw [whole, if_pos (by omega)]

private theorem toNat_agreedFee (fits : (110 * inputs + 94) * feeRate.toNat < 2 ^ 62)
    (some_input : 0 < inputs) (rate : 5 ≤ feeRate.toNat)
    (covered : agreedFee feeRate spare inputs ≤ spare) :
    (agreedFee feeRate spare inputs).toNat = plannedFee feeRate.toNat spare.toNat inputs := by
  have wide : (110 * inputs + 94) * feeRate.toNat < 2 ^ 64 := fits.trans (by norm_num)
  have coins : feeRate.toNat ≤ inputs * feeRate.toNat := Nat.le_mul_of_pos_left _ some_input
  have zero := toNat_firstFee wide
  have one := toNat_estimate (by norm_num : 1 ≤ 2) wide
  have two := toNat_estimate (le_refl 2) wide
  rw [agreedFee_eq (two ▸ fits) (by linarith) (by linarith) covered, plannedFee, two]
  split
  · exact two
  · exact one

private theorem toNat_agreedFee_mem (spare : UInt64)
    (fits : (110 * inputs + 94) * feeRate.toNat < 2 ^ 62) :
    (agreedFee feeRate spare inputs).toNat ∈
      Set.Icc ((106 * inputs + 60) * feeRate.toNat) ((110 * inputs + 94) * feeRate.toNat) := by
  have wide : (110 * inputs + 94) * feeRate.toNat < 2 ^ 64 := fits.trans (by norm_num)
  have next (fee : UInt64) : (nextFee feeRate spare inputs fee).toNat ∈
      Set.Icc ((106 * inputs + 60) * feeRate.toNat) ((110 * inputs + 94) * feeRate.toNat) := by
    obtain ⟨least, most⟩ := outputsCount_mem spare fee
    rw [nextFee, toNat_estimate most wide]
    exact ⟨Nat.mul_le_mul_right _ (by omega), Nat.mul_le_mul_right _ (by omega)⟩
  simp only [agreedFee]
  split
  · rw [toNat_firstFee wide]
    exact ⟨le_rfl, Nat.mul_le_mul_right _ (by omega)⟩
  · split
    · exact next _
    · exact next _

end Amounts

end Estimates

section Sizes

private theorem size_of_plain {tx : Transaction} (proofs : tx.rangeProofs = [])
    (plain : ∀ out ∈ tx.outputs, out.scriptPubkey.length = 25 ∧ out.commitment = none) :
    tx.size = 33 + (tx.inputs.map fun vin => 48 + vin.scriptSig.length).sum +
      42 * tx.outputs.length := by
  have inputs : (tx.inputs.flatMap txInputCodec.encode).length =
      (tx.inputs.map fun vin => 48 + vin.scriptSig.length).sum := by
    rw [List.length_flatMap]
    exact congrArg List.sum (List.map_congr_left fun vin _ => length_encode_txInput vin)
  have each : ∀ out ∈ tx.outputs, (txOutputCodec.encode out).length = 42 := by
    intro out member
    obtain ⟨script, commitment⟩ := plain out member
    simp [txOutputCodec, Codec.encode_iso, Codec.encode_pair, Codec.length_encode_u64,
      Codec.length_encode_bytes, script, commitment, Codec.length_encode_none]
  rw [Transaction.size_eq, inputs, List.length_flatMap, List.map_congr_left each, proofs]
  simp
  omega

end Sizes

section Transactions

variable {env : Env} {wallet : Wallet env} {utxos : List Utxo} {recipient : String}
  {amount feeRate : UInt64} {changeAddr : Option String} {tx : Transaction} {toPkh : Hash160}
  {rest : List TXOutput}

def spentBy (inputs : List Utxo) : Nat := (inputs.map fun u => u.value.toNat).sum

theorem toNat_inputSum {inputs : List Utxo} (fits : spentBy inputs < 2 ^ 64) :
    (inputSum inputs).toNat = spentBy inputs := by
  have sum (start : UInt64) (inputs : List Utxo) (fits : start.toNat + spentBy inputs < 2 ^ 64) :
      ((inputs.map Utxo.value).foldl (· + ·) start).toNat = start.toNat + spentBy inputs := by
    induction inputs generalizing start with
    | nil => rfl
    | cons u inputs ih =>
        simp only [spentBy, List.map_cons, List.sum_cons] at fits ih ⊢
        have step : (start + u.value).toNat = start.toNat + u.value.toNat := by
          rw [UInt64.toNat_add, Nat.mod_eq_of_lt (by omega)]
        rw [List.foldl_cons, ih (start + u.value) (by omega), step, Nat.add_assoc]
  rw [inputSum, sum 0 inputs (by simpa using fits), UInt64.toNat_zero, Nat.zero_add]

private theorem changeOutput_cases {change : UInt64}
    (done : changeOutput wallet change changeAddr = .ok rest) :
    (¬ (change > dust ∨ changeAddr.isSome = true) ∧ rest = []) ∨
      (change > dust ∨ changeAddr.isSome = true) ∧
        ∃ script : Bytes, script.length = 25 ∧ rest = [⟨change, script, none⟩] := by
  unfold changeOutput at done
  split at done
  · rename_i more
    simp only [bind_eq_ok, pure_eq_ok] at done
    obtain ⟨sk, -, rfl⟩ := done
    exact .inr ⟨Or.inl more, _, by simp [p2pkhScript], rfl⟩
  · rename_i less
    split at done
    · simp only [bind_eq_ok, pure_eq_ok] at done
      obtain ⟨pkh, -, rfl⟩ := done
      exact .inr ⟨Or.inr rfl, _, by simp [p2pkhScriptFromPkh], rfl⟩
    · obtain rfl := pure_eq_ok.mp done
      exact .inl ⟨by simp [less], rfl⟩

def SignsWithin (wallet : Wallet env) (shortest longest : Nat) : Prop :=
  ∀ msg sk, (wallet.master.serializeDer (wallet.master.signEcdsa msg sk)).length ∈
    Set.Icc shortest longest

private theorem signsWithin_der (wallet : Wallet env) : SignsWithin wallet 8 72 :=
  fun _ _ => wallet.master.length_serializeDer _

private theorem length_scriptSigOf {shortest longest : Nat}
    (within : SignsWithin wallet shortest longest) (msg : Hash) (sk : wallet.master.SecretKey) :
    (scriptSigOf wallet msg sk).length ∈ Set.Icc (shortest + 34) (longest + 34) := by
  obtain ⟨least, most⟩ := within msg sk
  simp only [scriptSigOf, List.length_append, List.length_singleton,
    wallet.master.length_serialize, Set.mem_Icc]
  omega

structure Shape (wallet : Wallet env) (inputs : List Utxo) (outputs : List TXOutput)
    (tx : Transaction) : Prop where
  plain : tx.isAnonymous = false
  proofs : tx.rangeProofs = []
  outputs_eq : tx.outputs = outputs
  count : tx.inputs.length = inputs.length
  scripts : ∀ vin ∈ tx.inputs, ∃ msg sk, vin.scriptSig = scriptSigOf wallet msg sk

private theorem Created.shape
    (created : Created wallet utxos recipient amount feeRate changeAddr tx toPkh rest) :
    Shape wallet (selectInputs amount utxos) (⟨amount, p2pkhScriptFromPkh toPkh, none⟩ :: rest)
      tx := by
  obtain ⟨bare, signed⟩ := created.signs
  have count : tx.inputs.length = (selectInputs amount utxos).length := by
    simpa [clearScripts, unsignedTx] using congrArg (fun tx => tx.inputs.length) bare
  refine ⟨congrArg Transaction.isAnonymous bare, congrArg Transaction.rangeProofs bare,
    congrArg Transaction.outputs bare, count, ?_⟩
  intro vin member
  obtain ⟨i, inside, rfl⟩ := List.mem_iff_getElem.mp member
  obtain ⟨sk, msg, vin, -, -, found, script⟩ :=
    signed i _ (List.getElem?_eq_getElem (count ▸ inside))
  rw [List.getElem?_eq_getElem inside] at found
  rw [Option.some.inj found]
  exact ⟨msg, sk, script⟩

def scriptBytes (tx : Transaction) : Nat := (tx.inputs.map fun vin => vin.scriptSig.length).sum

private theorem Created.size_eq
    (created : Created wallet utxos recipient amount feeRate changeAddr tx toPkh rest) :
    tx.size = 33 + 48 * (selectInputs amount utxos).length + scriptBytes tx +
      42 * (rest.length + 1) := by
  have plain (out : TXOutput) (member : out ∈ tx.outputs) :
      out.scriptPubkey.length = 25 ∧ out.commitment = none := by
    rw [created.shape.outputs_eq] at member
    rcases List.mem_cons.mp member with rfl | member
    · exact ⟨by simp [p2pkhScriptFromPkh], rfl⟩
    · rcases changeOutput_cases created.change with ⟨-, rfl⟩ | ⟨-, script, length, rfl⟩
      · exact absurd member List.not_mem_nil
      · obtain rfl := List.mem_singleton.mp member
        exact ⟨length, rfl⟩
  have inputs : (tx.inputs.map fun vin => 48 + vin.scriptSig.length).sum =
      48 * tx.inputs.length + scriptBytes tx := by
    rw [scriptBytes, List.sum_map_add, List.map_const', List.sum_replicate, smul_eq_mul,
      Nat.mul_comm]
  rw [size_of_plain created.shape.proofs plain, inputs, created.shape.count,
    created.shape.outputs_eq, List.length_cons]
  omega

private theorem Created.scriptBytes_mem {shortest longest : Nat}
    (created : Created wallet utxos recipient amount feeRate changeAddr tx toPkh rest)
    (within : SignsWithin wallet shortest longest) :
    scriptBytes tx ∈ Set.Icc ((shortest + 34) * (selectInputs amount utxos).length)
      ((longest + 34) * (selectInputs amount utxos).length) := by
  have each (size : Nat) (member : size ∈ tx.inputs.map fun vin => vin.scriptSig.length) :
      size ∈ Set.Icc (shortest + 34) (longest + 34) := by
    obtain ⟨vin, listed, rfl⟩ := List.mem_map.mp member
    obtain ⟨msg, sk, script⟩ := created.shape.scripts vin listed
    rw [script]
    exact length_scriptSigOf within msg sk
  have least := List.card_nsmul_le_sum _ _ fun size member => (each size member).1
  have most := List.sum_le_card_nsmul _ _ fun size member => (each size member).2
  rw [List.length_map, created.shape.count, smul_eq_mul, Nat.mul_comm] at least most
  exact ⟨least, most⟩

end Transactions

section Payment

/-- The fee of two rounds suffices for the bytes of the transaction: with an output for the change
the fee itself must, without one everything beyond the amount goes to the fee. -/
def Suffices (coins : List Utxo) (amount feeRate : UInt64) (changeAddr : Option String)
    (scripts : Nat) : Prop :=
  let spare := inputSum coins - amount
  let fee := agreedFee feeRate spare coins.length
  if spare - fee > dust ∨ changeAddr.isSome = true then
    fee ≤ spare ∧ 10 * (117 + 48 * coins.length + scripts) ≤ fee.toNat
  else 10 * (75 + 48 * coins.length + scripts) ≤ spare.toNat

def Pays (coins : List Utxo) (amount feeRate : UInt64) (changeAddr : Option String)
    (scripts : Nat) : Prop :=
  let spare := spentBy coins - amount.toNat
  let fee := plannedFee feeRate.toNat spare coins.length
  if fee + 1000 < spare ∨ changeAddr.isSome = true then
    10 * (117 + 48 * coins.length + scripts) ≤ fee
  else 10 * (75 + 48 * coins.length + scripts) ≤ spare

instance decidablePays (coins : List Utxo) (amount feeRate : UInt64) (changeAddr : Option String)
    (scripts : Nat) : Decidable (Pays coins amount feeRate changeAddr scripts) :=
  inferInstanceAs (Decidable (ite _ _ _))

variable {env : Env} {wallet : Wallet env} {utxos coins : List Utxo} {recipient : String}
  {amount feeRate : UInt64} {changeAddr : Option String} {tx : Transaction} {toPkh : Hash160}
  {rest : List TXOutput}

private theorem createFee_eq : createFee utxos amount feeRate = agreedFee feeRate
    (inputSum (selectInputs amount utxos) - amount) (selectInputs amount utxos).length :=
  settledFee_eq _ _ _

private theorem Created.checkPayment_iff
    (created : Created wallet utxos recipient amount feeRate changeAddr tx toPkh rest)
    (values : spentBy (selectInputs amount utxos) < 2 ^ 64) :
    checkPayment tx (inputSum (selectInputs amount utxos)) = .ok () ↔
      Suffices (selectInputs amount utxos) amount feeRate changeAddr (scriptBytes tx) := by
  have perByte : minFeePerByte.toNat = 10 := rfl
  have sum := toNat_inputSum values
  have funded := UInt64.le_iff_toNat_le.mp created.funded
  have spare := UInt64.toNat_sub_of_le _ _ created.funded
  have change := changeOutput_cases created.change
  rw [createFee_eq] at change
  rw [checkPayment_eq_ok tx _ created.shape.plain, created.size_eq, created.shape.outputs_eq,
    createdValue, perByte]
  simp only [Suffices]
  generalize agreedFee feeRate _ _ = fee at change ⊢
  generalize inputSum (selectInputs amount utxos) - amount = left at spare change ⊢
  rcases change with ⟨none_, rfl⟩ | ⟨some_, script, -, rfl⟩
  · rw [if_neg none_]
    simp only [List.map_cons, List.map_nil, List.sum_cons, List.sum_nil, List.length_nil]
    omega
  · rw [if_pos some_]
    simp only [List.map_cons, List.map_nil, List.sum_cons, List.sum_nil, List.length_cons,
      List.length_nil, UInt64.le_iff_toNat_le, UInt64.toNat_sub]
    have small := fee.toNat_lt
    have small' := left.toNat_lt
    omega

private theorem suffices_iff (some_input : 0 < coins.length)
    (values : spentBy coins < 2 ^ 64) (funded : amount ≤ inputSum coins)
    (fits : (110 * coins.length + 94) * feeRate.toNat < 2 ^ 62) (rate : 5 ≤ feeRate.toNat)
    (covered : agreedFee feeRate (inputSum coins - amount) coins.length ≤ inputSum coins - amount) :
    plannedFee feeRate.toNat (spentBy coins - amount.toNat) coins.length ≤
        spentBy coins - amount.toNat ∧
      ∀ scripts, Suffices coins amount feeRate changeAddr scripts ↔
        Pays coins amount feeRate changeAddr scripts := by
  have sum := toNat_inputSum values
  have spare := UInt64.toNat_sub_of_le _ _ funded
  have planned := toNat_agreedFee fits some_input rate covered
  have left := UInt64.toNat_sub_of_le _ _ covered
  have within := UInt64.le_iff_toNat_le.mp covered
  rw [sum] at spare
  rw [planned, spare] at left within
  rw [spare] at planned
  have more : inputSum coins - amount - agreedFee feeRate (inputSum coins - amount) coins.length >
        dust ↔ plannedFee feeRate.toNat (spentBy coins - amount.toNat) coins.length + 1000 <
          spentBy coins - amount.toNat := by
    rw [gt_iff_lt, UInt64.lt_iff_toNat_lt, left]
    change 1000 < _ ↔ _
    omega
  refine ⟨within, fun scripts => ?_⟩
  simp only [Suffices, Pays, more, covered, true_and, planned, spare]

private theorem Created.covered
    (created : Created wallet utxos recipient amount feeRate changeAddr tx toPkh rest)
    (chosen : selectInputs amount utxos = coins) (values : spentBy coins < 2 ^ 63)
    (fits : (110 * coins.length + 94) * feeRate.toNat < 2 ^ 62) (rate : 5 ≤ feeRate.toNat) :
    0 < coins.length ∧ amount ≤ inputSum coins ∧
      agreedFee feeRate (inputSum coins - amount) coins.length ≤ inputSum coins - amount := by
  have sum := toNat_inputSum (values.trans (by norm_num))
  have funded := created.funded
  have paid := UInt64.le_iff_toNat_le.mp created.paid
  rw [chosen] at funded paid
  have spare := UInt64.toNat_sub_of_le _ _ funded
  obtain ⟨least, most⟩ := toNat_agreedFee_mem (inputSum coins - amount) fits
  have whole := UInt64.le_iff_toNat_le.mp funded
  rw [createFee_eq, chosen, UInt64.toNat_add, Nat.mod_eq_of_lt (by omega)] at paid
  refine ⟨?_, funded, UInt64.le_iff_toNat_le.mpr (by omega)⟩
  rcases Nat.eq_zero_or_pos coins.length with empty | positive
  · have nothing : spentBy coins = 0 := by
      rw [List.length_eq_zero_iff.mp empty]
      rfl
    have floor : (106 * coins.length + 60) * feeRate.toNat = 60 * feeRate.toNat := by rw [empty]
    omega
  · exact positive

private theorem pays_of_rate {scripts : Nat} (enough : 16 ≤ feeRate.toNat)
    (some_input : 0 < coins.length)
    (covered : plannedFee feeRate.toNat (spentBy coins - amount.toNat) coins.length ≤
      spentBy coins - amount.toNat)
    (short : scripts ≤ 106 * coins.length) : Pays coins amount feeRate changeAddr scripts := by
  have scaled := Nat.mul_le_mul_left (110 * coins.length + 60) enough
  have planned : (110 * coins.length + 60) * feeRate.toNat ≤
      plannedFee feeRate.toNat (spentBy coins - amount.toNat) coins.length := by
    rw [plannedFee]
    split
    · exact Nat.mul_le_mul_right _ (by omega)
    · exact le_rfl
  simp only [Pays]
  split
  · omega
  · omega

private theorem Suffices.mono {scripts fewer : Nat}
    (enough : Suffices coins amount feeRate changeAddr scripts) (less : fewer ≤ scripts) :
    Suffices coins amount feeRate changeAddr fewer := by
  simp only [Suffices] at enough ⊢
  split at enough
  · rw [if_pos ‹_›]
    exact ⟨enough.1, by omega⟩
  · rw [if_neg ‹_›]
    omega

end Payment

/-- The sum of the coins, the sum of the outputs and the required fee of a created transaction. -/
def sampleAccount (value amount feeRate : UInt64) (changeAddr : Option String) :
    Option (Nat × Nat × Option UInt64) :=
  (createTx sampleWallet [sampleUtxo value] "recipient" amount feeRate changeAddr).toOption.map
    fun made => (spentBy (selectInputs amount [sampleUtxo value]), createdValue made.1.outputs,
      (requiredFee made.1).toOption)

end Lyrion.Wallet
