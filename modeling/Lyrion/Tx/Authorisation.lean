/- GID: Lyrion/Tx/Authorisation
   digest: Acceptance of a transparent spend does not depend on its unlocking scripts. -/

import Lyrion.Tx.Acceptance

set_option autoImplicit false
set_option relaxedAutoImplicit false

namespace Lyrion.Tx

open Library.ByteCodec Library.KeyValue Data Utils

variable {env : Env}

/-- Every input of the transaction passes the script check against the coin it refers to. -/
def Authorised (env : Env) (db : Db) (tx : Transaction) : Prop :=
  ∀ i vin out, tx.inputs[i]? = some vin → storedCoin db false vin = some out →
    validateScriptWithTimeout env vin out tx i = .ok ()

/-! The script check on an empty unlocking script: a payment to a key hash reads a first byte
    that is not there, a payment to a key asks for a nonempty script. -/

private theorem checkP2pkh_empty (input : TXInput) (output : TXOutput) (tx : Transaction) (i : Nat)
    (empty : input.scriptSig = []) : checkP2pkh env input output tx i ≠ .ok () := by
  intro passed
  simp only [checkP2pkh, fail_bind, guard_eq_ok, bind_eq_ok, byteAt, orPanic_eq_ok, empty,
    List.getElem?_nil, reduceCtorEq, false_and, exists_false, and_false] at passed

private theorem checkP2pk_empty (input : TXInput) (output : TXOutput) (tx : Transaction) (i : Nat)
    (empty : input.scriptSig = []) : checkP2pk env input output tx i ≠ .ok () := by
  intro passed
  simp only [checkP2pk, fail_bind, guard_eq_ok, bind_eq_ok, empty, not_true_eq_false, false_and,
    and_false, exists_false] at passed

private theorem validateScriptWithTimeout_empty (input : TXInput) (output : TXOutput)
    (tx : Transaction) (i : Nat) (empty : input.scriptSig = []) :
    validateScriptWithTimeout env input output tx i ≠ .ok () := by
  unfold validateScriptWithTimeout
  split
  · exact checkP2pkh_empty input output tx i empty
  · split
    · exact checkP2pk_empty input output tx i empty
    · simp

private theorem length_clearScripts_inputs (inputs : List TXInput) :
    ((inputs.map fun vin => { vin with scriptSig := [] }).flatMap txInputCodec.encode).length ≤
      (inputs.flatMap txInputCodec.encode).length := by
  induction inputs with
  | nil => simp
  | cons vin rest ih =>
      have shorter : (txInputCodec.encode { vin with scriptSig := [] }).length ≤
          (txInputCodec.encode vin).length := by
        rw [length_encode_txInput, length_encode_txInput, List.length_nil]
        omega
      simp only [List.map_cons, List.flatMap_cons, List.length_append]
      omega

private theorem size_clearScripts_le (tx : Transaction) : (clearScripts tx).size ≤ tx.size := by
  have inputs := length_clearScripts_inputs tx.inputs
  rw [Transaction.size_eq, Transaction.size_eq]
  simp only [clearScripts]
  omega

private theorem SpendRules.clearScripts {db : Db} {bestHeight height : Nat} {tx : Transaction}
    (rules : SpendRules db bestHeight height tx) :
    SpendRules db bestHeight height (clearScripts tx) := by
  have value : spentValue db false (Tx.clearScripts tx).inputs = spentValue db false tx.inputs := by
    simp only [spentValue, Tx.clearScripts, List.map_map]
    rfl
  refine ⟨?_, ?_, ?_, ?_, value ▸ rules.bounded, ?_⟩
  · have final := rules.final
    simpa [lockTimeOpen, Tx.clearScripts, List.any_map, Function.comp_def] using final
  · have distinct := rules.distinct
    simp only [Tx.clearScripts, List.map_map]
    exact distinct
  · simp only [Tx.clearScripts, List.forall_mem_map]
    exact rules.mature
  · simp only [Tx.clearScripts, List.forall_mem_map]
    exact rules.present
  · have paid := rules.paid
    have shorter := Nat.mul_le_mul_right minFeePerByte.toNat (size_clearScripts_le tx)
    rw [value]
    show createdValue tx.outputs + _ ≤ _
    omega

theorem SpendRules.inputs_ne_nil {db : Db} {bestHeight height : Nat} {tx : Transaction}
    (rules : SpendRules db bestHeight height tx) : tx.inputs ≠ [] := by
  intro empty
  have paid := rules.paid
  have positive := size_pos tx
  have perByte : minFeePerByte.toNat = 10 := rfl
  rw [empty, perByte] at paid
  simp only [spentValue, List.map_nil, List.sum_nil] at paid
  omega

private theorem isCoinbase_clearScripts (tx : Transaction) :
    isCoinbase (clearScripts tx) = isCoinbase tx := by
  unfold isCoinbase clearScripts
  rcases tx.inputs with _ | ⟨vin, _ | ⟨second, rest⟩⟩ <;> rfl

/-- Every accepted version of a transparent spend is authorised, whatever its unlocking
scripts, exactly when no version of it is accepted: the rules never look at the scripts, and the
version with empty ones passes whenever any does. -/
theorem accepted_spends_authorised_iff (env : Env) (db : Db) (bestHeight height : Nat)
    (tx : Transaction) (ordinary : isCoinbase tx = false) (transparent : tx.isAnonymous = false) :
    (∀ signed, clearScripts signed = clearScripts tx →
        validateTransaction env db bestHeight signed height = .ok () → Authorised env db signed) ↔
      ¬ SpendRules db bestHeight height (clearScripts tx) := by
  constructor
  · intro authorised rules
    have accepted : validateTransaction env db bestHeight (clearScripts tx) height = .ok () :=
      (validateTransaction_transparent db bestHeight height _
        ((isCoinbase_clearScripts tx).trans ordinary) transparent).mpr rules
    have idem : clearScripts (clearScripts tx) = clearScripts tx := by
      simp [clearScripts, Function.comp_def]
    have checked := authorised _ idem accepted
    obtain ⟨vin, rest, inputs⟩ := List.exists_cons_of_ne_nil rules.inputs_ne_nil
    have member : vin ∈ (clearScripts tx).inputs := by simp [inputs]
    obtain ⟨out, found⟩ := Option.isSome_iff_exists.mp (rules.present vin member)
    have empty : vin.scriptSig = [] := by
      obtain ⟨original, -, rfl⟩ := List.mem_map.mp member
      rfl
    exact validateScriptWithTimeout_empty vin out _ 0 empty
      (checked 0 vin out (by simp [inputs]) found)
  · intro broken signed same accepted
    have ordinary' : isCoinbase signed = false := by
      rw [← isCoinbase_clearScripts, same, isCoinbase_clearScripts, ordinary]
    have transparent' : signed.isAnonymous = false :=
      (congrArg Transaction.isAnonymous same).trans transparent
    have rules := (validateTransaction_transparent db bestHeight height signed ordinary'
      transparent').mp accepted
    exact absurd (same ▸ rules.clearScripts) broken

def sampleCoin : TXOutput := ⟨10000, p2pkhScript sampleEnv [7], none⟩

def sampleCoinDb : Db :=
  write emptyDb [putCf .utxo (coinKey false zeroHash 0) (txOutputCodec.encode sampleCoin)]

/-- A spend of the coin to an empty script, with the given unlocking script. -/
def sampleSpend (scriptSig : Bytes) : Transaction where
  version := 1
  isAnonymous := false
  inputs := [⟨zeroHash, 0, scriptSig, maxU32⟩]
  outputs := [⟨5000, [], none⟩]
  lockTime := 0
  rangeProofs := []

theorem unsigned_spend_accepted :
    isCoinbase (sampleSpend []) = false ∧ (sampleSpend []).isAnonymous = false ∧
      validateTransaction sampleEnv sampleCoinDb 0 (sampleSpend []) 0 = .ok () ∧
      ¬ Authorised sampleEnv sampleCoinDb (sampleSpend []) := by
  refine ⟨by decide, rfl, by decide +kernel, ?_⟩
  intro authorised
  exact validateScriptWithTimeout_empty _ sampleCoin _ 0 rfl
    (authorised 0 _ sampleCoin rfl (by decide +kernel))

theorem absent_spends_authorised :
    isCoinbase (sampleSpend []) = false ∧ (sampleSpend []).isAnonymous = false ∧
      ∀ signed, clearScripts signed = clearScripts (sampleSpend []) →
        validateTransaction sampleEnv emptyDb 0 signed 0 = .ok () →
          Authorised sampleEnv emptyDb signed := by
  refine ⟨by decide, rfl, ?_⟩
  apply (accepted_spends_authorised_iff sampleEnv emptyDb 0 0 (sampleSpend []) (by decide) rfl).mpr
  intro rules
  have present := rules.present ⟨zeroHash, 0, [], maxU32⟩ (by decide)
  exact absurd present (by decide)

end Lyrion.Tx
