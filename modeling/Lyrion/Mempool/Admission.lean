/- GID: Lyrion/Mempool/Admission
   digest: What the checks of an insertion establish, and what they leave to block validation. -/

import Lyrion.Mempool.Operations
import Lyrion.Tx.Authorisation

set_option autoImplicit false
set_option relaxedAutoImplicit false

namespace Lyrion.Mempool

open Library.ByteCodec Library.KeyValue Data Utils Tx

variable {env : Env} {choices : Choices} {m : Mempool} {db : Db} {tx : Transaction}
  {entry : MempoolEntry}

def parentStack (m : Mempool) (tx : Transaction) : List Hash :=
  ((tx.inputs.map TXInput.txid).filter fun id => id ∈ m.txs).reverse

/-- The entry that the checks build, with the ancestors and the input sum on the way. -/
structure Admitted (choices : Choices) (m : Mempool) (db : Db) (tx : Transaction)
    (walked : Finset Hash) (inputSum : UInt64) (entry : MempoolEntry) : Prop where
  own : entry.tx = tx
  sized : tx.size ≤ maxTxSize
  ancestors : m.ancestors choices maxPackageDepth (m.parentStack tx) ∅ = .ok walked
  inputs : m.gatherInputs db tx.isAnonymous tx.inputs 0 walked = .ok (inputSum, entry.dependsOn)
  paid : createdValue tx.outputs + entry.fee.toNat = inputSum.toNat
  rate : entry.feePerByte = entry.fee / UInt64.ofNat tx.size
  images : tx.isAnonymous = true →
    ∀ vin ∈ tx.inputs, 32 ≤ vin.scriptSig.length ∧ vin.scriptSig.take 32 ∉ m.keyImages
  clock : choices.nowMs = some entry.time

private theorem checkKeyImage_eq_ok {vin : TXInput} :
    m.checkKeyImage vin = .ok () ↔
      32 ≤ vin.scriptSig.length ∧ vin.scriptSig.take 32 ∉ m.keyImages := by
  simp only [checkKeyImage, fail_bind, guard_eq_ok, pure_eq_ok, not_lt, and_true]

theorem checkInsert_eq_ok (passed : m.checkInsert env choices db tx = .ok entry) :
    ∃ walked inputSum, Admitted choices m db tx walked inputSum entry := by
  simp only [checkInsert, fail_bind, guard_eq_ok, bind_eq_ok, orFail_eq_ok,
    exists_done, not_or, not_lt, createdValue_eq_checkedSum, checkedSub_eq_some] at passed
  obtain ⟨⟨-, sized⟩, walked, ancestors, -, -, ⟨inputSum, dependsOn⟩, inputs, outputSum, created,
    fee, left, -, images⟩ := passed
  have rest : (tx.isAnonymous = true → ∀ vin ∈ tx.inputs, m.checkKeyImage vin = .ok ()) ∧
      ∃ time, choices.nowMs = some time ∧
        MempoolEntry.mk tx (fee / UInt64.ofNat tx.size) time dependsOn fee = entry := by
    by_cases anonymous : tx.isAnonymous = true
    · simp only [anonymous, if_true, bind_eq_ok, exists_done, forM_eq_ok, orFail_eq_ok,
        pure_eq_ok] at images
      exact ⟨fun _ => images.1, images.2⟩
    · simp only [anonymous, Bool.false_eq_true, if_false, bind_eq_ok, orFail_eq_ok,
        pure_eq_ok] at images
      exact ⟨fun h => absurd h anonymous, images⟩
  obtain ⟨checked, time, clock, rfl⟩ := rest
  refine ⟨walked, inputSum, rfl, sized, ancestors, inputs, ?_, rfl, ?_, clock⟩
  · have left : inputSum.toNat = fee.toNat + outputSum.toNat := left
    show createdValue tx.outputs + fee.toNat = inputSum.toNat
    omega
  · exact fun anonymous vin member => checkKeyImage_eq_ok.mp (checked anonymous vin member)

section Refusals

variable {bad : Fault → Bool}

def Late (fault : Fault) : Prop :=
  fault = .error .insufficientFee ∨ fault = .error .invalidScript ∨
    fault = .error .doubleSpend ∨ fault = .error .invalidTimestamp

private theorem not_raises_checkReplacement (late : ∀ fault, Late fault → bad fault = false)
    (txid : Hash) (size : Nat) (fee : UInt64) : ¬ Raises bad (m.checkReplacement txid size fee) :=
    by
  have low : bad (.error .insufficientFee) = false := late _ (Or.inl rfl)
  unfold checkReplacement
  split
  · exact not_raises_pure ()
  · simp [raises_ite, low]

private theorem not_raises_checkKeyImage (late : ∀ fault, Late fault → bad fault = false)
    (vin : TXInput) : ¬ Raises bad (m.checkKeyImage vin) := by
  have short : bad (.error .invalidScript) = false := late _ (Or.inr (Or.inl rfl))
  have spent : bad (.error .doubleSpend) = false := late _ (Or.inr (Or.inr (Or.inl rfl)))
  simp [checkKeyImage, raises_ite, short, spent]

private theorem raises_sums_iff {α : Type} {outputs : List TXOutput} {inputSum : UInt64}
    {next : UInt64 → Result α} (quiet : ∀ fee, ¬ Raises bad (next fee)) :
    Raises bad (do
        let outputSum ← orFail .valueOverflow (checkedSum (outputs.map TXOutput.value))
        let fee ← orFail .valueOverflow (checkedSub inputSum outputSum)
        next fee) ↔
      bad (.error .valueOverflow) = true ∧
        (2 ^ 64 ≤ createdValue outputs ∨ inputSum.toNat < createdValue outputs) := by
  have beyond : checkedSum (outputs.map TXOutput.value) = none ↔ 2 ^ 64 ≤ createdValue outputs := by
    rw [checkedSum_eq_none, List.map_map]
    rfl
  rw [raises_bind, raises_orFail, beyond]
  constructor
  · rintro (⟨large, listed⟩ | ⟨outputSum, created, raised⟩)
    · exact ⟨listed, Or.inl large⟩
    · rcases raises_bind.mp raised with short | ⟨fee, -, raised⟩
      · obtain ⟨less, listed⟩ := raises_orFail.mp short
        rw [createdValue_eq_checkedSum.mp (orFail_eq_ok.mp created)]
        exact ⟨listed, Or.inr (checkedSub_eq_none.mp less)⟩
      · exact absurd raised (quiet fee)
  · rintro ⟨listed, large | less⟩
    · exact Or.inl ⟨large, listed⟩
    · cases created : checkedSum (outputs.map TXOutput.value) with
      | none => exact Or.inl ⟨beyond.mp created, listed⟩
      | some outputSum =>
          rw [createdValue_eq_checkedSum.mp created] at less
          exact Or.inr ⟨outputSum, rfl,
            raises_bind.mpr (Or.inl (raises_orFail.mpr ⟨checkedSub_eq_none.mpr less, listed⟩))⟩

theorem raises_checkInsert_iff (env : Env) (choices : Choices) (m : Mempool) (db : Db)
    (tx : Transaction) (late : ∀ fault, Late fault → bad fault = false)
    (size : bad (.error (.invalidTx "Invalid size")) = false) :
    Raises bad (m.checkInsert env choices db tx) ↔
      (0 < tx.size ∧ tx.size ≤ maxTxSize) ∧
        (Raises bad (m.ancestors choices maxPackageDepth (m.parentStack tx) ∅) ∨
          ∃ walked, m.ancestors choices maxPackageDepth (m.parentStack tx) ∅ = .ok walked ∧
            (Raises bad (m.packageSize tx.size (choices.enumerate walked)) ∨
              ∃ package, m.packageSize tx.size (choices.enumerate walked) = .ok package ∧
                (Raises bad (m.gatherInputs db tx.isAnonymous tx.inputs 0 walked) ∨
                  ∃ inputs, m.gatherInputs db tx.isAnonymous tx.inputs 0 walked = .ok inputs ∧
                    bad (.error .valueOverflow) = true ∧
                      (2 ^ 64 ≤ createdValue tx.outputs ∨
                        inputs.1.toNat < createdValue tx.outputs)))) := by
  have outside : ¬ (tx.size = 0 ∨ tx.size > maxTxSize) ↔ 0 < tx.size ∧ tx.size ≤ maxTxSize := by
    omega
  have clock : bad (.error .invalidTimestamp) = false :=
    late _ (Or.inr (Or.inr (Or.inr rfl)))
  simp only [checkInsert, fail_bind, raises_guard, outside, size, Bool.false_eq_true, and_false,
    false_or]
  refine and_congr_right fun _ => ?_
  rw [raises_bind]
  refine or_congr Iff.rfl (exists_congr fun walked => and_congr_right fun _ => ?_)
  rw [raises_bind]
  refine or_congr Iff.rfl (exists_congr fun package => and_congr_right fun _ => ?_)
  rw [raises_bind]
  refine or_congr Iff.rfl (exists_congr fun inputs => and_congr_right fun _ => ?_)
  -- nothing after the two sums ends in a fault of this kind
  refine raises_sums_iff fun fee => ?_
  have last : ¬ Raises bad (do
      let time ← orFail .invalidTimestamp choices.nowMs
      pure ({ tx, feePerByte := fee / UInt64.ofNat tx.size, time, dependsOn := inputs.2, fee } :
        MempoolEntry)) :=
    not_raises_bind (by simp [clock]) fun _ => not_raises_pure _
  refine not_raises_bind (not_raises_checkReplacement late _ _ _) fun _ => ?_
  split
  · exact not_raises_bind (not_raises_forM (not_raises_checkKeyImage late) _) fun _ => last
  · exact last

theorem insert_fails_iff (env : Env) (choices : Choices) (m : Mempool) (db : Db) (tx : Transaction)
    (fault : Fault) :
    (m.insert env choices db tx).map Prod.fst = some (.error fault) ↔
      txHash env tx ∉ m.pooled ∧ m.checkInsert env choices db tx = .error fault := by
  unfold Mempool.insert
  by_cases known : txHash env tx ∈ m.txs
  · simp [known, pooled, Finmap.mem_keys]
  · cases checked : m.checkInsert env choices db tx with
    | error e => simp [known, pooled, Finmap.mem_keys]
    | ok entry => simp [known, Option.map_map, Function.comp_def]

end Refusals

def Confirmed (db : Db) (tx : Transaction) : Prop :=
  ∀ vin ∈ tx.inputs,
    (get db (coinFamily tx.isAnonymous) (coinKey tx.isAnonymous vin.txid vin.vout)).isSome

private theorem gatherInputs_stored {isAnonymous : Bool} {inputs : List TXInput}
    {sum inputSum : UInt64} {walked dependsOn : Finset Hash}
    (confirmed : ∀ vin ∈ inputs,
      (get db (coinFamily isAnonymous) (coinKey isAnonymous vin.txid vin.vout)).isSome)
    (done : m.gatherInputs db isAnonymous inputs sum walked = .ok (inputSum, dependsOn)) :
    (∀ vin ∈ inputs, (storedCoin db isAnonymous vin).isSome) ∧
      sum.toNat + spentValue db isAnonymous inputs = inputSum.toNat := by
  induction inputs generalizing sum with
  | nil =>
      obtain ⟨rfl, -⟩ := Prod.mk.inj (Except.ok.inj done)
      simp [spentValue]
  | cons vin inputs ih =>
      obtain ⟨here, others⟩ := List.forall_mem_cons.mp confirmed
      obtain ⟨value, found⟩ := Option.isSome_iff_exists.mp here
      simp only [gatherInputs, found, bind_eq_ok, orFail_eq_ok] at done
      obtain ⟨output, readable, sum', added, rest⟩ := done
      obtain ⟨present, total⟩ := ih others rest
      have coin : storedCoin db isAnonymous vin = some output := by
        rw [storedCoin, found, Option.bind_some, readable]
      have split : spentValue db isAnonymous (vin :: inputs) =
          output.value.toNat + spentValue db isAnonymous inputs := by
        simp [spentValue, coin]
      have first := checkedAdd_eq_some.mp added
      refine ⟨List.forall_mem_cons.mpr ⟨by rw [coin]; rfl, present⟩, ?_⟩
      omega

/-- A pooled transaction over confirmed outputs is valid in the next block exactly when it also
meets the rules that an insertion does not check. -/
theorem insert_validates_iff (env : Env) (choices : Choices) (m m' : Mempool) (db : Db)
    (bestHeight : Nat) (tx : Transaction) (ordinary : isCoinbase tx = false)
    (confirmed : Confirmed db tx) (inserted : m.insert env choices db tx = some (.ok true, m')) :
    validateTransaction env db bestHeight tx (bestHeight + 1) = .ok () ↔
      tx.isAnonymous = false ∧ lockTimeOpen tx bestHeight = false ∧
        (tx.inputs.map TXInput.outpoint).Nodup ∧
        (∀ vin ∈ tx.inputs, Mature db (bestHeight + 1) vin) ∧
        createdValue tx.outputs + tx.size * minFeePerByte.toNat ≤
          spentValue db false tx.inputs := by
  rcases insert_eq_some inserted with ⟨-, refused⟩ | ⟨-, -, entry, -, passed, -⟩
  · exact absurd rfl refused
  · obtain ⟨walked, inputSum, admitted⟩ := checkInsert_eq_ok passed
    have sized : tx.size < 2 ^ 64 := admitted.sized.trans_lt (by decide)
    constructor
    · intro valid
      obtain ⟨transparent, rules⟩ := validateTransaction_shape ordinary sized valid
      exact ⟨transparent, rules.final, rules.distinct, rules.mature, rules.paid⟩
    · rintro ⟨transparent, final, distinct, mature, paid⟩
      obtain ⟨present, total⟩ := gatherInputs_stored confirmed admitted.inputs
      rw [transparent] at present total
      have bounded : spentValue db false tx.inputs < 2 ^ 64 := by
        have := inputSum.toNat_lt
        have start : (0 : UInt64).toNat = 0 := rfl
        omega
      exact (validateTransaction_transparent db bestHeight (bestHeight + 1) tx ordinary
        transparent).mpr ⟨final, distinct, mature, present, bounded, paid⟩

theorem sample_insert_validates :
    (∃ m', (new 1000).insert sampleEnv sampleChoices sampleCoinDb (sampleSpend []) =
      some (.ok true, m')) ∧
      validateTransaction sampleEnv sampleCoinDb 0 (sampleSpend []) 1 = .ok () := by
  have evaluated : ((new 1000).insert sampleEnv sampleChoices sampleCoinDb (sampleSpend [])).map
      Prod.fst = some (.ok true) := by decide +kernel
  obtain ⟨⟨outcome, m'⟩, inserted, rfl⟩ := Option.map_eq_some_iff.mp evaluated
  refine ⟨⟨m', inserted⟩, ?_⟩
  have stored : Confirmed sampleCoinDb (sampleSpend []) := by
    intro vin member
    obtain rfl := List.mem_singleton.mp member
    decide +kernel
  refine (insert_validates_iff sampleEnv sampleChoices (new 1000) m' sampleCoinDb 0 (sampleSpend [])
    (by decide) stored inserted).mpr ⟨rfl, by decide, by decide, ?_, by decide +kernel⟩
  intro vin member bytes found
  obtain rfl := List.mem_singleton.mp member
  have unrecorded : get sampleCoinDb .coinbase zeroHash.toList = none := by decide +kernel
  exact absurd (unrecorded.symm.trans found) (by simp)

/-- A spend of the whole sample coin pays no fee. It is pooled and refused by validation. -/
theorem free_spend_pooled :
    isCoinbase { sampleSpend [] with outputs := [sampleCoin] } = false ∧
      Confirmed sampleCoinDb { sampleSpend [] with outputs := [sampleCoin] } ∧
      (∃ m', (new 1000).insert sampleEnv sampleChoices sampleCoinDb
        { sampleSpend [] with outputs := [sampleCoin] } = some (.ok true, m')) ∧
      validateTransaction sampleEnv sampleCoinDb 0
        { sampleSpend [] with outputs := [sampleCoin] } 1 = fail .insufficientFee := by
  have evaluated : ((new 1000).insert sampleEnv sampleChoices sampleCoinDb
      { sampleSpend [] with outputs := [sampleCoin] }).map Prod.fst = some (.ok true) := by
    decide +kernel
  obtain ⟨⟨outcome, m'⟩, inserted, rfl⟩ := Option.map_eq_some_iff.mp evaluated
  refine ⟨by decide, ?_, ⟨m', inserted⟩, by decide +kernel⟩
  intro vin member
  obtain rfl := List.mem_singleton.mp member
  decide +kernel

end Lyrion.Mempool
