/- GID: Lyrion/Mempool/ParentValues
   digest: What an insertion takes for the value of its inputs when some of them are unconfirmed. -/

import Lyrion.Mempool.Bookkeeping

set_option autoImplicit false
set_option relaxedAutoImplicit false

namespace Lyrion.Mempool

open Library.ByteCodec Library.KeyValue Data Utils Tx

variable {env : Env} {choices : Choices} {m m' : Mempool} {db : Db} {tx : Transaction}
  {isAnonymous : Bool} {inputs : List TXInput}

/-- The output of a pooled transaction of the given kind that an input refers to. -/
def pooledCoin (m : Mempool) (isAnonymous : Bool) (vin : TXInput) : Option TXOutput :=
  (m.txs.lookup vin.txid).bind fun entry =>
    if entry.tx.isAnonymous = isAnonymous then entry.tx.outputs[vin.vout.toNat]? else none

def unconfirmedValueOf (m : Mempool) (db : Db) (isAnonymous : Bool) (vin : TXInput) : Nat :=
  match storedCoin db isAnonymous vin with
  | some _ => 0
  | none => ((m.pooledCoin isAnonymous vin).map fun o => o.value.toNat).getD 0

def unconfirmedValue (m : Mempool) (db : Db) (isAnonymous : Bool) (inputs : List TXInput) : Nat :=
  (inputs.map (m.unconfirmedValueOf db isAnonymous)).sum

/-- Each input refers to a stored output, or to an output of a pooled transaction of its kind. -/
def Sourced (m : Mempool) (db : Db) (isAnonymous : Bool) (inputs : List TXInput) : Prop :=
  ∀ vin ∈ inputs, (storedCoin db isAnonymous vin).isSome ∨
    get db (coinFamily isAnonymous) (coinKey isAnonymous vin.txid vin.vout) = none ∧
      (m.pooledCoin isAnonymous vin).isSome

private theorem gatherInputs_sourced (sourced : Sourced m db isAnonymous inputs) (sum : UInt64)
    (walked : Finset Hash) :
    (2 ^ 64 ≤ sum.toNat + spentValue db isAnonymous inputs ∧
        m.gatherInputs db isAnonymous inputs sum walked = fail .valueOverflow) ∨
      ∃ total dependsOn, total.toNat = sum.toNat + spentValue db isAnonymous inputs ∧
        m.gatherInputs db isAnonymous inputs sum walked = .ok (total, dependsOn) := by
  induction inputs generalizing sum walked with
  | nil => exact Or.inr ⟨sum, walked, by simp [spentValue], rfl⟩
  | cons vin inputs ih =>
      obtain ⟨here, others⟩ := List.forall_mem_cons.mp sourced
      have split : spentValue db isAnonymous (vin :: inputs) =
          ((storedCoin db isAnonymous vin).map fun o => o.value.toNat).getD 0 +
            spentValue db isAnonymous inputs := by
        simp [spentValue]
      rw [gatherInputs, split]
      rcases here with stored | ⟨absent, pooled⟩
      · obtain ⟨output, coin⟩ := Option.isSome_iff_exists.mp stored
        obtain ⟨value, found, readable⟩ := Option.bind_eq_some_iff.mp coin
        have read : (orFail (.anyhow "Deserialize output failed") (some output) : Result TXOutput) =
            .ok output := rfl
        simp only [found, readable, coin, Option.map_some, Option.getD_some, read, Bind.bind,
          Except.bind]
        cases added : checkedAdd sum output.value with
        | none =>
            have large : 2 ^ 64 ≤ sum.toNat + output.value.toNat := by
              unfold checkedAdd at added
              split at added
              · exact absurd added (by simp)
              · omega
            exact Or.inl ⟨by omega, rfl⟩
        | some next =>
            have plus := checkedAdd_eq_some.mp added
            rw [← Nat.add_assoc, plus]
            exact ih others next walked
      · have unstored : storedCoin db isAnonymous vin = none := by
          rw [storedCoin, absent]
          rfl
        obtain ⟨output, coin⟩ := Option.isSome_iff_exists.mp pooled
        obtain ⟨entry, found, -⟩ := Option.bind_eq_some_iff.mp coin
        have member : vin.txid ∈ m.txs := Finmap.mem_iff.mpr ⟨entry, found⟩
        simp only [absent, member, if_true, unstored, Option.map_none, Option.getD_none,
          Nat.zero_add]
        exact ih others sum _

def isOverflow (fault : Fault) : Bool := fault = .error .valueOverflow

private theorem raises_isOverflow {α : Type} {x : Result α} :
    Raises isOverflow x ↔ x = fail .valueOverflow := by
  simp [Raises, isOverflow, fail]

private theorem not_raises_ancestors (choices : Choices) (m : Mempool) (fuel : Nat)
    (stack : List Hash) (dependsOn : Finset Hash) :
    ¬ Raises isOverflow (m.ancestors choices fuel stack dependsOn) := by
  induction fuel generalizing stack dependsOn with
  | zero => simp [ancestors, isOverflow]
  | succ fuel ih =>
      cases stack with
      | nil => exact not_raises_ok _
      | cons parent stack =>
          rw [ancestors, raises_guard]
          rintro (⟨-, raised⟩ | ⟨-, raised⟩)
          · exact absurd raised (by decide)
          · split at raised
            · exact ih _ _ raised
            · exact ih _ _ raised

/-- What comes before the sums has passed: the size, the ancestor walk and the package. -/
def ReachesSums (choices : Choices) (m : Mempool) (tx : Transaction) : Prop :=
  (0 < tx.size ∧ tx.size ≤ maxTxSize) ∧ ∃ walked package,
    m.ancestors choices maxPackageDepth (m.parentStack tx) ∅ = .ok walked ∧
      m.packageSize tx.size (choices.enumerate walked) = .ok package

private theorem checkInsert_overflow_iff (env : Env) (choices : Choices)
    (sourced : Sourced m db tx.isAnonymous tx.inputs) :
    m.checkInsert env choices db tx = fail .valueOverflow ↔
      ReachesSums choices m tx ∧
        (2 ^ 64 ≤ spentValue db tx.isAnonymous tx.inputs ∨ 2 ^ 64 ≤ createdValue tx.outputs ∨
          spentValue db tx.isAnonymous tx.inputs < createdValue tx.outputs) := by
  have late (fault : Fault) (last : Late fault) : isOverflow fault = false := by
    rcases last with rfl | rfl | rfl | rfl <;> decide
  have package (size : Nat) (dependsOn : List Hash) :
      ¬ Raises isOverflow (m.packageSize size dependsOn) := by
    refine not_raises_foldlM (fun total dep => ?_) size dependsOn
    simp [raises_ite, isOverflow]
  have start : (0 : UInt64).toNat = 0 := rfl
  have sums (walked : Finset Hash) :
      (Raises isOverflow (m.gatherInputs db tx.isAnonymous tx.inputs 0 walked) ∨
        ∃ inputs, m.gatherInputs db tx.isAnonymous tx.inputs 0 walked = .ok inputs ∧
          isOverflow (.error .valueOverflow) = true ∧
            (2 ^ 64 ≤ createdValue tx.outputs ∨ inputs.1.toNat < createdValue tx.outputs)) ↔
      (2 ^ 64 ≤ spentValue db tx.isAnonymous tx.inputs ∨ 2 ^ 64 ≤ createdValue tx.outputs ∨
        spentValue db tx.isAnonymous tx.inputs < createdValue tx.outputs) := by
    rcases gatherInputs_sourced sourced 0 walked with
      ⟨large, failed⟩ | ⟨total, dependsOn, sum, done⟩
    · refine iff_of_true (Or.inl (raises_isOverflow.mpr failed)) (Or.inl ?_)
      omega
    · have bound := total.toNat_lt
      have small : ¬ 2 ^ 64 ≤ spentValue db tx.isAnonymous tx.inputs := by omega
      have exact_ : total.toNat = spentValue db tx.isAnonymous tx.inputs := by omega
      rw [done]
      constructor
      · rintro (raised | ⟨inputs, same, -, failed⟩)
        · exact absurd raised (not_raises_ok _)
        · obtain rfl := Except.ok.inj same
          exact Or.inr (exact_ ▸ failed)
      · rintro (large | failed)
        · exact absurd large small
        · exact Or.inr ⟨_, rfl, by decide, exact_.symm ▸ failed⟩
  rw [← raises_isOverflow, raises_checkInsert_iff env choices m db tx late (by decide)]
  simp only [not_raises_ancestors, package, sums, false_or, ReachesSums]
  constructor
  · rintro ⟨sized, walked, done, total, within, failed⟩
    exact ⟨⟨sized, walked, total, done, within⟩, failed⟩
  · rintro ⟨⟨sized, walked, total, done, within⟩, failed⟩
    exact ⟨sized, walked, done, total, within, failed⟩

private theorem insert_lookup {entry : MempoolEntry}
    (done : m.insert env choices db tx = some (.ok true, m'))
    (found : m'.txs.lookup (txHash env tx) = some entry) :
    m.checkInsert env choices db tx = .ok entry := by
  rcases insert_eq_some done with ⟨-, refused⟩ | ⟨-, -, own, evicted, passed, looped, rfl⟩
  · exact absurd rfl refused
  · have kept : Hereditary fun pool => ∀ e, pool.txs.lookup (txHash env tx) = some e → e = own :=
      ⟨fun _ _ _ _ _ held => held, fun pool txid held e there =>
        held e ((remove_leftOf pool txid).lookup there)⟩
    have stored (e : MempoolEntry)
        (there : (m.store choices (txHash env tx) own).txs.lookup (txHash env tx) = some e) :
        e = own := by
      rw [lookup_store_txs, if_pos rfl] at there
      exact (Option.some.inj there).symm
    have same := kept.removeOrphanedTxs (kept.evictLoop stored looped).1 entry found
    rw [passed, same]

def sourceValue (m : Mempool) (db : Db) (tx : Transaction) : Nat :=
  spentValue db tx.isAnonymous tx.inputs + m.unconfirmedValue db tx.isAnonymous tx.inputs

/-- Where every input has a source that the outputs do not exceed, an insertion that comes to the
sums fails on the fee exactly when the stored inputs alone are worth less than the outputs, and
records the right fee exactly when the pooled outputs are worth nothing. -/
theorem insert_fee_iff (env : Env) (choices : Choices) (m : Mempool) (db : Db) (tx : Transaction)
    (sourced : Sourced m db tx.isAnonymous tx.inputs)
    (covered : createdValue tx.outputs ≤ m.sourceValue db tx) :
    ((m.insert env choices db tx).map Prod.fst = some (fail .valueOverflow) ↔
        txHash env tx ∉ m.pooled ∧ ReachesSums choices m tx ∧
          (2 ^ 64 ≤ spentValue db tx.isAnonymous tx.inputs ∨ 2 ^ 64 ≤ createdValue tx.outputs ∨
            spentValue db tx.isAnonymous tx.inputs < createdValue tx.outputs)) ∧
      ∀ m' entry, m.insert env choices db tx = some (.ok true, m') →
        m'.txs.lookup (txHash env tx) = some entry →
          (entry.fee.toNat = m.sourceValue db tx - createdValue tx.outputs ↔
            m.unconfirmedValue db tx.isAnonymous tx.inputs = 0) := by
  refine ⟨?_, fun m' entry done found => ?_⟩
  · rw [← checkInsert_overflow_iff env choices sourced]
    exact insert_fails_iff env choices m db tx _
  · obtain ⟨walked, inputSum, admitted⟩ := checkInsert_eq_ok (insert_lookup done found)
    have sum : inputSum.toNat = spentValue db tx.isAnonymous tx.inputs := by
      rcases gatherInputs_sourced sourced 0 walked with
        ⟨-, failed⟩ | ⟨total, dependsOn, sum, gathered⟩
      · exact absurd (failed.symm.trans admitted.inputs) (by simp [fail])
      · obtain ⟨rfl, -⟩ := Prod.mk.inj (Except.ok.inj (gathered.symm.trans admitted.inputs))
        exact sum.trans (Nat.zero_add _)
    have paid := admitted.paid
    unfold sourceValue at covered ⊢
    omega

/-- A child of the pooled sample spend that creates an output of the given value. -/
def sampleChild (value : UInt64) : Transaction where
  version := 1
  isAnonymous := false
  inputs := [⟨txHash sampleEnv (sampleSpend []), 0, [], maxU32⟩]
  outputs := [⟨value, [], none⟩]
  lockTime := 0
  rangeProofs := []

def sampleChildInserted (value : UInt64) : Option (Nat × Option (Result Bool × Option UInt64)) :=
  ((new 1000).run sampleEnv [sampleInsert []]).map fun m =>
    (m.sourceValue sampleCoinDb (sampleChild value),
      (m.insert sampleEnv sampleChoices sampleCoinDb (sampleChild value)).map fun result =>
        (result.1, (result.2.txs.lookup (txHash sampleEnv (sampleChild value))).map
          MempoolEntry.fee))

/-- A child that takes 4000 out of 5000 is refused, and one that takes nothing is recorded without a
fee. -/
theorem pooled_value_ignored :
    sampleChildInserted 4000 = some (5000, some (fail .valueOverflow, none)) ∧
      sampleChildInserted 0 = some (5000, some (.ok true, some 0)) := by
  constructor <;> decide +kernel

theorem sample_fee_right :
    ∃ m' entry, (new 1000).insert sampleEnv sampleChoices sampleCoinDb (sampleSpend []) =
        some (.ok true, m') ∧
      m'.txs.lookup (txHash sampleEnv (sampleSpend [])) = some entry ∧
      entry.fee.toNat = 10000 - 5000 := by
  have evaluated : ((new 1000).insert sampleEnv sampleChoices sampleCoinDb (sampleSpend [])).map
      (fun result => (result.1,
        (result.2.txs.lookup (txHash sampleEnv (sampleSpend []))).isSome)) =
      some (.ok true, true) := by decide +kernel
  obtain ⟨⟨outcome, m'⟩, done, both⟩ := Option.map_eq_some_iff.mp evaluated
  obtain ⟨rfl, pooled⟩ := Prod.mk.inj both
  obtain ⟨entry, found⟩ := Option.isSome_iff_exists.mp pooled
  have sourced : Sourced (new 1000) sampleCoinDb false (sampleSpend []).inputs := by
    intro vin member
    obtain rfl := List.mem_singleton.mp member
    exact Or.inl (by decide +kernel)
  have total : (new 1000).sourceValue sampleCoinDb (sampleSpend []) = 10000 := by decide +kernel
  have created : createdValue (sampleSpend []).outputs = 5000 := by decide +kernel
  have fee := (insert_fee_iff sampleEnv sampleChoices (new 1000) sampleCoinDb (sampleSpend [])
    sourced (by rw [total, created]; decide)).2 m' entry done found
  rw [total, created] at fee
  exact ⟨m', entry, done, found, fee.mpr (by decide +kernel)⟩

end Lyrion.Mempool
