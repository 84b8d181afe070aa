/- GID: Lyrion/Miner/Template
   digest: The size of an assembled block, and its coinbase value against validation. -/

import Lyrion.Mempool.Blocks
import Lyrion.Mempool.Selection
import Lyrion.Miner

set_option autoImplicit false
set_option relaxedAutoImplicit false

namespace Lyrion.Miner

open Library.ByteCodec Library.KeyValue Data Utils Tx Node
open Lyrion.Mempool (totalSize)

variable {env : Env} {choices : Choices} {c : Chain} {m : Mempool} {extra : Vector UInt8 8}
  {pubkey : Bytes} {customDest : Option Bytes} {template : Template}

private theorem fee_empty (tx : Transaction) : fee tx ∅ = 0 := by
  have inputs : checkedSum (tx.inputs.map fun vin =>
      (((∅ : Map Outpoint TXOutput).lookup vin.outpoint).map TXOutput.value).getD 0) = some 0 := by
    rw [checkedSum_eq_some]
    simp
  rw [fee, inputs]
  cases checkedSum (tx.outputs.map TXOutput.value) with
  | none => rfl
  | some outputSum =>
      show saturatingSub 0 outputSum = 0
      unfold saturatingSub
      split
      case isTrue none_spent =>
        have nothing : outputSum = 0 := UInt64.toNat_inj.mp (Nat.le_zero.mp none_spent)
        rw [nothing]
        rfl
      case isFalse => rfl

private theorem minerFees_eq (selected : List Transaction) : minerFees selected = some 0 := by
  rw [minerFees, checkedSum_eq_some]
  simp [fee_empty]

theorem assemble_eq_ok
    (built : assemble env choices c m extra pubkey customDest = .ok template) :
    template.prevHash = c.bestTip ∧ template.height = c.bestHeight + 1 ∧
      calculateNextBits c.db template.height = .ok template.bits ∧
      compactToTarget template.bits = .ok template.target ∧
      m.selectTxs choices (maxBlockSize - 1000) = .ok template.selected ∧
      template.coinbase = templateCoinbase env template.height extra pubkey customDest
        (subsidy template.height) ∧
      template.merkleRoot = computeMerkleRoot env template.txs := by
  simp only [assemble, bind_eq_ok, orPanic_eq_ok, orFail_eq_ok, pure_eq_ok, minerFees_eq,
    Option.some.injEq, exists_eq_left'] at built
  obtain ⟨bits, next, selected, chosen, value, sum, target, compact, rfl⟩ := built
  have whole : value = subsidy (c.bestHeight + 1) := by
    have := checkedAdd_eq_some.mp sum
    exact UInt64.toNat_inj.mp (by simpa using this.symm)
  subst whole
  exact ⟨rfl, rfl, next, compact, chosen, rfl, rfl⟩

/-! The size of a block. -/

private theorem block_size (block : Block) : block.size = 92 + totalSize block.txs := by
  rw [Block.size_eq, List.length_flatMap, totalSize]
  rfl

private theorem length_p2pkhScript (pubkey : Bytes) : (p2pkhScript env pubkey).length = 25 := by
  simp [p2pkhScript]

private theorem templateCoinbase_size (height : Nat) (value : UInt64) :
    (templateCoinbase env height extra pubkey customDest value).size = 139 := by
  simp [Transaction.size_eq, templateCoinbase, createCoinbase, length_encode_txInput, txOutputCodec,
    Codec.encode_iso, Codec.encode_pair, Codec.length_encode_u64, Codec.length_encode_bytes,
    Codec.length_encode_none, length_p2pkhScript]

/-- The selection for any size stays within it and never underflows, and every block over a
template is within the limit of block validation. -/
theorem assembled_block_fits (env : Env) (choices : Choices) (m : Mempool) :
    (∀ maxSize, ∃ txs, m.selectTxs choices maxSize = .ok txs ∧ totalSize txs ≤ maxSize) ∧
      ∀ (c : Chain) extra pubkey customDest template header,
        assemble env choices c m extra pubkey customDest = .ok template →
          Block.size ⟨header, template.txs⟩ ≤ maxBlockSize := by
  refine ⟨m.exists_selectTxs choices, fun c extra pubkey customDest template header built => ?_⟩
  obtain ⟨-, -, -, -, chosen, coinbase, -⟩ := assemble_eq_ok built
  obtain ⟨txs, selected, small⟩ := m.exists_selectTxs choices (maxBlockSize - 1000)
  obtain rfl := Except.ok.inj (chosen.symm.trans selected)
  have sizes : totalSize template.txs = template.coinbase.size + totalSize template.selected := rfl
  have reward : template.coinbase.size = 139 := by rw [coinbase, templateCoinbase_size]
  have limit : maxBlockSize = 4000000 := rfl
  rw [block_size, sizes, reward]
  omega

/-- The template of the first round over a pool that one transaction has come to. -/
def sampleTemplate (tx : Transaction) : Option Template :=
  ((Mempool.new 1000).run sampleEnv [.insert Mempool.sampleChoices sampleCoinDb tx]).bind fun m =>
    (assemble sampleEnv Mempool.sampleChoices Mempool.sampleFunded m (Vector.replicate 8 0) [7]
      none).toOption

private theorem sampleTemplate_built {tx : Transaction} {template : Template}
    (found : sampleTemplate tx = some template) :
    ∃ m, (Mempool.new 1000).run sampleEnv [.insert Mempool.sampleChoices sampleCoinDb tx] = some m ∧
      assemble sampleEnv Mempool.sampleChoices Mempool.sampleFunded m (Vector.replicate 8 0) [7]
        none = .ok template := by
  obtain ⟨m, done, built⟩ := Option.bind_eq_some_iff.mp found
  exact ⟨m, done, toOption_eq_some.mp built⟩

theorem sample_block_fits :
    ∃ m template,
      assemble sampleEnv Mempool.sampleChoices Mempool.sampleFunded m (Vector.replicate 8 0) [7]
        none = .ok template ∧
      template.selected = [sampleSpend []] ∧
      Block.size ⟨genesisHeader sampleEnv [7] 0, template.txs⟩ ≤ maxBlockSize := by
  have evaluated : (sampleTemplate (sampleSpend [])).map Template.selected =
      some [sampleSpend []] := by decide +kernel
  obtain ⟨template, found, selected⟩ := Option.map_eq_some_iff.mp evaluated
  obtain ⟨m, -, built⟩ := sampleTemplate_built found
  have fits := assembled_block_fits sampleEnv Mempool.sampleChoices m
  exact ⟨m, template, built, selected, fits.2 Mempool.sampleFunded _ _ _ template _ built⟩

/-! The coinbase value. -/

/-- The value that `validate_block` compares the first coinbase output with. -/
def expectedValue (db : Db) (txs : List Transaction) (height : Nat) : Result UInt64 := do
  let utxos ← collectOutputs db false txs ∅
  let anonOutputs ← collectOutputs db true txs ∅
  let fees ← orFail .invalidCoinbaseFee (totalFees utxos anonOutputs txs)
  orFail .invalidCoinbaseFee (checkedAdd (subsidy height) fees)

theorem checkTransactions_expected {db : Db} {bestHeight height : Nat} {coinbase : Transaction}
    {rest : List Transaction}
    (passed : checkTransactions env db bestHeight coinbase rest height = .ok ()) :
    ∃ value, expectedValue db rest height = .ok value ∧
      coinbase.outputs.head?.map TXOutput.value = some value := by
  simp only [checkTransactions, fail_bind, guard_eq_ok, bind_eq_ok, exists_done, orFail_eq_ok,
    not_not] at passed
  obtain ⟨utxos, transparent, anonOutputs, anonymous, -, fees, total, expected, sum, amount, -⟩ :=
    passed
  refine ⟨expected, ?_, amount⟩
  simp only [expectedValue, bind_eq_ok, orFail_eq_ok]
  exact ⟨utxos, transparent, anonOutputs, anonymous, fees, total, sum⟩

private theorem expectedValue_eq_ok {db : Db} {txs : List Transaction} {height : Nat}
    {value : UInt64} :
    expectedValue db txs height = .ok value ↔
      (∀ isAnonymous, Readable db isAnonymous (inputsOf isAnonymous txs)) ∧
        (subsidy height).toNat + (txs.map (storedFee db)).sum = value.toNat := by
  simp only [expectedValue, bind_eq_ok, orFail_eq_ok]
  constructor
  · rintro ⟨utxos, transparent, anonOutputs, anonymous, fees, total, sum⟩
    refine ⟨?_, ?_⟩
    · rintro (_ | _)
      · exact collectOutputs_readable.mp ⟨utxos, transparent⟩
      · exact collectOutputs_readable.mp ⟨anonOutputs, anonymous⟩
    · rw [(totalFees_eq_some transparent anonymous).mp total]
      exact checkedAdd_eq_some.mp sum
  · rintro ⟨readable, sum⟩
    obtain ⟨utxos, transparent⟩ := collectOutputs_readable.mpr (readable false)
    obtain ⟨anonOutputs, anonymous⟩ := collectOutputs_readable.mpr (readable true)
    have small : (txs.map (storedFee db)).sum < 2 ^ 64 := by
      have := value.toNat_lt
      omega
    have word := UInt64.toNat_ofNat_of_lt' small
    refine ⟨utxos, transparent, anonOutputs, anonymous, UInt64.ofNat (txs.map (storedFee db)).sum,
      (totalFees_eq_some transparent anonymous).mpr word.symm, checkedAdd_eq_some.mpr ?_⟩
    rw [word, sum]

/-- Over confirmed outputs, the coinbase value of a template is what validation expects exactly when
the selected transactions pay no fees at all. -/
theorem template_value_iff (env : Env) (choices : Choices) (c : Chain) (m : Mempool)
    (extra : Vector UInt8 8) (pubkey : Bytes) (customDest : Option Bytes) (template : Template)
    (built : assemble env choices c m extra pubkey customDest = .ok template)
    (confirmed : ∀ tx ∈ template.selected, ∀ vin ∈ tx.inputs,
      (storedCoin c.db tx.isAnonymous vin).isSome) :
    (∃ value, template.coinbase.outputs.head?.map TXOutput.value = some value ∧
      expectedValue c.db template.selected template.height = .ok value) ↔
        ∀ tx ∈ template.selected, storedFee c.db tx = 0 := by
  obtain ⟨-, -, -, -, -, coinbase, -⟩ := assemble_eq_ok built
  have value : template.coinbase.outputs.head?.map TXOutput.value =
      some (subsidy template.height) := by
    rw [coinbase]
    rfl
  have readable : ∀ isAnonymous,
      Readable c.db isAnonymous (inputsOf isAnonymous template.selected) := by
    intro isAnonymous vin member bytes found
    obtain ⟨tx, listed, input⟩ := List.mem_flatMap.mp member
    obtain ⟨inside, kind⟩ := List.mem_filter.mp listed
    have stored := confirmed tx inside vin input
    rw [of_decide_eq_true kind, storedCoin, found, Option.bind_some] at stored
    exact stored
  rw [value]
  simp only [Option.some.injEq, exists_eq_left', expectedValue_eq_ok]
  constructor
  · rintro ⟨-, sum⟩ tx member
    have nothing : (template.selected.map (storedFee c.db)).sum = 0 := by omega
    exact List.sum_eq_zero_iff.mp nothing _ (List.mem_map_of_mem member)
  · intro nothing
    refine ⟨readable, ?_⟩
    have sum : (template.selected.map (storedFee c.db)).sum = 0 := by
      refine List.sum_eq_zero_iff.mpr fun x listed => ?_
      obtain ⟨tx, member, rfl⟩ := List.mem_map.mp listed
      exact nothing tx member
    omega

/-- A spend that leaves 5000 over is selected, and the template does not take them. -/
theorem template_misses_fee :
    ∃ m template,
      (Mempool.new 1000).run sampleEnv
        [.insert Mempool.sampleChoices sampleCoinDb (sampleSpend [])] = some m ∧
      assemble sampleEnv Mempool.sampleChoices Mempool.sampleFunded m (Vector.replicate 8 0) [7]
        none = .ok template ∧
      template.selected = [sampleSpend []] ∧
      (∀ vin ∈ (sampleSpend []).inputs,
        (storedCoin Mempool.sampleFunded.db false vin).isSome = true) ∧
      template.coinbase.outputs.head?.map TXOutput.value = some 10000000000 ∧
      expectedValue Mempool.sampleFunded.db template.selected template.height =
        .ok 10000005000 := by
  have evaluated : (sampleTemplate (sampleSpend [])).map (fun t =>
      (t.selected, t.coinbase.outputs.head?.map TXOutput.value, t.height)) =
        some ([sampleSpend []], some 10000000000, 1) := by decide +kernel
  obtain ⟨template, found, parts⟩ := Option.map_eq_some_iff.mp evaluated
  obtain ⟨selected, rest⟩ := Prod.mk.inj parts
  obtain ⟨value, height⟩ := Prod.mk.inj rest
  obtain ⟨m, done, built⟩ := sampleTemplate_built found
  refine ⟨m, template, done, built, selected, by decide +kernel, value, ?_⟩
  rw [selected, height]
  decide +kernel

theorem feeless_template_matches :
    ∃ m template,
      (Mempool.new 1000).run sampleEnv [.insert Mempool.sampleChoices sampleCoinDb
        { sampleSpend [] with outputs := [sampleCoin] }] = some m ∧
      assemble sampleEnv Mempool.sampleChoices Mempool.sampleFunded m (Vector.replicate 8 0) [7]
        none = .ok template ∧
      template.selected.length = 1 ∧
      ∃ value, template.coinbase.outputs.head?.map TXOutput.value = some value ∧
        expectedValue Mempool.sampleFunded.db template.selected template.height = .ok value := by
  have evaluated : (sampleTemplate { sampleSpend [] with outputs := [sampleCoin] }).map
      Template.selected = some [{ sampleSpend [] with outputs := [sampleCoin] }] := by
    decide +kernel
  obtain ⟨template, found, selected⟩ := Option.map_eq_some_iff.mp evaluated
  obtain ⟨m, done, built⟩ := sampleTemplate_built found
  refine ⟨m, template, done, built, by rw [selected]; rfl, ?_⟩
  refine (template_value_iff sampleEnv Mempool.sampleChoices Mempool.sampleFunded m
    (Vector.replicate 8 0) [7] none template built ?_).mpr ?_
  · rw [selected]
    decide +kernel
  · rw [selected]
    decide +kernel

end Lyrion.Miner
