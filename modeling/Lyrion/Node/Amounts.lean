/- GID: Lyrion/Node/Amounts
   digest: What the coinbase of an accepted block pays out, and which transparent blocks are
     accepted. -/

import Lyrion.Node.BlockRules

set_option autoImplicit false
set_option relaxedAutoImplicit false

namespace Lyrion.Node

open Library.ByteCodec Library.KeyValue Data Utils Tx

section Coinbase

def netValue (db : Db) (tx : Transaction) : ℤ :=
  (spentValue db tx.isAnonymous tx.inputs : ℤ) - createdValue tx.outputs

/-- The first transaction is the only coinbase, and it pays out the subsidy and what the others
leave over. -/
def CoinbaseRule (db : Db) (height : Nat) (txs : List Transaction) : Prop :=
  ∃ coinbase rest, txs = coinbase :: rest ∧ isCoinbase coinbase = true ∧
    (∀ tx ∈ rest, isCoinbase tx = false) ∧
    (createdValue coinbase.outputs : ℤ) = (subsidy height).toNat + (rest.map (netValue db)).sum

variable {env : Env} {db : Db} {bestHeight height : Nat} {nowMs : Option Nat} {block : Block}
  {coinbase : Transaction} {rest : List Transaction} {fees : UInt64}

private theorem BlockRules.sum_netValue
    (rules : BlockRules env db bestHeight nowMs block height coinbase rest fees)
    (ordinary : ∀ tx ∈ rest, isCoinbase tx = false) :
    (rest.map (netValue db)).sum = fees.toNat := by
  have each (tx : Transaction) (member : tx ∈ rest) : netValue db tx = storedFee db tx := by
    obtain ⟨transparent, spend⟩ := rules.spends member (ordinary tx member)
    have paid := (storedFee_of_rules transparent spend).1
    rw [netValue, transparent]
    omega
  rw [← rules.total, Nat.cast_list_sum, List.map_map]
  exact congrArg List.sum (List.map_congr_left each)

private theorem BlockRules.createdValue_coinbase
    (rules : BlockRules env db bestHeight nowMs block height coinbase rest fees) :
    createdValue coinbase.outputs =
      (subsidy height).toNat + fees.toNat + createdValue coinbase.outputs.tail := by
  obtain ⟨out, first, amount⟩ := rules.amount
  obtain ⟨later, outputs⟩ := List.head?_eq_some_iff.mp first
  rw [outputs, amount]
  rfl

/-- An accepted block obeys the coinbase rule exactly if no later transaction looks like a coinbase
and the coinbase pays nothing beyond its first output. -/
theorem coinbase_rule_iff (env : Env) (db : Db) (bestHeight : Nat) (nowMs : Option Nat)
    (block : Block) (height : Nat)
    (accepted : validateBlock env db bestHeight nowMs block height = .ok ()) :
    CoinbaseRule db height block.txs ↔
      (∀ tx ∈ block.txs.tail, isCoinbase tx = false) ∧
        ∀ tx ∈ block.txs.head?, createdValue tx.outputs.tail = 0 := by
  obtain ⟨coinbase, rest, fees, rules⟩ := validateBlock_eq_ok.mp accepted
  have paid := rules.createdValue_coinbase
  rw [rules.txs]
  simp only [CoinbaseRule, List.tail_cons, List.head?_cons, Option.mem_def, Option.some.injEq,
    forall_eq']
  constructor
  · rintro ⟨first, later, same, -, ordinary, sum⟩
    obtain ⟨rfl, rfl⟩ := List.cons.inj same
    have left := rules.sum_netValue ordinary
    exact ⟨ordinary, by omega⟩
  · rintro ⟨ordinary, nothing⟩
    have left := rules.sum_netValue ordinary
    exact ⟨coinbase, rest, rfl, rules.shape, ordinary, by omega⟩

end Coinbase

def sampleGreedy : Block :=
  let coinbase := { genesisCoinbase sampleEnv [7] with
    outputs := [⟨10000000000, p2pkhScript sampleEnv [7], none⟩, ⟨5, [], none⟩] }
  ⟨{ genesisHeader sampleEnv [7] 0 with merkleRoot := computeMerkleRoot sampleEnv [coinbase] },
    [coinbase]⟩

theorem second_output_accepted :
    validateBlock sampleEnv (sampleHeaderDb 1) 0 (some 2000000000000) sampleGreedy 1 = .ok () ∧
      ¬ CoinbaseRule (sampleHeaderDb 1) 1 sampleGreedy.txs := by
  refine ⟨by decide +kernel, ?_⟩
  rintro ⟨coinbase, rest, same, -, -, sum⟩
  obtain ⟨rfl, rfl⟩ := List.cons.inj same
  exact absurd sum (by decide)

theorem single_output_obeys :
    CoinbaseRule (sampleHeaderDb 1) 1 (sampleChild zeroHash 10000000000 0).txs :=
  (coinbase_rule_iff sampleEnv (sampleHeaderDb 1) 0 (some 2000000000000)
    (sampleChild zeroHash 10000000000 0) 1 (by decide +kernel)).mpr
      ⟨by decide +kernel, by decide +kernel⟩

section Honest

/-- Commitments to nonzero values are nonzero, and an empty batch of proofs verifies. -/
structure SoundCommitments (env : Env) : Prop where
  commit : ∀ v, env.commit v = 0 ↔ v = 0
  empty : env.verifyBatch [] = some true

/-- A transparent block that obeys the rules on size, work, bits, merkle root, coinbase amount,
time stamp and checkpoint, with valid transactions. -/
structure HonestBlock (env : Env) (db : Db) (bestHeight : Nat) (nowMs : Option Nat) (block : Block)
    (height : Nat) (coinbase : Transaction) (rest : List Transaction) (fees : UInt64) : Prop where
  transparent : ∀ tx ∈ block.txs, tx.isAnonymous = false
  header : ∃ hash, checkHeader env db block height = .ok hash ∧
    checkContext env db nowMs block height hash = .ok ()
  txs : block.txs = coinbase :: rest
  shape : isCoinbase coinbase = true
  valid : ∀ tx ∈ rest, validateTransaction env db bestHeight tx height = .ok ()
  total : (rest.map (storedFee db)).sum = fees.toNat
  amount : ∃ out, coinbase.outputs.head? = some out ∧
    (subsidy height).toNat + fees.toNat = out.value.toNat

variable {env : Env} {db : Db} {bestHeight height : Nat} {nowMs : Option Nat} {block : Block}
  {coinbase : Transaction} {rest : List Transaction} {fees : UInt64}

private theorem checkCommitments_transparent (sound : SoundCommitments env)
    (anonOutputs : Map Outpoint TXOutput) {txs : List Transaction}
    (transparent : ∀ tx ∈ txs, tx.isAnonymous = false) :
    checkCommitments env anonOutputs fees txs = .ok () ↔ fees = 0 := by
  have parts : txs.mapM (commitmentsOf env anonOutputs) =
      .ok (txs.map fun _ => ([], [], [])) := by
    induction txs with
    | nil => rfl
    | cons tx txs ih =>
        obtain ⟨first, later⟩ := List.forall_mem_cons.mp transparent
        have none_here : commitmentsOf env anonOutputs tx = .ok ([], [], []) := by
          rw [commitmentsOf, first]
          rfl
        rw [List.mapM_cons, none_here, ih later]
        rfl
  have balance : env.commit 0 ≠ env.commit 0 + env.commit fees ↔ ¬ fees = 0 := by
    rw [ne_eq, left_eq_add, sound.commit]
  have nothing (β : Type) : (txs.flatMap fun _ => ([] : List β)) = [] := by simp
  simp only [checkCommitments, parts, bind_eq_ok, Except.ok.injEq, exists_eq_left',
    List.flatMap_map, nothing, fail_bind, guard_eq_ok, pure_eq_ok, and_true, sumPoints,
    List.foldl_nil, sound.empty, balance, not_not]
  simp

private theorem HonestBlock.feeless_iff
    (honest : HonestBlock env db bestHeight nowMs block height coinbase rest fees) :
    fees = 0 ↔ ∀ tx ∈ rest, isCoinbase tx = true ∧ storedFee db tx = 0 := by
  have sized (tx : Transaction) (member : tx ∈ rest) : tx.size < 2 ^ 64 := by
    obtain ⟨hash, header, -⟩ := honest.header
    simp only [checkHeader, fail_bind, guard_eq_ok, not_lt] at header
    have part := size_le_block_size (honest.txs ▸ List.mem_cons_of_mem coinbase member)
    have limit := header.1
    unfold maxBlockSize at limit
    omega
  rw [← UInt64.toNat_inj, ← honest.total, UInt64.toNat_zero, List.sum_eq_zero_iff,
    List.forall_mem_map]
  constructor
  · intro nothing tx member
    refine ⟨?_, nothing tx member⟩
    by_contra ordinary
    obtain ⟨transparent, spend⟩ := validateTransaction_shape (Bool.not_eq_true _ ▸ ordinary)
      (sized tx member) (honest.valid tx member)
    have paid := (storedFee_of_rules transparent spend).2
    have positive := size_pos tx
    have perByte : minFeePerByte.toNat = 10 := rfl
    rw [nothing tx member, perByte] at paid
    omega
  · exact fun free tx member => (free tx member).2

private theorem inputsOf_transparent (transparent : ∀ tx ∈ rest, tx.isAnonymous = false) :
    inputsOf true rest = [] := by
  have none_left : (rest.filter fun tx => tx.isAnonymous = true) = [] := by
    rw [List.filter_eq_nil_iff]
    intro tx member
    simp [transparent tx member]
  rw [inputsOf, none_left]
  rfl

/-- An honest transparent block is accepted exactly if no later transaction pays a fee, which leaves
only coinbases: the block's commitments must balance the fees without the transparent amounts. -/
theorem honest_block_accepted_iff (env : Env) (db : Db) (bestHeight : Nat) (nowMs : Option Nat)
    (block : Block) (height : Nat) (coinbase : Transaction) (rest : List Transaction)
    (fees : UInt64) (sound : SoundCommitments env)
    (honest : HonestBlock env db bestHeight nowMs block height coinbase rest fees) :
    validateBlock env db bestHeight nowMs block height = .ok () ↔
      ∀ tx ∈ rest, isCoinbase tx = true ∧ storedFee db tx = 0 ∧ Readable db false tx.inputs := by
  have every : ∀ tx ∈ coinbase :: rest, tx.isAnonymous = false := honest.txs ▸ honest.transparent
  have later := (List.forall_mem_cons.mp every).2
  have transparent : inputsOf false rest = rest.flatMap Transaction.inputs := by
    rw [inputsOf, List.filter_eq_self.mpr fun tx member => by simp [later tx member]]
  constructor
  · intro accepted
    obtain ⟨first, others, total, rules⟩ := validateBlock_eq_ok.mp accepted
    obtain ⟨rfl, rfl⟩ := List.cons.inj (rules.txs.symm.trans honest.txs)
    obtain ⟨anonOutputs, -, balanced⟩ := rules.commitments
    have same : total = fees := UInt64.toNat_inj.mp (rules.total.symm.trans honest.total)
    have free := (checkCommitments_transparent sound anonOutputs every).mp balanced
    have readable := rules.readable false
    rw [transparent] at readable
    intro tx member
    obtain ⟨shape, nothing⟩ := honest.feeless_iff.mp (same ▸ free) tx member
    exact ⟨shape, nothing, fun vin input => readable vin (List.mem_flatMap.mpr ⟨tx, member, input⟩)⟩
  · intro free
    have readable : ∀ isAnonymous, Readable db isAnonymous (inputsOf isAnonymous rest) := by
      rintro (_ | _)
      · rw [transparent]
        intro vin input
        obtain ⟨tx, member, inside⟩ := List.mem_flatMap.mp input
        exact (free tx member).2.2 vin inside
      · rw [inputsOf_transparent later]
        exact fun vin input => absurd input List.not_mem_nil
    obtain ⟨anonOutputs, anonymous⟩ := collectOutputs_readable.mpr (readable true)
    have nothing := honest.feeless_iff.mpr fun tx member =>
      ⟨(free tx member).1, (free tx member).2.1⟩
    exact validateBlock_eq_ok.mpr ⟨coinbase, rest, fees, honest.header, honest.txs, honest.shape,
      readable, honest.valid, honest.total, honest.amount, anonOutputs, anonymous,
      (checkCommitments_transparent sound anonOutputs every).mpr nothing⟩

end Honest

private theorem sampleEnv_sound : SoundCommitments sampleEnv where
  commit v := by
    show ((v.toNat : ℤ) = 0) ↔ v = 0
    rw [← UInt64.toNat_inj, UInt64.toNat_zero]
    omega
  empty := rfl

def sampleReward (fees : UInt64) : Transaction :=
  { genesisCoinbase sampleEnv [7] with
    outputs := [⟨10000000000 + fees, p2pkhScript sampleEnv [7], none⟩] }

def samplePaying (fees : UInt64) (txs : List Transaction) : Block :=
  ⟨{ genesisHeader sampleEnv [7] 0 with
      merkleRoot := computeMerkleRoot sampleEnv (sampleReward fees :: txs) },
    sampleReward fees :: txs⟩

def samplePayingDb : Db :=
  write sampleCoinDb
    [putCf .default (headerKey 0) (headerCodec.encode (genesisHeader sampleEnv [7] 0))]

private theorem samplePaying_honest :
    HonestBlock sampleEnv samplePayingDb 0 (some 2000000000000)
      (samplePaying 5000 [sampleSpend []]) 1 (sampleReward 5000) [sampleSpend []] 5000 where
  transparent := by decide +kernel
  header := ⟨(sampleEnv.powHash (headerCodec.encode
    (samplePaying 5000 [sampleSpend []]).header)).getD zeroHash, by decide +kernel,
    by decide +kernel⟩
  txs := rfl
  shape := by decide +kernel
  valid := by decide +kernel
  total := by decide +kernel
  amount := ⟨_, rfl, by decide +kernel⟩

/-- A block with one fee is refused: its commitments are empty and the fee is not. -/
theorem paying_block_refused :
    SoundCommitments sampleEnv ∧
      HonestBlock sampleEnv samplePayingDb 0 (some 2000000000000)
        (samplePaying 5000 [sampleSpend []]) 1 (sampleReward 5000) [sampleSpend []] 5000 ∧
      validateBlock sampleEnv samplePayingDb 0 (some 2000000000000)
        (samplePaying 5000 [sampleSpend []]) 1 = fail .invalidCommitment :=
  ⟨sampleEnv_sound, samplePaying_honest, by decide +kernel⟩

def sampleLookalike (isAnonymous : Bool) (outputs : List TXOutput) : Transaction where
  version := 1
  isAnonymous := isAnonymous
  inputs := [⟨zeroHash, maxU32, [], maxU32⟩]
  outputs := outputs
  lockTime := 0
  rangeProofs := []

private theorem sampleLookalike_honest :
    HonestBlock sampleEnv samplePayingDb 0 (some 2000000000000)
      (samplePaying 0 [sampleLookalike false [⟨7, [], none⟩]]) 1 (sampleReward 0)
      [sampleLookalike false [⟨7, [], none⟩]] 0 where
  transparent := by decide +kernel
  header := ⟨(sampleEnv.powHash (headerCodec.encode
    (samplePaying 0 [sampleLookalike false [⟨7, [], none⟩]]).header)).getD zeroHash,
    by decide +kernel, by decide +kernel⟩
  txs := rfl
  shape := by decide +kernel
  valid := by decide +kernel
  total := by decide +kernel
  amount := ⟨_, rfl, by decide +kernel⟩

theorem feeless_block_accepted :
    validateBlock sampleEnv samplePayingDb 0 (some 2000000000000)
      (samplePaying 0 [sampleLookalike false [⟨7, [], none⟩]]) 1 = .ok () := by
  refine (honest_block_accepted_iff sampleEnv samplePayingDb 0 (some 2000000000000)
    (samplePaying 0 [sampleLookalike false [⟨7, [], none⟩]]) 1 (sampleReward 0)
    [sampleLookalike false [⟨7, [], none⟩]] 0 sampleEnv_sound sampleLookalike_honest).mpr ?_
  intro tx member
  obtain rfl := List.mem_singleton.mp member
  refine ⟨by decide, by decide +kernel, fun vin input bytes found => ?_⟩
  obtain rfl := List.mem_singleton.mp input
  have missing : get samplePayingDb (coinFamily false) (coinKey false zeroHash maxU32) = none := by
    decide +kernel
  exact absurd (found.symm.trans missing) (by simp)

section Agreement

/-- The input sum and the output sum that `validate_transaction` computes; for a coinbase it returns
before it has any. -/
structure ComputesSums (env : Env) (db : Db) (tx : Transaction) (inputSum outputSum : UInt64) :
    Prop where
  ordinary : isCoinbase tx = false
  spent : inputSumOf env db tx = .ok inputSum
  created : checkedSum (tx.outputs.map TXOutput.value) = some outputSum

/-- `Transaction::fee` over the collected outputs is the exact difference of the two sums, and no
input is missing from the collected outputs. -/
structure FeeAgrees (env : Env) (db : Db) (outputs : Map Outpoint TXOutput) (tx : Transaction)
    (difference : Nat) : Prop where
  sums : ∃ inputSum outputSum, ComputesSums env db tx inputSum outputSum ∧
    difference + outputSum.toNat = inputSum.toNat
  present : ∀ vin ∈ tx.inputs, vin.outpoint ∈ outputs
  counted : (fee tx outputs).toNat = difference

/-- Both computations agree on every transaction that is no coinbase, and the first output of the
first transaction is the subsidy and the differences. -/
def FeesAgree (env : Env) (db : Db) (height : Nat) (txs : List Transaction) : Prop :=
  ∃ utxos anonOutputs differences, collectOutputs db false txs.tail ∅ = .ok utxos ∧
    collectOutputs db true txs.tail ∅ = .ok anonOutputs ∧
    List.Forall₂ (fun tx difference =>
        FeeAgrees env db (if tx.isAnonymous then anonOutputs else utxos) tx difference)
      (ordinaryTxs txs.tail) differences ∧
    ∃ coinbase out, txs.head? = some coinbase ∧ coinbase.outputs.head? = some out ∧
      out.value.toNat = (subsidy height).toNat + differences.sum

variable {env : Env} {db : Db} {bestHeight height : Nat} {nowMs : Option Nat} {block : Block}
  {coinbase : Transaction} {rest : List Transaction} {fees : UInt64}

private theorem computesSums_of_rules {tx : Transaction} (ordinary : isCoinbase tx = false)
    (transparent : tx.isAnonymous = false) (rules : SpendRules db bestHeight height tx) :
    ∃ inputSum outputSum, ComputesSums env db tx inputSum outputSum ∧
      storedFee db tx + outputSum.toNat = inputSum.toNat := by
  have left := (storedFee_of_rules transparent rules).1
  have bounded := rules.bounded
  have spent : (UInt64.ofNat (spentValue db false tx.inputs)).toNat =
      spentValue db false tx.inputs := UInt64.toNat_ofNat_of_lt' bounded
  have created : (UInt64.ofNat (createdValue tx.outputs)).toNat = createdValue tx.outputs :=
    UInt64.toNat_ofNat_of_lt' (show createdValue tx.outputs < 2 ^ 64 by omega)
  obtain ⟨gathered, found⟩ := (gatherUtxos_eq_ok db tx.inputs 0
    (UInt64.ofNat (spentValue db false tx.inputs)) ∅).mpr ⟨rules.present, by rw [spent]; simp⟩
  refine ⟨UInt64.ofNat (spentValue db false tx.inputs), _,
    ⟨ordinary, ?_, createdValue_eq_checkedSum.mpr created.symm⟩, ?_⟩
  · rw [inputSumOf, if_neg (by simp [transparent]), found]
    rfl
  · rw [created, spent, left]

private theorem BlockRules.feeAgrees
    (rules : BlockRules env db bestHeight nowMs block height coinbase rest fees)
    {utxos anonOutputs : Map Outpoint TXOutput}
    (transparent : collectOutputs db false rest ∅ = .ok utxos) {tx : Transaction}
    (member : tx ∈ rest) (ordinary : isCoinbase tx = false) :
    FeeAgrees env db (if tx.isAnonymous then anonOutputs else utxos) tx (storedFee db tx) := by
  obtain ⟨kind, spend⟩ := rules.spends member ordinary
  have coins (vin : TXInput) (input : vin ∈ tx.inputs) :
      utxos.lookup vin.outpoint = storedCoin db false vin := by
    have inside := mem_inputsOf member input
    rw [kind] at inside
    exact (collectOutputs_collects agrees_empty transparent).found vin inside
  rw [if_neg (by simp [kind])]
  refine ⟨computesSums_of_rules ordinary kind spend, ?_, toNat_fee (kind ▸ coins)⟩
  intro vin input
  obtain ⟨out, stored⟩ := Option.isSome_iff_exists.mp (spend.present vin input)
  exact Finmap.mem_iff.mpr ⟨out, (coins vin input).trans stored⟩

private theorem sum_storedFee (txs : List Transaction) :
    (txs.map (storedFee db)).sum = ((ordinaryTxs txs).map (storedFee db)).sum +
      ((txs.filter isCoinbase).map (storedFee db)).sum := by
  unfold ordinaryTxs
  induction txs with
  | nil => rfl
  | cons tx txs ih =>
      cases kind : isCoinbase tx with
      | true =>
          rw [List.filter_cons_of_neg (by simp [kind]), List.filter_cons_of_pos kind, List.map_cons,
            List.sum_cons, List.map_cons, List.sum_cons, ih]
          omega
      | false =>
          rw [List.filter_cons_of_pos (by simp [kind]), List.filter_cons_of_neg (by simp [kind]),
            List.map_cons, List.sum_cons, List.map_cons, List.sum_cons, ih]
          omega

/-- In an accepted block both fee computations agree on every ordinary transaction, and the coinbase
takes exactly their fees, if and only if nothing is counted for a later transaction that looks like
a coinbase: such a one is added to the fee total although it was never validated. -/
theorem fees_agree_iff (env : Env) (db : Db) (bestHeight : Nat) (nowMs : Option Nat)
    (block : Block) (height : Nat)
    (accepted : validateBlock env db bestHeight nowMs block height = .ok ()) :
    FeesAgree env db height block.txs ↔
      ∀ tx ∈ block.txs.tail, isCoinbase tx = true → storedFee db tx = 0 := by
  obtain ⟨coinbase, rest, fees, rules⟩ := validateBlock_eq_ok.mp accepted
  obtain ⟨out, first, amount⟩ := rules.amount
  have total := rules.total
  rw [sum_storedFee] at total
  have nothing : ((rest.filter isCoinbase).map (storedFee db)).sum = 0 ↔
      ∀ tx ∈ rest, isCoinbase tx = true → storedFee db tx = 0 := by
    rw [List.sum_eq_zero_iff, List.forall_mem_map]
    simp only [List.mem_filter, and_imp]
  have member (tx : Transaction) (inside : tx ∈ ordinaryTxs rest) :
      tx ∈ rest ∧ isCoinbase tx = false := by
    simpa [ordinaryTxs] using inside
  rw [rules.txs, List.tail_cons, ← nothing, FeesAgree, List.tail_cons]
  constructor
  · rintro ⟨utxos, anonOutputs, differences, transparent, -, agree, first', out', head, found, sum⟩
    obtain rfl := Option.some.inj head
    obtain rfl := Option.some.inj (first.symm.trans found)
    have counted : List.Forall₂ (fun tx difference => storedFee db tx = difference)
        (ordinaryTxs rest) differences := by
      refine ((List.forall₂_and_left _ _).mpr ⟨member, agree⟩).imp ?_
      rintro tx difference ⟨⟨inside, ordinary⟩, agrees⟩
      exact (rules.feeAgrees transparent inside ordinary).counted.symm.trans agrees.counted
    have same : (ordinaryTxs rest).map (storedFee db) = differences :=
      List.forall₂_eq_eq_eq ▸ List.forall₂_map_left_iff.mpr counted
    rw [← same] at sum
    omega
  · intro none_counted
    obtain ⟨utxos, transparent⟩ := collectOutputs_readable.mpr (rules.readable false)
    obtain ⟨anonOutputs, anonymous⟩ := collectOutputs_readable.mpr (rules.readable true)
    refine ⟨utxos, anonOutputs, (ordinaryTxs rest).map (storedFee db), transparent, anonymous, ?_,
      coinbase, out, rfl, first, by omega⟩
    rw [List.forall₂_map_right_iff, List.forall₂_same]
    intro tx inside
    exact rules.feeAgrees transparent (member tx inside).1 (member tx inside).2

end Agreement

/-- The sample header with an anonymous coin of 5 under the outpoint that coinbases refer to. -/
def sampleNullDb : Db :=
  write (sampleHeaderDb 1)
    [putCf .anonymous (coinKey true zeroHash maxU32)
      (txOutputCodec.encode ⟨5, [], some (beBytes 32 5)⟩)]

/-- The coinbase takes 5 that no validated transaction has left over. Where there is no such coin,
the outputs of a second coinbase go unnoticed, since its missing input counts 0. -/
theorem lookalike_fee_taken :
    validateBlock sampleEnv sampleNullDb 0 (some 2000000000000)
        (samplePaying 5 [sampleLookalike true []]) 1 = .ok () ∧
      ordinaryTxs (samplePaying 5 [sampleLookalike true []]).txs.tail = [] ∧
      ¬ FeesAgree sampleEnv sampleNullDb 1 (samplePaying 5 [sampleLookalike true []]).txs ∧
      validateBlock sampleEnv (sampleHeaderDb 1) 0 (some 2000000000000)
        (samplePaying 0 [sampleLookalike false [⟨7, [], none⟩]]) 1 = .ok () ∧
      fee (sampleLookalike false [⟨7, [], none⟩]) ∅ = 0 := by
  refine ⟨by decide +kernel, by decide +kernel, ?_, by decide +kernel, by decide +kernel⟩
  rintro ⟨utxos, anonOutputs, differences, -, -, agree, coinbase, out, first, found, sum⟩
  obtain rfl := Option.some.inj first
  obtain rfl := Option.some.inj found
  obtain rfl : differences = [] := List.forall₂_nil_left_iff.mp agree
  exact absurd sum (by decide)

def sampleUncommitted : Env := { sampleEnv with commit := fun _ => 0 }

theorem paid_fee_agrees :
    FeesAgree sampleUncommitted samplePayingDb 1
      (samplePaying 5000 [sampleSpend [], sampleLookalike false [⟨7, [], none⟩]]).txs :=
  (fees_agree_iff sampleUncommitted samplePayingDb 0 (some 2000000000000)
    (samplePaying 5000 [sampleSpend [], sampleLookalike false [⟨7, [], none⟩]]) 1
    (by decide +kernel)).mpr (by decide +kernel)

end Lyrion.Node
