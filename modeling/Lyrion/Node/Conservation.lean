/- GID: Lyrion/Node/Conservation
   digest: How an accepted block moves the total value of the coin stores. -/

import Lyrion.Node.Coins
import Lyrion.Node.Validate

set_option autoImplicit false
set_option relaxedAutoImplicit false

namespace Lyrion.Node

open Library.ByteCodec Library.KeyValue Data Utils Tx

variable {block : Block} {tx : Transaction} {bestHeight : Nat}

variable {env : Env}

section Sizes

theorem length_encode_le_flatMap {α : Type} (c : Codec α) {a : α} {as : List α}
    (member : a ∈ as) : (c.encode a).length ≤ (as.flatMap c.encode).length := by
  obtain ⟨front, back, rfl⟩ := List.append_of_mem member
  simp only [List.flatMap_append, List.flatMap_cons, List.length_append]
  omega

theorem size_le_block_size (member : tx ∈ block.txs) : tx.size ≤ block.size := by
  have part := length_encode_le_flatMap transactionCodec member
  rw [Block.size_eq, Transaction.size]
  omega

theorem output_size_le {out : TXOutput} (member : out ∈ tx.outputs) :
    (txOutputCodec.encode out).length ≤ tx.size := by
  have part := length_encode_le_flatMap txOutputCodec member
  rw [Transaction.size_eq]
  omega

end Sizes

structure AcceptedTxs (env : Env) (db : Db) (bestHeight height : Nat) (block : Block) : Prop where
  size : block.size ≤ maxBlockSize
  coinbase : ∃ first rest, block.txs = first :: rest ∧ isCoinbase first = true
  valid : ∀ tx ∈ block.txs.tail, validateTransaction env db bestHeight tx height = .ok ()

theorem validateBlock_txs {db : Db} {height : Nat} {nowMs : Option Nat}
    (accepted : validateBlock env db bestHeight nowMs block height = .ok ()) :
    AcceptedTxs env db bestHeight height block := by
  simp only [validateBlock, bind_eq_ok] at accepted
  obtain ⟨hash, header, rest⟩ := accepted
  have size : block.size ≤ maxBlockSize := by
    simp only [checkHeader, fail_bind, guard_eq_ok] at header
    exact Nat.not_lt.mp header.1
  cases txs : block.txs with
  | nil => simp [txs] at rest
  | cons first later =>
      simp only [txs, fail_bind, guard_eq_ok, bind_eq_ok, exists_done, checkTransactions,
        Bool.not_eq_true', Bool.not_eq_false] at rest
      obtain ⟨coinbase, ⟨_, -, _, -, valid, -⟩, -⟩ := rest
      exact ⟨size, ⟨first, later, txs, coinbase⟩, by simpa [txs] using forM_eq_ok.mp valid⟩

theorem AcceptedTxs.shape {db : Db} {height : Nat}
    (accepted : AcceptedTxs env db bestHeight height block) (member : tx ∈ block.txs)
    (ordinary : isCoinbase tx = false) :
    tx.isAnonymous = false ∧ SpendRules db bestHeight height tx := by
  obtain ⟨first, later, txs, coinbase⟩ := accepted.coinbase
  have tail : tx ∈ block.txs.tail := by
    rw [txs] at member ⊢
    rcases List.mem_cons.mp member with rfl | member
    · exact absurd (coinbase.symm.trans ordinary) (by simp)
    · exact member
  have sized : tx.size < 2 ^ 64 := by
    have bound := size_le_block_size member
    have limit := accepted.size
    unfold maxBlockSize at limit
    omega
  exact validateTransaction_shape ordinary sized (accepted.valid tx tail)

section Totals

variable (env) (db : Db) (height : Nat)

private theorem writesTo_txEffect (tx : Transaction)
    (shape : isCoinbase tx = false → tx.isAnonymous = false) :
    writesTo .anonymous (txEffect env db height true tx).writes = [] ∧
    writesTo .utxo (txEffect env db height true tx).writes =
      if isCoinbase tx then [] else coinEvents env false tx := by
  cases coinbase : isCoinbase tx with
  | true => simp [txEffect, coinbase, coinbaseEffect, putCf]
  | false =>
      have transparent := shape coinbase
      have anonymous := writesTo_txEffect_ordinary env db height true coinbase
      have utxo := writesTo_txEffect_ordinary env db height false coinbase
      rw [coinEvents, if_neg (by simp [transparent])] at anonymous
      exact ⟨anonymous, utxo⟩

variable {env db height}

private theorem valueAt_coinKey (db : Db) (vin : TXInput) :
    valueAt coinValue (db .utxo) (coinKey false vin.txid vin.vout) =
      ((storedCoin db false vin).map fun o => o.value.toNat).getD 0 :=
  @measureAt_coinKey db _ _ (fun _ => coinValue) _ false vin fun _ => rfl

private theorem deletedKeys_coinEvents (transparent : tx.isAnonymous = false) :
    deletedKeys (coinEvents env false tx) =
      tx.inputs.map fun vin => coinKey false vin.txid vin.vout := by
  rw [coinEvents, if_pos transparent, deletedKeys_append, deletedKeys_map_delete,
    deletedKeys_map_put, List.append_nil]

private theorem putTotal_coinEvents (transparent : tx.isAnonymous = false)
    (sized : tx.size < 2 ^ 64) :
    putTotal coinValue (coinEvents env false tx) = createdValue tx.outputs := by
  have inputs (vins : List TXInput) :
      putTotal coinValue (vins.map fun vin => (.delete (coinKey false vin.txid vin.vout) :
        Write Bytes Bytes)) = 0 := by
    induction vins with
    | nil => rfl
    | cons vin vins ih => simp [putTotal, ih]
  have outputs (outs : List TXOutput) (start : Nat)
      (readable : ∀ out ∈ outs, (txOutputCodec.encode out).length < 2 ^ 64) :
      putTotal coinValue ((outs.zipIdx start).map fun p =>
        Write.put (coinKey false (txHash env tx) (UInt32.ofNat p.2)) (txOutputCodec.encode p.1)) =
          createdValue outs := by
    induction outs generalizing start with
    | nil => rfl
    | cons out outs ih =>
        obtain ⟨here, later⟩ := List.forall_mem_cons.mp readable
        have worth : coinValue (txOutputCodec.encode out) = out.value.toNat := by
          simp [coinValue, txOutputCodec.read_encode out here]
        simp only [List.zipIdx_cons, List.map_cons, putTotal, worth, ih (start + 1) later]
        rfl
  rw [coinEvents, if_pos transparent, putTotal_append, inputs, outputs, Nat.zero_add]
  intro out member
  exact lt_of_le_of_lt (output_size_le member) sized

/-- A coinbase, or a transparent spend under the rules whose parts can be read back. -/
def Shaped (db : Db) (bestHeight height : Nat) (tx : Transaction) : Prop :=
  isCoinbase tx = false →
    tx.isAnonymous = false ∧ SpendRules db bestHeight height tx ∧ tx.size < 2 ^ 64

private def blockCoinWrites (env : Env) (db : Db) (height : Nat) (txs : List Transaction) :
    List (Write Bytes Bytes) :=
  writesTo .utxo (blockEffect env db height true txs).writes

private theorem blockCoinWrites_cons (first : Transaction) (rest : List Transaction)
    (shape : isCoinbase first = false → first.isAnonymous = false) :
    blockCoinWrites env db height (first :: rest) =
      (if isCoinbase first then [] else coinEvents env false first) ++
        blockCoinWrites env db height rest := by
  simp only [blockCoinWrites, blockEffect, List.map_cons, List.prod_cons, Effect.mul_writes,
    writesTo_append, (writesTo_txEffect env db height first shape).2]

private theorem blockCoinWrites_lose (txs : List Transaction)
    (shaped : ∀ tx ∈ txs, Shaped db bestHeight height tx) :
    putTotal coinValue (blockCoinWrites env db height txs) + (ordinaryTxs txs).length ≤
      ((deletedKeys (blockCoinWrites env db height txs)).map
        (valueAt coinValue (db .utxo))).sum := by
  induction txs with
  | nil => simp [blockCoinWrites, blockEffect, putTotal, ordinaryTxs]
  | cons first rest ih =>
      obtain ⟨here, later⟩ := List.forall_mem_cons.mp shaped
      have tail := ih later
      rw [blockCoinWrites_cons first rest fun ordinary => (here ordinary).1, deletedKeys_append,
        putTotal_append, List.map_append, List.sum_append]
      cases coinbase : isCoinbase first with
      | true =>
          simp only [ordinaryTxs, coinbase, if_true, putTotal, deletedKeys, List.map_nil,
            List.sum_nil, Nat.zero_add, Bool.not_true, Bool.false_eq_true, not_false_eq_true,
            List.filter_cons_of_neg]
          exact tail
      | false =>
          obtain ⟨transparent, rules, sized⟩ := here coinbase
          have paid := rules.paid
          have positive := size_pos first
          rw [show minFeePerByte.toNat = 10 from rfl] at paid
          have spent : ((first.inputs.map fun vin => coinKey false vin.txid vin.vout).map
              (valueAt coinValue (db .utxo))).sum = spentValue db false first.inputs := by
            simp only [List.map_map, Function.comp_def, valueAt_coinKey]
            rfl
          simp only [ordinaryTxs, coinbase, Bool.false_eq_true, if_false, Bool.not_false,
            List.filter_cons_of_pos, List.length_cons, putTotal_coinEvents transparent sized,
            deletedKeys_coinEvents transparent, spent]
          simp only [ordinaryTxs] at tail
          omega

private theorem AcceptedTxs.shaped (accepted : AcceptedTxs env db bestHeight height block) :
    ∀ tx ∈ block.txs, Shaped db bestHeight height tx := by
  intro tx member ordinary
  obtain ⟨transparent, rules⟩ := accepted.shape member ordinary
  have bound := size_le_block_size member
  have limit := accepted.size
  unfold maxBlockSize at limit
  exact ⟨transparent, rules, by omega⟩

private theorem connect_totals {env : Env} {db : Db} {height : Nat} {setHash : Hash}
    {supply : UInt64} {acc : UtxoAcc} (accepted : AcceptedTxs env db bestHeight height block)
    (connected : applyUtxoChanges env db setHash supply block height true [] = .ok acc)
    (once : (blockSpends block).Nodup) :
    write db acc.batch .anonymous = db .anonymous ∧
      (ordinaryTxs block.txs = [] → write db acc.batch .utxo = db .utxo) ∧
      total coinValue (write db acc.batch .utxo) + (ordinaryTxs block.txs).length ≤
        total coinValue (db .utxo) := by
  have shaped := accepted.shaped
  obtain ⟨-, -, -, -, batch⟩ := (applyUtxoChanges_eq_ok ..).mp connected
  have utxo : writesTo .utxo acc.batch = blockCoinWrites env db height block.txs := by
    simp [batch, blockCoinWrites, counterWrites, putCf]
  have anonymous : writesTo .anonymous acc.batch = [] := by
    have each (tx : Transaction) (member : tx ∈ block.txs) :=
      (writesTo_txEffect env db height tx fun ordinary => (shaped tx member ordinary).1).1
    simp only [batch, counterWrites, putCf, List.nil_append, writesTo_append, blockEffect,
      Effect.prod_writes, writesTo_flatMap]
    simpa [List.flatMap_eq_nil_iff] using each
  have events : blockCoinWrites env db height block.txs = blockCoinEvents env false block :=
    writesTo_blockEffect env db height false block
  have bound := total_applyWrites_le coinValue (db .utxo)
    (blockCoinWrites env db height block.txs) (events ▸ deletedKeys_nodup env once false)
  have lost : putTotal coinValue (blockCoinWrites env db height block.txs) + _ ≤ _ :=
    blockCoinWrites_lose block.txs shaped
  refine ⟨by simp [write, anonymous], ?_, ?_⟩
  · intro none_ordinary
    have empty : blockCoinWrites env db height block.txs = [] := by
      rw [events, blockCoinEvents, none_ordinary, List.flatMap_nil]
    simp [write, utxo, empty]
  · simp only [write, utxo]
    omega

end Totals

/-- After the connect the scanned stores hold what they held before and the subsidy. -/
def Conserved (before after : Db) (height : Nat) : Prop :=
  ∃ utxo anonymous utxo' anonymous' : UInt64,
    computeCfSupply (before .utxo) = some utxo ∧
    computeCfSupply (before .anonymous) = some anonymous ∧
    computeCfSupply (after .utxo) = some utxo' ∧
    computeCfSupply (after .anonymous) = some anonymous' ∧
    utxo'.toNat + anonymous'.toNat = utxo.toNat + anonymous.toNat + (subsidy height).toNat

private theorem Conserved.total_utxo {before after : Db} {height : Nat}
    (conserved : Conserved before after height) (same : after .anonymous = before .anonymous) :
    total coinValue (after .utxo) = total coinValue (before .utxo) + (subsidy height).toNat := by
  obtain ⟨u, a, u', a', foundU, foundA, foundU', foundA', sum⟩ := conserved
  rw [same, foundA] at foundA'
  obtain rfl := Option.some.inj foundA'
  have first := (computeCfSupply_eq_some.mp foundU).2
  have second := (computeCfSupply_eq_some.mp foundU').2
  omega

/-- The coinbase outputs are never stored and the fees are taken out, so the equation holds
only where there is no subsidy to add and no fee to lose. -/
theorem supply_conserved_iff (env : Env) (db : Db) (bestHeight height : Nat) (nowMs : Option Nat)
    (block : Block) (setHash : Hash) (supply utxo anonymous : UInt64) (acc : UtxoAcc)
    (accepted : validateBlock env db bestHeight nowMs block height = .ok ())
    (connected : applyUtxoChanges env db setHash supply block height true [] = .ok acc)
    (once : (blockSpends block).Nodup)
    (scanned : computeCfSupply (db .utxo) = some utxo)
    (scannedAnonymous : computeCfSupply (db .anonymous) = some anonymous) :
    Conserved db (write db acc.batch) height ↔
      subsidy height = 0 ∧ ∀ tx ∈ block.txs, isCoinbase tx = true := by
  obtain ⟨sameAnonymous, sameUtxo, lost⟩ :=
    connect_totals (validateBlock_txs accepted) connected once
  have ordinary : (ordinaryTxs block.txs).length = 0 ↔ ∀ tx ∈ block.txs, isCoinbase tx = true := by
    simp [ordinaryTxs, List.length_eq_zero_iff, List.filter_eq_nil_iff]
  rw [← ordinary]
  constructor
  · intro conserved
    have grown := conserved.total_utxo sameAnonymous
    refine ⟨UInt64.toNat_inj.mp ?_, ?_⟩
    · show (subsidy height).toNat = 0
      omega
    · omega
  · rintro ⟨nothing, none_ordinary⟩
    have same := sameUtxo (List.length_eq_zero_iff.mp none_ordinary)
    refine ⟨utxo, anonymous, utxo, anonymous, scanned, scannedAnonymous, ?_, ?_, ?_⟩
    · rw [same, scanned]
    · rw [sameAnonymous, scannedAnonymous]
    · rw [nothing]
      rfl

/-- A block with only a coinbase of the given value, mined with the given nonce. -/
def sampleChild (prevHash : Hash) (value nonce : UInt64) : Block :=
  let coinbase := { genesisCoinbase sampleEnv [7] with
    outputs := [⟨value, p2pkhScript sampleEnv [7], none⟩] }
  ⟨{ genesisHeader sampleEnv [7] nonce with
      prevHash := prevHash
      merkleRoot := computeMerkleRoot sampleEnv [coinbase] }, [coinbase]⟩

def sampleHeaderDb (height : Nat) : Db :=
  write emptyDb
    [putCf .default (headerKey (height - 1)) (headerCodec.encode (genesisHeader sampleEnv [7] 0))]

/-- The first block after genesis is accepted and connects, and no coin appears. -/
theorem coinbase_reward_not_stored :
    validateBlock sampleEnv (sampleHeaderDb 1) 0 (some 2000000000000)
        (sampleChild zeroHash 10000000000 0) 1 = .ok () ∧
      (blockSpends (sampleChild zeroHash 10000000000 0)).Nodup ∧
      ∃ acc, applyUtxoChanges sampleEnv (sampleHeaderDb 1) zeroHash 0
          (sampleChild zeroHash 10000000000 0) 1 true [] = .ok acc ∧
        ¬ Conserved (sampleHeaderDb 1) (write (sampleHeaderDb 1) acc.batch) 1 := by
  obtain ⟨acc, connected⟩ : ∃ acc, applyUtxoChanges sampleEnv (sampleHeaderDb 1) zeroHash 0
      (sampleChild zeroHash 10000000000 0) 1 true [] = .ok acc := exists_of_isOk (by decide +kernel)
  have accepted : validateBlock sampleEnv (sampleHeaderDb 1) 0 (some 2000000000000)
      (sampleChild zeroHash 10000000000 0) 1 = .ok () := by decide +kernel
  have once : (blockSpends (sampleChild zeroHash 10000000000 0)).Nodup := by decide +kernel
  refine ⟨accepted, once, acc, connected, ?_⟩
  intro conserved
  obtain ⟨sameAnonymous, -, lost⟩ := connect_totals (validateBlock_txs accepted) connected once
  have grown := conserved.total_utxo sameAnonymous
  rw [show (subsidy 1).toNat = 10000000000 by decide] at grown
  omega

theorem rewardless_block_conserves :
    ∃ acc, applyUtxoChanges sampleEnv (sampleHeaderDb 71400000) zeroHash 0
        (sampleChild zeroHash 0 0) 71400000 true [] = .ok acc ∧
      Conserved (sampleHeaderDb 71400000) (write (sampleHeaderDb 71400000) acc.batch) 71400000 := by
  obtain ⟨acc, connected⟩ : ∃ acc, applyUtxoChanges sampleEnv (sampleHeaderDb 71400000) zeroHash 0
      (sampleChild zeroHash 0 0) 71400000 true [] = .ok acc := exists_of_isOk (by decide +kernel)
  refine ⟨acc, connected, ?_⟩
  exact (supply_conserved_iff sampleEnv (sampleHeaderDb 71400000) 71399999 71400000
    (some 2000000000000) (sampleChild zeroHash 0 0) zeroHash 0 0 0 acc (by decide +kernel) connected
    (by decide +kernel) (by decide +kernel) (by decide +kernel)).mpr
      ⟨by decide +kernel, by decide +kernel⟩

end Lyrion.Node
