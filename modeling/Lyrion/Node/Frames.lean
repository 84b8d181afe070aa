/- GID: Lyrion/Node/Frames
   digest: Which entries of the default family each operation of the node writes. -/

import Lyrion.Node.Steps

set_option autoImplicit false
set_option relaxedAutoImplicit false

namespace Lyrion.Node

open Library.ByteCodec Library.KeyValue Data Utils Tx

variable {batch result : DbBatch} {db : Db} {setHash : Hash} {supply : UInt64} {block : Block}
  {k : Bytes} {acc : UtxoAcc}

variable {env : Env}

def defaultKeys (batch : DbBatch) : List Bytes := (writesTo .default batch).map Write.key

theorem get_write_of_notMem (other : k ∉ defaultKeys batch) :
    get (write db batch) .default k = get db .default k := by
  apply lookup_applyWrites_of_untouched
  intro w member same
  exact other (List.mem_map.mpr ⟨w, member, same⟩)

section Parts

variable (snapshot : Db) (height : Nat) (isConnect : Bool)

private theorem txEffect_default (tx : Transaction) :
    writesTo .default (txEffect env snapshot height isConnect tx).writes = [] := by
  cases coinbase : isCoinbase tx with
  | true => cases isConnect <;> simp [txEffect, coinbase, coinbaseEffect, putCf, deleteCf]
  | false => exact writesTo_txEffect_of_other env snapshot height isConnect (by decide) coinbase

theorem blockEffect_default (txs : List Transaction) :
    writesTo .default (blockEffect env snapshot height isConnect txs).writes = [] := by
  simp only [blockEffect, Effect.prod_writes, writesTo_flatMap, txEffect_default]
  simp

private theorem inputEffect_undo (isAnonymous : Bool) (vin : TXInput) :
    ∀ op ∈ (inputEffect env snapshot height isConnect isAnonymous vin).undo, op.1 ≠ .default := by
  intro op member
  cases isConnect <;> cases isAnonymous <;>
    simp only [inputEffect, coinEffect, keyImageEffect, coinFamily, Bool.false_eq_true, if_false,
      if_true, Effect.mul_undo, List.mem_append, List.mem_singleton, Option.mem_toList,
      Option.map_eq_some_iff] at member
  · simp [member]
  · rcases member with ⟨_, -, rfl⟩ | rfl <;> simp
  · simp [member]
  · rcases member with rfl | rfl <;> simp

private theorem outputEffect_undo (tx : Transaction) (entry : TXOutput × Nat) :
    ∀ op ∈ (outputEffect env snapshot isConnect tx entry).undo, op.1 ≠ .default := by
  intro op member
  cases isConnect <;> cases anonymous : tx.isAnonymous <;>
    simp only [outputEffect, newCoinEffect, addrEffect, anonymous, coinFamily, Bool.false_eq_true,
      if_false, if_true, Effect.mul_undo, List.mem_append, List.mem_singleton, Option.mem_toList,
      Option.map_eq_some_iff] at member
  · rcases member with ⟨_, -, rfl⟩ | ⟨_, -, rfl⟩ <;> simp
  · obtain ⟨_, -, rfl⟩ := member
    simp
  · rcases member with rfl | rfl <;> simp
  · simp [member]

private theorem blockEffect_undo (txs : List Transaction) :
    ∀ op ∈ (blockEffect env snapshot height isConnect txs).undo, op.1 ≠ .default := by
  intro op member
  simp only [blockEffect, Effect.prod_undo, List.mem_flatMap] at member
  obtain ⟨tx, -, member⟩ := member
  cases coinbase : isCoinbase tx with
  | true =>
      cases isConnect
      · simp only [txEffect, coinbase, if_true, coinbaseEffect, Bool.false_eq_true, if_false,
          Option.mem_toList, Option.map_eq_some_iff] at member
        obtain ⟨_, -, rfl⟩ := member
        simp
      · simp only [txEffect, coinbase, if_true, coinbaseEffect, List.mem_singleton] at member
        simp [member]
  | false =>
      simp only [txEffect, coinbase, Bool.false_eq_true, if_false, Effect.mul_undo,
        Effect.prod_undo, List.mem_append, List.mem_flatMap] at member
      rcases member with ⟨vin, -, member⟩ | ⟨entry, -, member⟩
      · exact inputEffect_undo snapshot height isConnect _ vin op member
      · exact outputEffect_undo snapshot isConnect tx entry op member

end Parts

theorem writesTo_default_counterWrites (setHash : Hash) (supply : UInt64) :
    writesTo .default (counterWrites setHash supply) =
      [.put utxoSetHashKey setHash.toList, .put totalSupplyKey (beBytes 8 supply.toNat)] := by
  simp [counterWrites, putCf]

private theorem applyUtxoChanges_default {snapshot : Db} {setHash : Hash} {supply : UInt64}
    {block : Block} {height : Nat} {isConnect : Bool} {batch : DbBatch} {acc : UtxoAcc}
    (applied : applyUtxoChanges env snapshot setHash supply block height isConnect batch =
      .ok acc) :
    writesTo .default acc.batch = writesTo .default batch ++
      [.put utxoSetHashKey acc.setHash.toList,
        .put totalSupplyKey (beBytes 8 acc.supply.toNat)] := by
  obtain ⟨-, -, -, -, batches⟩ := (applyUtxoChanges_eq_ok ..).mp applied
  rw [batches, writesTo_append, writesTo_append, blockEffect_default, List.append_nil,
    writesTo_default_counterWrites]

private theorem writesTo_default_connectIndexOps (block : Block) (height : Nat) :
    writesTo .default (connectIndexOps env block height) =
      [.put (headerKey height) (headerCodec.encode block.header)] := by
  have none_later (entries : List (Transaction × Nat)) : writesTo .default
      (entries.map fun p => putCf .txIndex (txHash env p.1).toList
        ((Codec.u64.pair Codec.u64).encode (UInt64.ofNat height, UInt64.ofNat p.2))) = [] := by
    induction entries with
    | nil => rfl
    | cons p entries ih => simpa [putCf] using ih
  simp only [connectIndexOps, writesTo_cons, none_later]
  simp [putCf]

private theorem writesTo_default_disconnectIndexOps (block : Block) :
    writesTo .default (disconnectIndexOps env block) = [] := by
  unfold disconnectIndexOps
  induction block.txs with
  | nil => rfl
  | cons tx txs ih => simpa [deleteCf] using ih

def headerWrites (block : Block) (height : Nat) : BlockAction → List (Write Bytes Bytes)
  | .connect => [.put (headerKey height) (headerCodec.encode block.header)]
  | .disconnect => []

theorem writesTo_default_indexOps (action : BlockAction) (block : Block) (height : Nat) :
    writesTo .default (indexOps env action block height) = headerWrites block height action := by
  cases action with
  | connect => exact writesTo_default_connectIndexOps block height
  | disconnect => exact writesTo_default_disconnectIndexOps block

theorem applyUtxoChanges_congr {other : Db}
    (same : ∀ family, family ≠ .default → db family = other family) :
    applyUtxoChanges env db = applyUtxoChanges env other := by
  have gets (family : Family) (notDefault : family ≠ .default) (k : Bytes) :
      Data.get db family k = Data.get other family k := by
    rw [Data.get, Data.get, same family notDefault]
  have coin (isAnonymous : Bool) (k : Bytes) : Data.get db (coinFamily isAnonymous) k =
      Data.get other (coinFamily isAnonymous) k :=
    gets _ (by cases isAnonymous <;> decide) k
  have inputs : inputAction env db = inputAction env other := by
    funext height isAnonymous isConnect acc vin
    simp only [inputAction, keyImageAction, coinAction, coin, gets .keyImages (by decide)]
  have outputs : outputAction env db = outputAction env other := by
    funext isConnect tx acc entry
    simp only [outputAction, addrAction, coin, gets .addrIndex (by decide)]
  have handled : handleUtxoAction env db = handleUtxoAction env other := by
    funext height isConnect acc tx
    simp only [handleUtxoAction, coinbaseAction, inputs, outputs, gets .coinbase (by decide)]
  funext setHash supply block height isConnect batch
  simp only [applyUtxoChanges, handled]

theorem rollbackBatch_default {snapshot : Db} {height : Nat} {isConnect : Bool}
    (applied : applyUtxoChanges env snapshot setHash supply block height isConnect batch = .ok acc)
    (db : Db) : write db (rollbackBatch acc.rollbackOps) .default = db .default := by
  obtain ⟨-, -, -, undo, -⟩ := (applyUtxoChanges_eq_ok ..).mp applied
  apply write_of_no_writes
  intro op member
  simp only [rollbackBatch, List.mem_map, List.mem_reverse, undo] at member
  obtain ⟨entry, inside, rfl⟩ := member
  have other := blockEffect_undo snapshot height isConnect block.txs entry inside
  obtain ⟨family, key, value | value⟩ := entry
  · exact other
  · exact other

theorem buildBlockOps_eq_ok (db : Db) (setHash : Hash) (supply : UInt64) (block : Block)
    (height : Nat) (action : BlockAction) (batch result : DbBatch) :
    buildBlockOps env db setHash supply block height action batch = .ok result ↔
      (∃ hash, headerHash env block.header = .ok hash) ∧
      ∃ acc, applyUtxoChanges env db setHash supply block height (action = .connect) batch =
          .ok acc ∧
        result = acc.batch ++ indexOps env action block height ++
          counterWrites acc.setHash acc.supply := by
  simp only [buildBlockOps, bind_eq_ok, pure_eq_ok]
  constructor
  · rintro ⟨hash, hashed, acc, applied, rfl⟩
    exact ⟨⟨hash, hashed⟩, acc, applied, rfl⟩
  · rintro ⟨⟨hash, hashed⟩, acc, applied, rfl⟩
    exact ⟨hash, hashed, acc, applied, rfl⟩

def CounterKey (k : Bytes) : Prop := k = utxoSetHashKey ∨ k = totalSupplyKey

/-- The entries of the default family that describe the chain. -/
inductive IndexKey : Bytes → Prop
  | tip : IndexKey tipKey
  | bestHeight : IndexKey bestHeightKey
  | hash (height : Nat) : IndexKey (heightKey height)
  | header (height : Nat) : IndexKey (headerKey height)
  | block (hash : Bytes) : IndexKey (blockKey hash)

theorem IndexKey.ne_reorgKey (index : IndexKey k) (id : Bytes) : k ≠ reorgKey id := by
  cases index with
  | tip => simp [tipKey, reorgKey, reorgPrefix]
  | bestHeight => simp [bestHeightKey, reorgKey, reorgPrefix]
  | hash height => simp [heightKey, reorgKey, reorgPrefix]
  | header height => simp [headerKey, reorgKey, reorgPrefix]
  | block hash => simp [blockKey, reorgKey, reorgPrefix]

theorem IndexKey.not_counter (index : IndexKey k) : ¬ CounterKey k := by
  cases index <;>
    simp [CounterKey, utxoSetHashKey, totalSupplyKey, tipKey, bestHeightKey, heightKey, headerKey,
      blockKey]

theorem CounterKey.ne_reorgKey (counter : CounterKey k) (id : Bytes) : k ≠ reorgKey id := by
  rcases counter with rfl | rfl
  · simp [utxoSetHashKey, reorgKey, reorgPrefix]
  · simp [totalSupplyKey, reorgKey, reorgPrefix]

private theorem mem_buildBlockOps_default {height : Nat} {action : BlockAction}
    (built : buildBlockOps env db setHash supply block height action batch = .ok result)
    {w : Write Bytes Bytes} (member : w ∈ writesTo .default result) :
    w ∈ writesTo .default batch ∨ CounterKey w.key ∨ w ∈ headerWrites block height action := by
  obtain ⟨-, acc, applied, rfl⟩ := (buildBlockOps_eq_ok ..).mp built
  simp only [writesTo_append, writesTo_default_indexOps, writesTo_default_counterWrites,
    applyUtxoChanges_default applied, List.mem_append, List.mem_cons, List.not_mem_nil,
    or_false] at member
  rcases member with ((inside | rfl | rfl) | header) | rfl | rfl
  · exact Or.inl inside
  · exact Or.inr (Or.inl (Or.inl rfl))
  · exact Or.inr (Or.inl (Or.inr rfl))
  · exact Or.inr (Or.inr header)
  · exact Or.inr (Or.inl (Or.inl rfl))
  · exact Or.inr (Or.inl (Or.inr rfl))

theorem disconnect_counters {height : Nat}
    (built : buildBlockOps env db setHash supply block height .disconnect batch = .ok result)
    (before : ∀ w ∈ writesTo .default batch, CounterKey w.key) :
    ∀ w ∈ writesTo .default result, CounterKey w.key := by
  intro w member
  rcases mem_buildBlockOps_default built member with inside | counter | header
  · exact before w inside
  · exact counter
  · exact absurd header List.not_mem_nil

private theorem disconnectOps_default {prevHeight depth : Nat}
    (built : disconnectOps env db setHash supply prevHeight depth batch = .ok result)
    (before : ∀ w ∈ writesTo .default batch, CounterKey w.key) :
    ∀ w ∈ writesTo .default result, CounterKey w.key := by
  induction depth generalizing batch with
  | zero =>
      obtain rfl := Except.ok.inj built
      exact before
  | succ depth ih =>
      simp only [disconnectOps, bind_eq_ok] at built
      obtain ⟨blk, -, next, ops, rest⟩ := built
      exact ih rest (disconnect_counters ops before)

/-- The default entries of a batch are counters and the header of one block. -/
structure StoresHeader (block : Block) (height : Nat) (batch : DbBatch) : Prop where
  only : ∀ w ∈ writesTo .default batch, CounterKey w.key ∨
    w = .put (headerKey height) (headerCodec.encode block.header)
  stored : .put (headerKey height) (headerCodec.encode block.header) ∈ writesTo .default batch

theorem StoresHeader.of_connect {height : Nat}
    (built : buildBlockOps env db setHash supply block height .connect batch = .ok result)
    (before : ∀ w ∈ writesTo .default batch, CounterKey w.key) :
    StoresHeader block height result := by
  constructor
  · intro w member
    rcases mem_buildBlockOps_default built member with inside | counter | header
    · exact Or.inl (before w inside)
    · exact Or.inl counter
    · exact Or.inr (List.mem_singleton.mp header)
  · obtain ⟨-, acc, -, rfl⟩ := (buildBlockOps_eq_ok ..).mp built
    simp [writesTo_default_indexOps, headerWrites]

theorem StoresHeader.get_of_other {height : Nat} (stores : StoresHeader block height batch)
    (base : Db) (noCounter : ¬ CounterKey k) (noHeader : k ≠ headerKey height) :
    get (write base batch) .default k = get base .default k := by
  apply get_write_of_notMem
  intro member
  obtain ⟨w, inside, rfl⟩ := List.mem_map.mp member
  rcases stores.only w inside with counter | rfl
  · exact noCounter counter
  · exact noHeader rfl

theorem StoresHeader.get_header {height : Nat} (stores : StoresHeader block height batch)
    (base : Db) :
    get (write base batch) .default (headerKey height) =
      some (headerCodec.encode block.header) := by
  refine lookup_applyWrites_of_agree _ _ _ _ ?_ ⟨_, stores.stored, rfl⟩
  intro w inside same
  rcases stores.only w inside with (counter | counter) | rfl
  · exact absurd (same.symm.trans counter) (by simp [headerKey, utxoSetHashKey])
  · exact absurd (same.symm.trans counter) (by simp [headerKey, totalSupplyKey])
  · rfl

theorem reorgBatch_default {prevHeight depth : Nat}
    (built : reorgBatch env db setHash supply prevHeight depth block = .ok batch) :
    StoresHeader block (prevHeight + 1) batch := by
  simp only [reorgBatch, bind_eq_ok] at built
  obtain ⟨first, disconnects, connects⟩ := built
  exact .of_connect connects (disconnectOps_default disconnects (by simp))

theorem get_journalPut {id journal : Bytes} (other : k ≠ reorgKey id) :
    get (write db [putCf .default (reorgKey id) journal]) .default k = get db .default k := by
  apply get_write_of_notMem
  simpa [defaultKeys, putCf, Write.key] using other

theorem get_journalDelete {id : Bytes} (other : k ≠ reorgKey id) :
    get (write db [deleteCf .default (reorgKey id)]) .default k = get db .default k := by
  apply get_write_of_notMem
  simpa [defaultKeys, deleteCf, Write.key] using other

theorem actionBatch_default {block : Block} {c : Chain} {height : Nat} {action : BlockAction}
    {setHash : Hash} {supply : UInt64} {batch : DbBatch} {acc : UtxoAcc}
    (handled : applyUtxoChanges env c.db setHash supply block height (action = .connect) batch =
      .ok acc) :
    writesTo .default (actionBatch env block c height action acc) =
      writesTo .default batch ++
        [.put utxoSetHashKey acc.setHash.toList,
          .put totalSupplyKey (beBytes 8 acc.supply.toNat)] ++
        headerWrites block height action ++
        [.put stateTotalSupplyKey (leBytes 8 (actionSupply env c.db height action).toNat)] := by
  simp [actionBatch, writesTo_default_indexOps, applyUtxoChanges_default handled, putCf]

theorem get_actionBatch (block : Block) (c : Chain) (height : Nat) (action : BlockAction)
    {setHash : Hash} {supply : UInt64} {batch : DbBatch} {acc : UtxoAcc}
    (handled : applyUtxoChanges env c.db setHash supply block height (action = .connect) batch =
      .ok acc) (base : Db) :
    get (write base (actionBatch env block c height action acc)) .default totalSupplyKey =
        some (beBytes 8 acc.supply.toNat) ∧
      get (write base (actionBatch env block c height action acc)) .default stateTotalSupplyKey =
        some (leBytes 8 (actionSupply env c.db height action).toNat) ∧
      (action = .connect →
        get (write base (actionBatch env block c height action acc)) .default (headerKey height) =
          some (headerCodec.encode block.header)) := by
  have supplies : totalSupplyKey ≠ stateTotalSupplyKey := by decide
  have headers : totalSupplyKey ≠ headerKey height := by simp [totalSupplyKey, headerKey]
  have states : headerKey height ≠ stateTotalSupplyKey := by simp [headerKey, stateTotalSupplyKey]
  simp only [Data.get, write, actionBatch_default handled, applyWrites_append]
  cases action with
  | connect =>
      simp [headerWrites, applyWrite, Finmap.lookup_insert_of_ne _ supplies,
        Finmap.lookup_insert_of_ne _ headers, Finmap.lookup_insert_of_ne _ states]
  | disconnect =>
      simp [headerWrites, applyWrite, Finmap.lookup_insert_of_ne _ supplies]

theorem defaultKeys_saveOps (height : Nat) (block : Block) (hash : Hash) :
    defaultKeys (saveOps height block hash) =
      [blockKey hash.toList, heightKey height, tipKey, bestHeightKey] := by
  simp [defaultKeys, saveOps, putCf, Write.key]

theorem get_saveOps_tip (db : Db) (height : Nat) (block : Block) (hash : Hash) :
    get (write db (saveOps height block hash)) .default tipKey = some hash.toList := by
  have different : tipKey ≠ bestHeightKey := by decide
  simp [Data.get, write, saveOps, putCf, applyWrite, Finmap.lookup_insert_of_ne _ different]

end Lyrion.Node
