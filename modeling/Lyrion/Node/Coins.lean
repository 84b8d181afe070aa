/- GID: Lyrion/Node/Coins
   digest: The coins of each store that connecting a block deletes and puts. -/

import Lyrion.Node.DoubleSpend

set_option autoImplicit false
set_option relaxedAutoImplicit false

namespace Lyrion.Node

open Library.ByteCodec Library.KeyValue Data Tx

variable (env : Env) (db : Db) (height : Nat)

def coinEvents (isAnonymous : Bool) (tx : Transaction) : List (Write Bytes Bytes) :=
  if tx.isAnonymous = isAnonymous then
    (tx.inputs.map fun vin => .delete (coinKey isAnonymous vin.txid vin.vout)) ++
      tx.outputs.zipIdx.map fun p =>
        .put (coinKey isAnonymous (txHash env tx) (UInt32.ofNat p.2)) (txOutputCodec.encode p.1)
  else []

def blockCoinEvents (isAnonymous : Bool) (block : Block) : List (Write Bytes Bytes) :=
  (ordinaryTxs block.txs).flatMap (coinEvents env isAnonymous)

private theorem writesTo_inputEffect (isAnonymous family : Bool) (vin : TXInput) :
    writesTo (coinFamily family) (inputEffect env db height true isAnonymous vin).writes =
      if isAnonymous = family then [.delete (coinKey isAnonymous vin.txid vin.vout)] else [] := by
  cases isAnonymous <;> cases family <;>
    simp [inputEffect, keyImageEffect, coinEffect, coinFamily, putCf, deleteCf]

private theorem writesTo_outputEffect (family : Bool) (tx : Transaction) (entry : TXOutput × Nat) :
    writesTo (coinFamily family) (outputEffect env db true tx entry).writes =
      if tx.isAnonymous = family then
        [.put (coinKey tx.isAnonymous (txHash env tx) (UInt32.ofNat entry.2))
          (txOutputCodec.encode entry.1)]
      else [] := by
  cases anonymous : tx.isAnonymous <;> cases family <;>
    simp [outputEffect, newCoinEffect, addrEffect, anonymous, coinFamily, putCf]

theorem writesTo_txEffect_ordinary (family : Bool) {tx : Transaction}
    (ordinary : isCoinbase tx = false) :
    writesTo (coinFamily family) (txEffect env db height true tx).writes =
      coinEvents env family tx := by
  simp only [txEffect, ordinary, Bool.false_eq_true, if_false, Effect.mul_writes,
    Effect.prod_writes, writesTo_append, writesTo_flatMap, writesTo_inputEffect,
    writesTo_outputEffect, numberedOutputs, if_true, coinEvents]
  split
  case isTrue same =>
    subst same
    simp [List.map_eq_flatMap]
  case isFalse other => simp

theorem writesTo_blockEffect (family : Bool) (block : Block) :
    writesTo (coinFamily family) (blockEffect env db height true block.txs).writes =
      blockCoinEvents env family block := by
  rw [blockEffect, Effect.prod_writes, writesTo_flatMap, blockCoinEvents, ordinaryTxs]
  induction block.txs with
  | nil => rfl
  | cons tx txs ih =>
      rw [List.flatMap_cons, ih, List.filter_cons]
      cases kind : isCoinbase tx with
      | true =>
          have nothing : writesTo (coinFamily family) (txEffect env db height true tx).writes =
              [] := by
            cases family <;> simp [txEffect, kind, coinbaseEffect, putCf, coinFamily]
          simp [nothing]
      | false => simp [writesTo_txEffect_ordinary env db height family kind]

private theorem deletedKeys_blockCoinEvents (family : Bool) (block : Block) :
    deletedKeys (blockCoinEvents env family block) =
      ((blockSpends block).filter fun s => s.1 = family).map fun s =>
        coinKey family s.2.1 s.2.2 := by
  rw [blockCoinEvents, deletedKeys_flatMap, blockSpends, List.filter_flatMap, List.map_flatMap]
  apply List.flatMap_congr
  intro tx _
  rw [coinEvents, spends]
  split
  case isTrue same =>
    rw [deletedKeys_append, deletedKeys_map_delete, deletedKeys_map_put, List.append_nil]
    simp [same, List.filter_map, Function.comp_def, TXInput.outpoint]
  case isFalse other => simp [other, deletedKeys]

theorem deletedKeys_nodup {block : Block} (once : (blockSpends block).Nodup) (family : Bool) :
    (deletedKeys (blockCoinEvents env family block)).Nodup := by
  rw [deletedKeys_blockCoinEvents]
  refine (once.filter _).map_on ?_
  rintro ⟨a, txid, vout⟩ left ⟨b, txid', vout'⟩ right same
  obtain rfl : a = family := by simpa using (List.mem_filter.mp left).2
  obtain rfl : b = a := by simpa using (List.mem_filter.mp right).2
  obtain ⟨rfl, rfl⟩ := coinKey_injective same
  rfl

theorem mem_of_mem_deletedKeys {block : Block}
    (handled : ∀ tx ∈ block.txs, TxOk env db true tx) {family : Bool} {key : Bytes}
    (deleted : key ∈ deletedKeys (blockCoinEvents env family block)) :
    key ∈ db (coinFamily family) := by
  rw [deletedKeys_blockCoinEvents] at deleted
  obtain ⟨⟨a, outpoint⟩, kept, rfl⟩ := List.mem_map.mp deleted
  obtain ⟨member, same⟩ := List.mem_filter.mp kept
  obtain rfl : a = family := by simpa using same
  obtain ⟨tx, inside, spent⟩ := List.mem_flatMap.mp member
  obtain ⟨inside, ordinary⟩ := List.mem_filter.mp inside
  obtain ⟨vin, input, same⟩ := List.mem_map.mp spent
  obtain ⟨rfl, rfl⟩ := Prod.mk.inj same
  obtain ⟨stored, _⟩ := handled tx inside (by simpa using ordinary) vin input
  obtain ⟨coin, found⟩ := Option.isSome_iff_exists.mp stored
  obtain ⟨value, found, _⟩ := Option.bind_eq_some_iff.mp found
  exact Finmap.mem_of_lookup_eq_some found

theorem measureAt_coinKey {μ : Type} [AddCommMonoid μ] {f : Bytes → Bytes → μ} {g : TXOutput → μ}
    {isAnonymous : Bool} {vin : TXInput}
    (reads : ∀ value, f (coinKey isAnonymous vin.txid vin.vout) value =
      ((txOutputCodec.read value).map g).getD 0) :
    measureAt f (db (coinFamily isAnonymous)) (coinKey isAnonymous vin.txid vin.vout) =
      ((storedCoin db isAnonymous vin).map g).getD 0 := by
  rw [measureAt, storedCoin, Data.get]
  cases (db (coinFamily isAnonymous)).lookup (coinKey isAnonymous vin.txid vin.vout) with
  | none => rfl
  | some value => exact reads value

end Lyrion.Node
