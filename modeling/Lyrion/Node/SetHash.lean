/- GID: Lyrion/Node/SetHash
   digest: The running set hash and supply against those recomputed from the coin stores. -/

import Lyrion.Node.Conservation

set_option autoImplicit false
set_option relaxedAutoImplicit false

namespace Lyrion.Node

open Library.ByteCodec Library.KeyValue Data Utils Tx

structure HashSum where
  hash : Hash

namespace HashSum

instance : Zero HashSum := ⟨⟨zeroHash⟩⟩

instance : Add HashSum := ⟨fun a b => ⟨xorHash a.hash b.hash⟩⟩

theorem mk_zero : (⟨zeroHash⟩ : HashSum) = 0 := rfl

private theorem add_mk (a b : Hash) : (⟨a⟩ : HashSum) + ⟨b⟩ = ⟨xorHash a b⟩ := rfl

instance : AddCommMonoid HashSum where
  add_assoc a b c := congrArg mk (xorHash_assoc a.hash b.hash c.hash)
  zero_add a := congrArg mk ((xorHash_comm zeroHash a.hash).trans (xorHash_zero a.hash))
  add_zero a := congrArg mk (xorHash_zero a.hash)
  add_comm a b := congrArg mk (xorHash_comm a.hash b.hash)
  nsmul := nsmulRec

private theorem eq_of_add_eq {a b c : HashSum} (same : a + b = c) : a = c + b := by
  have undone := congrArg mk (xorHash_self b.hash)
  rw [← same, add_assoc]
  exact ((congrArg (a + ·) undone).trans (add_zero a)).symm

end HashSum

section Entries

def outpointOfKey (isAnonymous : Bool) (key : Bytes) : Option Outpoint :=
  (hashOfBytes ((key.drop 2).take 32)).bind fun txid =>
    let vout := UInt32.ofNat (ofBeBytes (key.drop 34))
    if coinKey isAnonymous txid vout = key then some (txid, vout) else none

/-- The hash of one entry of a coin store; one that is no coin counts for nothing. -/
def entryHash (env : Env) (isAnonymous : Bool) (key value : Bytes) : HashSum :=
  ⟨((outpointOfKey isAnonymous key).bind fun outpoint =>
    (txOutputCodec.read value).map (hashUtxoEntry env outpoint.1 outpoint.2)).getD zeroHash⟩

private theorem outpointOfKey_coinKey (isAnonymous : Bool) (txid : Hash) (vout : UInt32) :
    outpointOfKey isAnonymous (coinKey isAnonymous txid vout) = some (txid, vout) := by
  have body : (coinKey isAnonymous txid vout).drop 2 = txid.toList ++ beBytes 4 vout.toNat := by
    cases isAnonymous <;> rfl
  have number : (coinKey isAnonymous txid vout).drop 34 = beBytes 4 vout.toNat := by
    rw [show 34 = 2 + 32 from rfl, ← List.drop_drop, body]
    exact List.drop_left' (by simp)
  have word : UInt32.ofNat (ofBeBytes (beBytes 4 vout.toNat)) = vout := by
    rw [ofBeBytes_beBytes 4 _ vout.toNat_lt]
    simp
  have front : ((coinKey isAnonymous txid vout).drop 2).take 32 = txid.toList := by
    rw [body]
    exact List.take_left' (by simp)
  simp [outpointOfKey, number, word, front, hashOfBytes_toList]

private theorem entryHash_coinKey (env : Env) (isAnonymous : Bool) (txid : Hash) (vout : UInt32)
    (value : Bytes) :
    entryHash env isAnonymous (coinKey isAnonymous txid vout) value =
      ((txOutputCodec.read value).map fun out =>
        HashSum.mk (hashUtxoEntry env txid vout out)).getD 0 := by
  rw [entryHash, outpointOfKey_coinKey]
  cases txOutputCodec.read value <;> rfl

end Entries

section Tallies

variable {μ : Type} [AddCommMonoid μ] (f : Bool → Bytes → Bytes → μ)

def storesTally (db : Db) : μ := ∑ isAnonymous, tally (f isAnonymous) (db (coinFamily isAnonymous))

def spentTally (db : Db) (batch : DbBatch) : μ :=
  ∑ isAnonymous, ((deletedKeys (writesTo (coinFamily isAnonymous) batch)).map
    (measureAt (f isAnonymous) (db (coinFamily isAnonymous)))).sum

def createdTally (batch : DbBatch) : μ :=
  ∑ isAnonymous, putTally (f isAnonymous) (writesTo (coinFamily isAnonymous) batch)

private theorem spentTally_append (db : Db) (batch more : DbBatch) :
    spentTally f db (batch ++ more) = spentTally f db batch + spentTally f db more := by
  simp only [spentTally, writesTo_append, deletedKeys_append, List.map_append, List.sum_append,
    Finset.sum_add_distrib]

private theorem createdTally_append (batch more : DbBatch) :
    createdTally f (batch ++ more) = createdTally f batch + createdTally f more := by
  simp only [createdTally, writesTo_append, putTally_append, Finset.sum_add_distrib]

private theorem spentTally_delete (db : Db) (isAnonymous : Bool) (key : Bytes) :
    spentTally f db [deleteCf (coinFamily isAnonymous) key] =
      measureAt (f isAnonymous) (db (coinFamily isAnonymous)) key := by
  cases isAnonymous <;> simp [spentTally, deleteCf, coinFamily, deletedKeys]

private theorem createdTally_put (isAnonymous : Bool) (key value : Bytes) :
    createdTally f [putCf (coinFamily isAnonymous) key value] = f isAnonymous key value := by
  cases isAnonymous <;> simp [createdTally, putCf, coinFamily, putTally]

private theorem storesTally_write (db : Db) (batch : DbBatch)
    (nodup : ∀ isAnonymous, (deletedKeys (writesTo (coinFamily isAnonymous) batch)).Nodup)
    (present : ∀ isAnonymous, ∀ key ∈ deletedKeys (writesTo (coinFamily isAnonymous) batch),
      key ∈ db (coinFamily isAnonymous))
    (fresh : ∀ isAnonymous,
      PutsFresh (db (coinFamily isAnonymous)) (writesTo (coinFamily isAnonymous) batch)) :
    storesTally f (write db batch) + spentTally f db batch =
      storesTally f db + createdTally f batch := by
  rw [storesTally, spentTally, storesTally, createdTally, ← Finset.sum_add_distrib,
    ← Finset.sum_add_distrib]
  apply Finset.sum_congr rfl
  intro isAnonymous _
  exact tally_applyWrites (f isAnonymous) _ _ (nodup isAnonymous) (present isAnonymous)
    (fresh isAnonymous)

end Tallies

def storedSetHash (env : Env) (db : Db) : Hash := (storesTally (entryHash env) db).hash

def storedSupply (db : Db) : Nat := storesTally (fun _ _ => coinValue) db

section Effects

variable (env : Env) (db : Db) (height : Nat)

private theorem added_append (ops more : List SupplyOp) : added (ops ++ more) = added ops + added
    more := by
  induction ops with
  | nil => simp [added]
  | cons op ops ih => cases op <;> simp [added, ih, Nat.add_assoc]

private theorem removed_append (ops more : List SupplyOp) :
    removed (ops ++ more) = removed ops + removed more := by
  induction ops with
  | nil => simp [removed]
  | cons op ops ih => cases op <;> simp [removed, ih, Nat.add_assoc]

/-- An effect whose counters move by the coins of its writes. -/
structure Accounted (e : Effect) : Prop where
  element : (⟨e.element⟩ : HashSum) =
    spentTally (entryHash env) db e.writes + createdTally (entryHash env) e.writes
  removed : removed e.supplyOps = spentTally (fun _ _ => coinValue) db e.writes
  added : added e.supplyOps = createdTally (fun _ _ => coinValue) e.writes

private theorem Accounted.of_elsewhere {e : Effect}
    (elsewhere : ∀ isAnonymous, writesTo (coinFamily isAnonymous) e.writes = [])
    (element : e.element = zeroHash) (ops : e.supplyOps = []) : Accounted env db e := by
  have nothing {μ : Type} [AddCommMonoid μ] (f : Bool → Bytes → Bytes → μ) :
      spentTally f db e.writes = 0 ∧ createdTally f e.writes = 0 := by
    simp [spentTally, createdTally, elsewhere, deletedKeys, putTally]
  refine ⟨?_, ?_, ?_⟩
  · rw [(nothing _).1, (nothing _).2, element]
    exact (add_zero _).symm
  · rw [(nothing _).1, ops]
    rfl
  · rw [(nothing _).2, ops]
    rfl

def accounted : Submonoid Effect where
  carrier := {e | Accounted env db e}
  one_mem' := .of_elsewhere env db (fun _ => rfl) rfl rfl
  mul_mem' := by
    intro e g left right
    constructor
    · rw [Effect.mul_element, Effect.mul_writes, spentTally_append, createdTally_append,
        ← HashSum.add_mk, left.element, right.element]
      exact add_add_add_comm ..
    · rw [Effect.mul_supplyOps, Effect.mul_writes, spentTally_append, removed_append, left.removed,
        right.removed]
    · rw [Effect.mul_supplyOps, Effect.mul_writes, createdTally_append, added_append, left.added,
        right.added]

private theorem coinEffect_accounted (isAnonymous : Bool) (vin : TXInput) :
    coinEffect env db true isAnonymous vin ∈ accounted env db := by
  have created {μ : Type} [AddCommMonoid μ] (f : Bool → Bytes → Bytes → μ) (key : Bytes) :
      createdTally f [deleteCf (coinFamily isAnonymous) key] = 0 := by
    cases isAnonymous <;> simp [createdTally, deleteCf, coinFamily, putTally]
  have writes : (coinEffect env db true isAnonymous vin).writes =
      [deleteCf (coinFamily isAnonymous) (coinKey isAnonymous vin.txid vin.vout)] := rfl
  refine ⟨?_, ?_, ?_⟩
  · rw [writes, spentTally_delete, created, add_zero, measureAt_coinKey db fun value =>
      entryHash_coinKey env isAnonymous vin.txid vin.vout value]
    cases found : storedCoin db isAnonymous vin with
    | none => simp [coinEffect, found, HashSum.mk_zero]
    | some out => simp [coinEffect, found]
  · rw [writes, spentTally_delete, @measureAt_coinKey db _ _ (fun _ => coinValue) _ isAnonymous vin
      fun _ => rfl]
    cases found : storedCoin db isAnonymous vin with
    | none => simp [coinEffect, found, Node.removed]
    | some out => simp [coinEffect, found, Node.removed]
  · rw [writes, created]
    rfl

private theorem newCoinEffect_accounted (tx : Transaction) (out : TXOutput) (vout : UInt32)
    (readable : (txOutputCodec.encode out).length < 2 ^ 64) :
    newCoinEffect env db true tx out vout ∈ accounted env db := by
  have read := txOutputCodec.read_encode out readable
  have spent {μ : Type} [AddCommMonoid μ] (f : Bool → Bytes → Bytes → μ) (key value : Bytes) :
      spentTally f db [putCf (coinFamily tx.isAnonymous) key value] = 0 := by
    cases tx.isAnonymous <;> simp [spentTally, putCf, coinFamily, deletedKeys]
  have writes : (newCoinEffect env db true tx out vout).writes =
      [putCf (coinFamily tx.isAnonymous) (coinKey tx.isAnonymous (txHash env tx) vout)
        (txOutputCodec.encode out)] := rfl
  refine ⟨?_, ?_, ?_⟩
  · rw [writes, createdTally_put, spent, entryHash_coinKey, read, zero_add]
    rfl
  · rw [writes, spent]
    rfl
  · rw [writes, createdTally_put, coinValue, read]
    rfl

private theorem inputEffect_accounted (isAnonymous : Bool) (vin : TXInput) :
    inputEffect env db height true isAnonymous vin ∈ accounted env db := by
  have image : keyImageEffect db height true vin ∈ accounted env db := by
    refine .of_elsewhere env db ?_ rfl rfl
    intro family
    cases family <;> simp [keyImageEffect, putCf, coinFamily]
  cases isAnonymous with
  | false => exact coinEffect_accounted env db false vin
  | true => exact (accounted env db).mul_mem image (coinEffect_accounted env db true vin)

private theorem outputEffect_accounted (tx : Transaction) (entry : TXOutput × Nat)
    (readable : (txOutputCodec.encode entry.1).length < 2 ^ 64) :
    outputEffect env db true tx entry ∈ accounted env db := by
  have coin := newCoinEffect_accounted env db tx entry.1 (UInt32.ofNat entry.2) readable
  have address : addrEffect env db true tx entry.1 (UInt32.ofNat entry.2) ∈ accounted env db := by
    refine .of_elsewhere env db ?_ rfl rfl
    intro family
    cases family <;> simp [addrEffect, putCf, coinFamily]
  rw [outputEffect]
  split
  · exact coin
  · exact (accounted env db).mul_mem coin address

private theorem txEffect_accounted {tx : Transaction} (sized : tx.size < 2 ^ 64) :
    txEffect env db height true tx ∈ accounted env db := by
  rw [txEffect]
  split
  case isTrue coinbase =>
    refine .of_elsewhere env db ?_ rfl rfl
    intro family
    cases family <;> simp [coinbaseEffect, putCf, coinFamily]
  case isFalse ordinary =>
    apply (accounted env db).mul_mem
    · apply Submonoid.list_prod_mem
      simp only [List.forall_mem_map]
      intro vin _
      exact inputEffect_accounted env db height tx.isAnonymous vin
    · apply Submonoid.list_prod_mem
      simp only [List.forall_mem_map]
      intro entry member
      have inside : entry.1 ∈ tx.outputs := List.fst_mem_of_mem_zipIdx member
      exact outputEffect_accounted env db tx entry ((output_size_le inside).trans_lt sized)

private theorem blockEffect_accounted {txs : List Transaction}
    (sized : ∀ tx ∈ txs, tx.size < 2 ^ 64) :
    Accounted env db (blockEffect env db height true txs) := by
  apply (accounted env db).list_prod_mem
  simp only [List.forall_mem_map]
  intro tx member
  exact txEffect_accounted env db height (sized tx member)

end Effects

section Connected

variable {env : Env} {db : Db} {setHash : Hash} {supply : UInt64} {block : Block} {height : Nat}
  {batch : DbBatch} {acc : UtxoAcc}

private theorem writesTo_connected
    (elsewhere : ∀ isAnonymous, writesTo (coinFamily isAnonymous) batch = [])
    (connected : applyUtxoChanges env db setHash supply block height true batch = .ok acc)
    (isAnonymous : Bool) :
    writesTo (coinFamily isAnonymous) acc.batch = blockCoinEvents env isAnonymous block := by
  obtain ⟨_, _, _, _, written⟩ :=
    (applyUtxoChanges_eq_ok env db height true setHash supply block batch acc).mp connected
  rw [written, writesTo_append, writesTo_append, elsewhere, writesTo_blockEffect]
  cases isAnonymous <;> simp [counterWrites, putCf, coinFamily]

private theorem storesTally_connected {μ : Type} [AddCommMonoid μ] (f : Bool → Bytes → Bytes → μ)
    (elsewhere : ∀ isAnonymous, writesTo (coinFamily isAnonymous) batch = [])
    (once : (blockSpends block).Nodup)
    (fresh : ∀ isAnonymous,
      PutsFresh (db (coinFamily isAnonymous)) (blockCoinEvents env isAnonymous block))
    (connected : applyUtxoChanges env db setHash supply block height true batch = .ok acc) :
    storesTally f (write db acc.batch) +
        spentTally f db (blockEffect env db height true block.txs).writes =
      storesTally f db + createdTally f (blockEffect env db height true block.txs).writes := by
  have handled :=
    ((applyUtxoChanges_eq_ok env db height true setHash supply block batch acc).mp connected).1
  have events := writesTo_connected elsewhere connected
  have rule := storesTally_write f db acc.batch
    (fun isAnonymous => events isAnonymous ▸ deletedKeys_nodup env once isAnonymous)
    (fun isAnonymous key deleted =>
      mem_of_mem_deletedKeys env db handled (events isAnonymous ▸ deleted))
    (fun isAnonymous => events isAnonymous ▸ fresh isAnonymous)
  simpa only [spentTally, createdTally, events, writesTo_blockEffect] using rule

end Connected

/-- The counters that connecting a block computes and stores are those of the coins it leaves, if
they were those of the coins before, no coin is spent twice and none is created where one is. -/
theorem counters_recomputed (env : Env) (db : Db) (setHash : Hash) (supply : UInt64) (block : Block)
    (height : Nat) (batch : DbBatch) (acc : UtxoAcc)
    (elsewhere : ∀ isAnonymous, writesTo (coinFamily isAnonymous) batch = [])
    (sized : ∀ tx ∈ block.txs, tx.size < 2 ^ 64)
    (hashed : setHash = storedSetHash env db) (summed : supply.toNat = storedSupply db)
    (once : (blockSpends block).Nodup)
    (fresh : ∀ isAnonymous,
      PutsFresh (db (coinFamily isAnonymous)) (blockCoinEvents env isAnonymous block))
    (connected : applyUtxoChanges env db setHash supply block height true batch = .ok acc) :
    acc.setHash = storedSetHash env (write db acc.batch) ∧
      acc.supply.toNat = storedSupply (write db acc.batch) ∧
      get (write db acc.batch) .default utxoSetHashKey = some acc.setHash.toList ∧
      get (write db acc.batch) .default totalSupplyKey = some (beBytes 8 acc.supply.toNat) := by
  obtain ⟨_, ran, hash, _, written⟩ :=
    (applyUtxoChanges_eq_ok env db height true setHash supply block batch acc).mp connected
  have accounts := blockEffect_accounted env db height sized
  refine ⟨?_, ?_, ?_⟩
  · have moved := HashSum.eq_of_add_eq
      (storesTally_connected (entryHash env) elsewhere once fresh connected)
    have running : (⟨acc.setHash⟩ : HashSum) =
        storesTally (entryHash env) (write db acc.batch) := by
      rw [moved, hash, hashed, ← HashSum.add_mk, accounts.element, add_assoc,
        add_comm (spentTally ..)]
      rfl
    exact congrArg HashSum.hash running
  · have moved := storesTally_connected (fun _ _ => coinValue) elsewhere once fresh connected
    have balance := runSupply_balance ran
    rw [accounts.removed, accounts.added, summed] at balance
    rw [storedSupply] at balance ⊢
    omega
  · rw [written, write_append]
    exact get_counterWrites _ acc.setHash acc.supply

theorem spending_block_recomputed :
    ∃ acc, applyUtxoChanges sampleEnv sampleCoinDb (storedSetHash sampleEnv sampleCoinDb) 10000
        (sampleBlock [sampleSpend []]) 1 true [] = .ok acc ∧
      acc.setHash = storedSetHash sampleEnv (write sampleCoinDb acc.batch) ∧
      acc.supply.toNat = storedSupply (write sampleCoinDb acc.batch) := by
  obtain ⟨acc, connected⟩ : ∃ acc, applyUtxoChanges sampleEnv sampleCoinDb
      (storedSetHash sampleEnv sampleCoinDb) 10000 (sampleBlock [sampleSpend []]) 1 true [] =
        .ok acc := exists_of_isOk (by decide +kernel)
  have recomputed := counters_recomputed sampleEnv sampleCoinDb _ 10000 _ 1 [] acc
    (fun _ => rfl) (by decide +kernel) rfl (by decide +kernel) (by decide +kernel)
    (by decide +kernel) connected
  exact ⟨acc, connected, recomputed.1, recomputed.2.1⟩

end Lyrion.Node
