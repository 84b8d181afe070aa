/- GID: Lyrion/Node/Utxo
   digest: Connecting and disconnecting the coins of a block against a snapshot. -/

import Lyrion.Tx

set_option autoImplicit false
set_option relaxedAutoImplicit false

namespace Lyrion.Node

open Library.ByteCodec Library.KeyValue Data Utils Tx

variable (env : Env)

def hashUtxoEntry (txid : Hash) (vout : UInt32) (output : TXOutput) : Hash :=
  env.sha256d (txid.toList ++ beBytes 4 vout.toNat ++ beBytes 8 output.value.toNat ++
    output.scriptPubkey ++ output.commitment.getD [])

/-- What `apply_utxo_changes` accumulates over the transactions of a block. -/
structure UtxoAcc where
  batch : DbBatch
  rollbackOps : List (Family × Bytes × Option Bytes)
  setHash : Hash
  supply : UInt64

def coinbaseAction (snapshot : Db) (height : Nat) (isConnect : Bool) (tx : Transaction)
    (acc : UtxoAcc) : UtxoAcc :=
  let key := (txHash env tx).toList
  if isConnect then
    { acc with
      batch := acc.batch ++ [putCf .coinbase key (beBytes 8 height)]
      rollbackOps := acc.rollbackOps ++ [(.coinbase, key, none)] }
  else
    { acc with
      batch := acc.batch ++ [deleteCf .coinbase key]
      rollbackOps := acc.rollbackOps ++
        ((get snapshot .coinbase key).map fun prev => (Family.coinbase, key, some prev)).toList }

def keyImageAction (snapshot : Db) (height : Nat) (isConnect : Bool) (acc : UtxoAcc)
    (vin : TXInput) : Result UtxoAcc := do
  if vin.scriptSig.length < 32 then fail .invalidScript
  let keyImage := vin.scriptSig.take 32
  if !env.isKeyImage keyImage then fail .invalidKeyImage
  if (get snapshot .keyImages keyImage).isSome && isConnect then fail .doubleSpend
  if isConnect then
    pure { acc with
      batch := acc.batch ++ [putCf .keyImages keyImage (beBytes 8 height)]
      rollbackOps := acc.rollbackOps ++ [(.keyImages, keyImage, none)] }
  else
    pure { acc with
      batch := acc.batch ++ [deleteCf .keyImages keyImage]
      rollbackOps := acc.rollbackOps ++
        ((get snapshot .keyImages keyImage).map fun prev =>
          (Family.keyImages, keyImage, some prev)).toList }

/-- The coin an input refers to. Connect and disconnect both look it up in the snapshot. -/
def coinAction (snapshot : Db) (isAnonymous isConnect : Bool) (acc : UtxoAcc) (vin : TXInput) :
    Result UtxoAcc := do
  let cf := coinFamily isAnonymous
  let key := coinKey isAnonymous vin.txid vin.vout
  let prev ← orFail .missingUTXO (get snapshot cf key)
  let prevOut ← orFail (.anyhow "Deserialize prev_out failed") (txOutputCodec.read prev)
  let setHash := xorHash acc.setHash (hashUtxoEntry env vin.txid vin.vout prevOut)
  if isConnect then
    let supply ← orFail .valueOverflow (checkedSub acc.supply prevOut.value)
    pure ⟨acc.batch ++ [deleteCf cf key], acc.rollbackOps ++ [(cf, key, some prev)], setHash,
      supply⟩
  else
    let supply ← orFail .valueOverflow (checkedAdd acc.supply prevOut.value)
    pure ⟨acc.batch ++ [putCf cf key prev], acc.rollbackOps ++ [(cf, key, none)], setHash, supply⟩

def inputAction (snapshot : Db) (height : Nat) (isAnonymous isConnect : Bool) (acc : UtxoAcc)
    (vin : TXInput) : Result UtxoAcc :=
  if isAnonymous then do
    let acc ← keyImageAction env snapshot height isConnect acc vin
    coinAction env snapshot isAnonymous isConnect acc vin
  else coinAction env snapshot isAnonymous isConnect acc vin

def addrAction (snapshot : Db) (isConnect : Bool) (tx : Transaction) (out : TXOutput)
    (vout : UInt32) (acc : UtxoAcc) : UtxoAcc :=
  let key := addrKey (env.hash160 out.scriptPubkey) (txHash env tx) vout
  if isConnect then
    { acc with
      batch := acc.batch ++ [putCf .addrIndex key (beBytes 8 out.value.toNat)]
      rollbackOps := acc.rollbackOps ++ [(.addrIndex, key, none)] }
  else
    { acc with
      batch := acc.batch ++ [deleteCf .addrIndex key]
      rollbackOps := acc.rollbackOps ++
        ((get snapshot .addrIndex key).map fun prev => (Family.addrIndex, key, some prev)).toList }

def outputAction (snapshot : Db) (isConnect : Bool) (tx : Transaction) (acc : UtxoAcc)
    (entry : TXOutput × Nat) : Result UtxoAcc := do
  let out := entry.1
  let vout := UInt32.ofNat entry.2
  let cf := coinFamily tx.isAnonymous
  let key := coinKey tx.isAnonymous (txHash env tx) vout
  let setHash := xorHash acc.setHash (hashUtxoEntry env (txHash env tx) vout out)
  let acc ←
    if isConnect then do
      let supply ← orFail .valueOverflow (checkedAdd acc.supply out.value)
      pure (⟨acc.batch ++ [putCf cf key (txOutputCodec.encode out)],
        acc.rollbackOps ++ [(cf, key, none)], setHash, supply⟩ : UtxoAcc)
    else do
      let supply ← orFail .valueOverflow (checkedSub acc.supply out.value)
      pure ⟨acc.batch ++ [deleteCf cf key], acc.rollbackOps ++
        ((get snapshot cf key).map fun prev => (cf, key, some prev)).toList, setHash, supply⟩
  if tx.isAnonymous then pure acc
  else pure (addrAction env snapshot isConnect tx out vout acc)

def numberedOutputs (isConnect : Bool) (tx : Transaction) : List (TXOutput × Nat) :=
  if isConnect then tx.outputs.zipIdx else tx.outputs.reverse.zipIdx

def handleUtxoAction (snapshot : Db) (height : Nat) (isConnect : Bool) (acc : UtxoAcc)
    (tx : Transaction) : Result UtxoAcc :=
  if isCoinbase tx then .ok (coinbaseAction env snapshot height isConnect tx acc)
  else do
    let acc ← tx.inputs.foldlM (inputAction env snapshot height tx.isAnonymous isConnect) acc
    (numberedOutputs isConnect tx).foldlM (outputAction env snapshot isConnect tx) acc

/-- `apply_utxo_changes`: `setHash` and `supply` are the in-memory values it starts from. -/
def applyUtxoChanges (snapshot : Db) (setHash : Hash) (supply : UInt64) (block : Block)
    (height : Nat) (isConnect : Bool) (batch : DbBatch) : Result UtxoAcc := do
  let acc ← block.txs.foldlM (handleUtxoAction env snapshot height isConnect)
    ⟨batch, [], setHash, supply⟩
  pure { acc with batch := acc.batch ++
    [putCf .default utxoSetHashKey acc.setHash.toList,
     putCf .default totalSupplyKey (beBytes 8 acc.supply.toNat)] }

end Lyrion.Node
