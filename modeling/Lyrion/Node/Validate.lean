/- GID: Lyrion/Node/Validate
   digest: Reading stored blocks, the difficulty and median rules, and block validation. -/

import Lyrion.Tx

set_option autoImplicit false
set_option relaxedAutoImplicit false

namespace Lyrion.Node

open Library.ByteCodec Library.KeyValue Data Utils Tx

variable (env : Env)

def loadBlockFromDb (db : Db) (height : Nat) : Result Block := do
  let hashBytes ← orFail (.anyhow "Missing hash") (get db .default (heightKey height))
  let blockBytes ← orFail (.anyhow "Missing block") (get db .default (blockKey hashBytes))
  orFail (.anyhow "Deserialize block failed") (blockCodec.read blockBytes)

/-- The stored header, or that of the stored block on a very old node. -/
def loadHeader (db : Db) (height : Nat) : Result BlockHeader :=
  match get db .default (headerKey height) with
  | some bytes => orFail (.anyhow "bincode") (headerCodec.read bytes)
  | none => do
      let block ← loadBlockFromDb db height
      pure block.header

/-- The timestamps found at the given heights; a height without a block is skipped. -/
def storedTimes (db : Db) : List Nat → Result (List UInt32)
  | [] => .ok []
  | i :: rest =>
      match (get db .default (heightKey i)).bind fun h => get db .default (blockKey h) with
      | none => storedTimes db rest
      | some bytes => do
          let block ← orPanic "Deserialize failed" (blockCodec.read bytes)
          let times ← storedTimes db rest
          pure (block.header.timestamp :: times)

def getMedianTimestamp (db : Db) (height : Nat) : Result UInt32 := do
  let window := List.range' (height - 10) (height - (height - 10) + 1)
  let times ← storedTimes db window.reverse
  let sorted := times.insertionSort (· ≤ ·)
  pure (sorted.getD (sorted.length / 2) 0)

/-- A header that must be there: `unwrap` on the load. -/
def headerAt (db : Db) (height : Nat) : Result BlockHeader :=
  match loadHeader db height with
  | .ok header => .ok header
  | .error _ => .error (.panic "load_header unwrap")

def retarget (oldTarget actualTime genesisTarget : Nat) : Nat :=
  let clamped := max (expectedTime / 4) (min actualTime (expectedTime * 4))
  let newTarget := oldTarget * clamped / expectedTime
  let newTarget := min newTarget (oldTarget * 4)
  let newTarget := max newTarget (oldTarget / 4)
  min newTarget genesisTarget

def calculateNextBits (db : Db) (height : Nat) : Result UInt32 :=
  if height % difficultyAdjustInterval ≠ 0 then do
    let header ← headerAt db (usizeSub height 1)
    pure header.bits
  else do
    let startHeader ← headerAt db (usizeSub height difficultyAdjustInterval)
    let endHeader ← headerAt db (usizeSub height 1)
    let actualTime := (endHeader.timestamp - startHeader.timestamp).toNat
    let oldTarget ← compactToTarget endHeader.bits
    let genesisTarget ← compactToTarget 0x1d00ffff
    let medianTime ← getMedianTimestamp db (usizeSub height 1)
    if endHeader.timestamp ≤ medianTime then pure (targetToCompact oldTarget)
    else pure (targetToCompact (retarget oldTarget actualTime genesisTarget))

def collectOutputs (db : Db) (isAnonymous : Bool) :
    List Transaction → Map Outpoint TXOutput → Result (Map Outpoint TXOutput)
  | [], outputs => .ok outputs
  | tx :: rest, outputs =>
      if tx.isAnonymous = isAnonymous then do
        let outputs ← gatherStored db isAnonymous "Deserialize output failed" tx.inputs outputs
        collectOutputs db isAnonymous rest outputs
      else collectOutputs db isAnonymous rest outputs

def totalFees (utxos anonOutputs : Map Outpoint TXOutput) (txs : List Transaction) :
    Option UInt64 :=
  checkedSum (txs.map fun tx => fee tx (if tx.isAnonymous then anonOutputs else utxos))

/-- The input points, output points and queued proofs of one transaction of a block. -/
def commitmentsOf (anonOutputs : Map Outpoint TXOutput) (tx : Transaction) :
    Result (List env.Point × List env.Point × List (env.RangeProof × env.Point × UInt64)) :=
  if tx.isAnonymous then do
    let spent := tx.inputs.filterMap fun vin =>
      (anonOutputs.lookup vin.outpoint).bind TXOutput.commitment
    let inputs ← spent.mapM (pointFromSlice env)
    let created := tx.outputs.filterMap TXOutput.commitment
    let outputs ← created.mapM (pointFromSlice env)
    let queue ← queueProofs env tx
    pure (inputs, outputs, queue)
  else pure ([], [], [])

/-- The commitment rules of a block: range proofs, and inputs against outputs plus fees. -/
def checkCommitments (anonOutputs : Map Outpoint TXOutput) (fees : UInt64)
    (txs : List Transaction) : Result Unit := do
  let parts ← txs.mapM (commitmentsOf env anonOutputs)
  if (env.verifyBatch (parts.flatMap fun p => p.2.2)).isNone then fail .invalidRangeProof
  let inputs := sumPoints env (parts.flatMap fun p => p.1)
  let outputs := sumPoints env (parts.flatMap fun p => p.2.1)
  if inputs ≠ outputs + env.commit fees then fail .invalidCommitment

def checkHeader (db : Db) (block : Block) (height : Nat) : Result Hash := do
  if block.size > maxBlockSize then fail (.invalidBlock "Block too large")
  let hash ← headerHash env block.header
  let target ← compactToTarget block.header.bits
  if u256FromBe hash > target then fail .insufficientPoW
  let bits ← calculateNextBits db height
  if block.header.bits ≠ bits then fail (.invalidBlock "Invalid bits")
  if block.header.merkleRoot ≠ computeMerkleRoot env block.txs then
    fail (.invalidBlock "Invalid Merkle root")
  pure hash

def checkTransactions (db : Db) (bestHeight : Nat) (coinbase : Transaction)
    (rest : List Transaction) (height : Nat) : Result Unit := do
  let utxos ← collectOutputs db false rest ∅
  let anonOutputs ← collectOutputs db true rest ∅
  rest.forM fun tx => validateTransaction env db bestHeight tx height
  let fees ← orFail .invalidCoinbaseFee (totalFees utxos anonOutputs rest)
  let expected ← orFail .invalidCoinbaseFee (checkedAdd (subsidy height) fees)
  if coinbase.outputs.head?.map TXOutput.value ≠ some expected then fail .invalidCoinbaseFee
  checkCommitments env anonOutputs fees (coinbase :: rest)

def checkContext (db : Db) (nowMs : Option Nat) (block : Block) (height : Nat) (hash : Hash) :
    Result Unit := do
  let medianTime ← getMedianTimestamp db (usizeSub height 1)
  let now ← orFail .invalidTimestamp nowMs
  let currentTime := UInt32.ofNat (now / 1000)
  if block.header.timestamp ≤ medianTime ∨ block.header.timestamp > currentTime + 7200 then
    fail .invalidTimestamp
  if (env.checkpointHashes height).any fun expected => hash ≠ expected then fail .attackDetected

/-- `Chain::validate_block` on a database, a best height and a clock reading. -/
def validateBlock (db : Db) (bestHeight : Nat) (nowMs : Option Nat) (block : Block)
    (height : Nat) : Result Unit := do
  let hash ← checkHeader env db block height
  match block.txs with
  | [] => fail (.invalidBlock "No coinbase")
  | coinbase :: rest =>
      if !isCoinbase coinbase then fail (.invalidBlock "No coinbase")
      checkTransactions env db bestHeight coinbase rest height
      checkContext env db nowMs block height hash

end Lyrion.Node
