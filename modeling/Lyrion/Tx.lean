/- GID: Lyrion/Tx
   digest: Transaction hashing, script checks, and the two transaction validators. -/

import Lyrion.Utils

set_option autoImplicit false
set_option relaxedAutoImplicit false

namespace Lyrion.Tx

open Library.ByteCodec Library.KeyValue Data Utils

/-- What the chain code takes from elsewhere: hashes, signatures, curve points and proofs of other
crates, the checkpoints of the configuration file, and `load_supply_from_db`, which it calls and
the repository does not define. -/
structure Env where
  sha256d : Bytes → Hash
  hash160 : Bytes → Hash160
  powHash : Bytes → Option Hash
  isKeyImage : Bytes → Bool
  Clsag : Type
  readClsag : Bytes → Option Clsag
  ringLen : Clsag → Nat
  verifyClsag : Clsag → Hash → Bytes → Bool
  Point : Type
  pointGroup : AddCommGroup Point
  pointEq : DecidableEq Point
  decompress : Bytes → Option Point
  commit : UInt64 → Point
  RangeProof : Type
  readRangeProof : Bytes → Option RangeProof
  verifyBatch : List (RangeProof × Point × UInt64) → Option Bool
  Signature : Type
  PublicKey : Type
  signatureFromDer : Bytes → Option Signature
  publicKeyFromSlice : Bytes → Option PublicKey
  verifyEcdsa : Hash → Signature → PublicKey → Bool
  checkpointHashes : Nat → Option Hash
  loadSupplyFromDb : Db → UInt64
  loadSupply_stored : ∀ (db : Db) (supply : UInt64),
    get db .default stateTotalSupplyKey = some (leBytes 8 supply.toNat) →
      loadSupplyFromDb db = supply
  loadSupply_absent : ∀ db : Db, get db .default stateTotalSupplyKey = none →
    loadSupplyFromDb db = 0

attribute [instance] Env.pointGroup Env.pointEq

/-- A polynomial in the bytes, kept below `2 ^ bits`. -/
def rollingSum (bits : Nat) (bs : Bytes) : Nat :=
  bs.foldl (fun acc b => (acc * 257 + b.toNat + 1) % 2 ^ bits) 1

def sampleSupply (db : Db) : UInt64 :=
  ((get db .default stateTotalSupplyKey).map fun bytes => UInt64.ofNat (ofLeBytes bytes)).getD 0

def sampleEnv : Env where
  sha256d bs := ⟨(beBytes 32 (rollingSum 256 bs)).toArray, by simp⟩
  hash160 bs := ⟨(beBytes 20 (rollingSum 160 bs)).toArray, by simp⟩
  powHash bs := some ⟨(beBytes 32 (rollingSum 200 bs)).toArray, by simp⟩
  isKeyImage _ := true
  Clsag := Bytes
  readClsag := some
  ringLen _ := 1
  verifyClsag _ _ _ := true
  Point := ℤ
  pointGroup := inferInstance
  pointEq := inferInstance
  decompress bs := some (ofBeBytes bs)
  commit v := v.toNat
  RangeProof := Bytes
  readRangeProof := some
  verifyBatch _ := some true
  Signature := Bytes
  PublicKey := Bytes
  signatureFromDer := some
  publicKeyFromSlice := some
  verifyEcdsa _ signature key := signature = key
  checkpointHashes _ := none
  loadSupplyFromDb := sampleSupply
  loadSupply_stored db supply stored := by
    rw [sampleSupply, stored, Option.map_some, Option.getD_some,
      ofLeBytes_leBytes 8 _ (by simpa using supply.toNat_lt), UInt64.ofNat_toNat]
  loadSupply_absent db absent := by
    rw [sampleSupply, absent]
    rfl

variable (env : Env)

/-- `Transaction::hash`; its cache only repeats the same value. -/
def txHash (tx : Transaction) : Hash := env.sha256d (transactionCodec.encode tx)

def clearScripts (tx : Transaction) : Transaction :=
  { tx with inputs := tx.inputs.map fun vin => { vin with scriptSig := [] } }

/-- `Transaction::sighash`. The index panics when it is out of range. -/
def sighash (tx : Transaction) (inputIdx : Nat) (scriptPubkey : Bytes) (sighashType : UInt32) :
    Result Hash :=
  if inputIdx < tx.inputs.length then
    let signed := (clearScripts tx).inputs.modify inputIdx fun vin =>
      { vin with scriptSig := scriptPubkey }
    let data := transactionCodec.encode { tx with inputs := signed }
    .ok (env.sha256d (data ++ leBytes 4 sighashType.toNat))
  else .error (.panic "tx_copy.inputs[input_idx]")

def isCoinbase (tx : Transaction) : Bool :=
  match tx.inputs with
  | [vin] => vin.txid = zeroHash && vin.vout = maxU32
  | _ => false

/-- `Transaction::fee`: a missing input counts 0, an overflow gives 0. -/
def fee (tx : Transaction) (outputs : Map Outpoint TXOutput) : UInt64 :=
  match checkedSum (tx.inputs.map fun vin =>
      ((outputs.lookup vin.outpoint).map TXOutput.value).getD 0),
    checkedSum (tx.outputs.map TXOutput.value) with
  | some inputSum, some outputSum => saturatingSub inputSum outputSum
  | _, _ => 0

def headerHash (header : BlockHeader) : Result Hash :=
  orFail (.anyhow "RandomX hash failed") (env.powHash (headerCodec.encode header))

def merkleLevel : List Hash → List Hash
  | a :: b :: rest => env.sha256d (a.toList ++ b.toList) :: merkleLevel rest
  | _ => []

def merkleLoop : Nat → List Hash → List Hash
  | 0, hashes => hashes
  | fuel + 1, hashes =>
      if hashes.length > 1 then
        let padded := if hashes.length % 2 = 1 then hashes ++ hashes.getLast?.toList else hashes
        merkleLoop fuel (merkleLevel env padded)
      else hashes

def computeMerkleRoot (txs : List Transaction) : Hash :=
  let hashes := txs.map (txHash env)
  (merkleLoop env hashes.length hashes).headD zeroHash

def byteAt (bs : Bytes) (i : Nat) : Result UInt8 := orPanic "index out of bounds" bs[i]?

def sliceOf (bs : Bytes) (lo hi : Nat) : Result Bytes :=
  if lo ≤ hi ∧ hi ≤ bs.length then .ok ((bs.take hi).drop lo)
  else .error (.panic "slice index out of range")

/-- The shared end of both script forms: the last byte of the signature is the hash type. -/
def checkSignature (sig pubkey : Bytes) (output : TXOutput) (tx : Transaction) (inputIdx : Nat)
    (badKey : String) : Result Unit := do
  let sighashType ← byteAt sig (sig.length - 1)
  let msgHash ← sighash env tx inputIdx output.scriptPubkey sighashType.toUInt32
  let signature ← orFail (.anyhow "Invalid DER signature") (env.signatureFromDer sig.dropLast)
  let pk ← orFail (.anyhow badKey) (env.publicKeyFromSlice pubkey)
  if env.verifyEcdsa msgHash signature pk then pure () else fail .invalidSignature

def checkP2pkh (input : TXInput) (output : TXOutput) (tx : Transaction) (inputIdx : Nat) :
    Result Unit := do
  let script := output.scriptPubkey
  if script[0]? ≠ some 0x76 ∨ script[1]? ≠ some 0xa9 ∨ script[2]? ≠ some 0x14 ∨
      script[23]? ≠ some 0x88 ∨ script[24]? ≠ some 0xac then
    fail .invalidScript
  let pubkeyHash := (script.take 23).drop 3
  let sigLen := (← byteAt input.scriptSig 0).toNat
  if sigLen + 1 > input.scriptSig.length then fail .invalidScript
  let sig ← sliceOf input.scriptSig 1 (1 + sigLen)
  let pubkeyLen := (← byteAt input.scriptSig (1 + sigLen)).toNat
  if 2 + sigLen + pubkeyLen > input.scriptSig.length then fail .invalidScript
  let pubkey ← sliceOf input.scriptSig (2 + sigLen) (2 + sigLen + pubkeyLen)
  if (env.hash160 pubkey).toList ≠ pubkeyHash then fail .invalidScript
  if sig = [] then fail .invalidScript
  checkSignature env sig pubkey output tx inputIdx "Invalid public key"

def checkP2pk (input : TXInput) (output : TXOutput) (tx : Transaction) (inputIdx : Nat) :
    Result Unit := do
  let pubkey := (output.scriptPubkey.take 33).drop 1
  let _ ← orFail (.anyhow "Invalid P2PK pubkey") (env.publicKeyFromSlice pubkey)
  if input.scriptSig = [] then fail .invalidScript
  checkSignature env input.scriptSig pubkey output tx inputIdx "Invalid P2PK pubkey"

/-- `validate_script_with_timeout`, on a run whose timeout does not fire. -/
def validateScriptWithTimeout (input : TXInput) (output : TXOutput) (tx : Transaction)
    (inputIdx : Nat) : Result Unit :=
  if output.scriptPubkey.length = 25 then checkP2pkh env input output tx inputIdx
  else if output.scriptPubkey.length = 34 ∧ output.scriptPubkey[0]? = some 0x21 ∧
      output.scriptPubkey[33]? = some 0xac then
    checkP2pk env input output tx inputIdx
  else fail .invalidScript

/-- `CompressedRistretto::from_slice(comm).decompress()`: panics unless the slice has 32 bytes. -/
def pointFromSlice (comm : Bytes) : Result env.Point :=
  if comm.length = 32 then orFail .invalidCommitment (env.decompress comm)
  else .error (.panic "CompressedRistretto::from_slice")

def commitmentPoint (out : TXOutput) : Result env.Point := do
  let comm ← orFail .invalidCommitment out.commitment
  pointFromSlice env comm

/-- The input loop of `validate_anonymous_tx`: the value sum and the input commitments. -/
def anonymousInputs (db : Db) (tx : Transaction) (outputs : Map Outpoint TXOutput) :
    List TXInput → List Bytes → UInt64 → List env.Point → Result (UInt64 × List env.Point)
  | [], _, inputSum, commitments => .ok (inputSum, commitments)
  | vin :: rest, seen, inputSum, commitments => do
      if vin.scriptSig.length < 32 then fail .invalidScript
      let keyImage := vin.scriptSig.take 32
      if !env.isKeyImage keyImage then fail .invalidKeyImage
      if keyImage ∈ seen then fail .doubleSpend
      if (get db .keyImages keyImage).isSome then fail .doubleSpend
      let clsag ← orFail (.anyhow "Deserialize clsag error") (env.readClsag (vin.scriptSig.drop 32))
      if env.ringLen clsag > maxRingSize ∨ env.ringLen clsag = 0 then fail .invalidScript
      if !env.verifyClsag clsag (txHash env tx) keyImage then fail (.anyhow "Clsag verify error")
      let out ← orFail .missingUTXO (outputs.lookup vin.outpoint)
      let inputSum ← orFail .valueOverflow (checkedAdd inputSum out.value)
      let point ← commitmentPoint env out
      anonymousInputs db tx outputs rest (keyImage :: seen) inputSum (commitments ++ [point])

def queueProof (out : TXOutput) (proofBytes : Bytes) :
    Result (env.RangeProof × env.Point × UInt64) := do
  let proof ← orFail (.anyhow "Deserialize proof error") (env.readRangeProof proofBytes)
  let point ← commitmentPoint env out
  pure (proof, point, out.value)

/-- The queue of a transaction: as many proofs as the shorter of the two lists. -/
def queueProofs (tx : Transaction) : Result (List (env.RangeProof × env.Point × UInt64)) :=
  (tx.outputs.zip tx.rangeProofs).mapM fun p => queueProof env p.1 p.2

def sumPoints (points : List env.Point) : env.Point :=
  points.foldl (· + ·) (env.commit 0)

def validateAnonymousTx (tx : Transaction) (outputs : Map Outpoint TXOutput) (db : Db) :
    Result Unit := do
  let (inputSum, inputCommitments) ← anonymousInputs env db tx outputs tx.inputs [] 0 []
  let outputSum ← orFail .valueOverflow (checkedSum (tx.outputs.map TXOutput.value))
  let fee ← orFail .valueOverflow (checkedSub inputSum outputSum)
  let queue ← queueProofs env tx
  let verified ← orFail .invalidRangeProof (env.verifyBatch queue)
  if !verified then fail .invalidRangeProof
  let outputCommitments ← tx.outputs.mapM (commitmentPoint env)
  if sumPoints env inputCommitments ≠ sumPoints env outputCommitments + env.commit fee then
    fail .invalidCommitment

/-- The first input loop of `validate_transaction`: repeated outpoints and maturity. -/
def checkInputs (db : Db) (height : Nat) : List Outpoint → List TXInput → Result Unit
  | _, [] => .ok ()
  | seen, vin :: rest =>
      if vin.outpoint ∈ seen then fail .doubleSpend
      else
        match get db .coinbase vin.txid.toList with
        | none => checkInputs db height (vin.outpoint :: seen) rest
        | some bytes =>
            if bytes.length ≠ 8 then fail (.anyhow "Invalid cb height bytes")
            else if height - ofBeBytes bytes < coinbaseMaturity then fail .coinbaseImmature
            else checkInputs db height (vin.outpoint :: seen) rest

def gatherUtxos (db : Db) :
    List TXInput → UInt64 → Map Outpoint TXOutput → Result (UInt64 × Map Outpoint TXOutput)
  | [], inputSum, outputs => .ok (inputSum, outputs)
  | vin :: rest, inputSum, outputs => do
      let value ← orFail .missingUTXO (get db .utxo (coinKey false vin.txid vin.vout))
      let utxo ← orFail (.anyhow "Deserialize utxo failed") (txOutputCodec.read value)
      let inputSum ← orFail .valueOverflow (checkedAdd inputSum utxo.value)
      gatherUtxos db rest inputSum (outputs.insert vin.outpoint utxo)

def gatherStored (db : Db) (isAnonymous : Bool) (unreadable : String) :
    List TXInput → Map Outpoint TXOutput → Result (Map Outpoint TXOutput)
  | [], outputs => .ok outputs
  | vin :: rest, outputs =>
      match get db (coinFamily isAnonymous) (coinKey isAnonymous vin.txid vin.vout) with
      | none => gatherStored db isAnonymous unreadable rest outputs
      | some value => do
          let output ← orFail (.anyhow unreadable) (txOutputCodec.read value)
          gatherStored db isAnonymous unreadable rest (outputs.insert vin.outpoint output)

/-- `(tx.size() as u64).checked_mul(MIN_FEE_PER_BYTE)`; a size always fits in 64 bits. -/
def sizeFee (size : Nat) : Option UInt64 :=
  if size * minFeePerByte.toNat < 2 ^ 64 then some (UInt64.ofNat (size * minFeePerByte.toNat))
  else none

/-- The fee a transaction must pay, as the 64-bit word it is compared as. -/
def requiredFee (tx : Transaction) : Result UInt64 :=
  if tx.isAnonymous then
    .ok (UInt64.ofNat ((tx.size * minFeePerByte.toNat * anonFeeMultiplierNumerator +
      (anonFeeMultiplierDenominator - 1)) / anonFeeMultiplierDenominator))
  else orFail .valueOverflow (sizeFee tx.size)

def lockTimeOpen (tx : Transaction) (bestHeight : Nat) : Bool :=
  tx.lockTime.toNat > bestHeight % 2 ^ 32 && tx.inputs.any fun vin => vin.sequence ≠ maxU32

/-- The input sum; an anonymous transaction is checked and leaves the sum at 0. -/
def inputSumOf (db : Db) (tx : Transaction) : Result UInt64 :=
  if tx.isAnonymous then do
    let anonOutputs ← gatherStored db true "Deserialize anon failed" tx.inputs ∅
    validateAnonymousTx env tx anonOutputs db
    pure 0
  else do
    let (inputSum, _) ← gatherUtxos db tx.inputs 0 ∅
    pure inputSum

def checkPayment (tx : Transaction) (inputSum : UInt64) : Result Unit := do
  let outputSum ← orFail .valueOverflow (checkedSum (tx.outputs.map TXOutput.value))
  if outputSum.toNat > inputSum.toNat then fail (.invalidTx "Outputs exceed inputs")
  let fee ← orFail .valueOverflow (checkedSub inputSum outputSum)
  let required ← requiredFee tx
  if fee.toNat < required.toNat then fail .insufficientFee

/-- `validate_transaction`. The outputs gathered for a transparent transaction are not used
after their values have been added up. -/
def validateTransaction (db : Db) (bestHeight : Nat) (tx : Transaction) (height : Nat) :
    Result Unit :=
  if isCoinbase tx then .ok ()
  else if lockTimeOpen tx bestHeight then fail .invalidLockTime
  else do
    checkInputs db height [] tx.inputs
    let inputSum ← inputSumOf env db tx
    checkPayment tx inputSum

def p2pkhScript (pubkey : Bytes) : Bytes :=
  [0x76, 0xa9, 0x14] ++ (env.hash160 pubkey).toList ++ [0x88, 0xac]

/-- `b"Lyrion Network – Privacy by Design – Launched November 20, 2025"`. -/
def genesisMessage : Bytes :=
  [ 0x4c, 0x79, 0x72, 0x69, 0x6f, 0x6e, 0x20, 0x4e, 0x65, 0x74, 0x77, 0x6f, 0x72, 0x6b,
    0x20, 0xe2, 0x80, 0x93, 0x20, 0x50, 0x72, 0x69, 0x76, 0x61, 0x63, 0x79, 0x20, 0x62,
    0x79, 0x20, 0x44, 0x65, 0x73, 0x69, 0x67, 0x6e, 0x20, 0xe2, 0x80, 0x93, 0x20, 0x4c,
    0x61, 0x75, 0x6e, 0x63, 0x68, 0x65, 0x64, 0x20, 0x4e, 0x6f, 0x76, 0x65, 0x6d, 0x62,
    0x65, 0x72, 0x20, 0x32, 0x30, 0x2c, 0x20, 0x32, 0x30, 0x32, 0x35 ]

def genesisCoinbase (pubkey : Bytes) : Transaction where
  version := 1
  isAnonymous := false
  inputs := [⟨zeroHash, maxU32, genesisMessage, maxU32⟩]
  outputs := [⟨subsidy 0, p2pkhScript env pubkey, none⟩]
  lockTime := 0
  rangeProofs := []

def genesisHeader (pubkey : Bytes) (nonce : UInt64) : BlockHeader where
  version := 1
  prevHash := zeroHash
  merkleRoot := computeMerkleRoot env [genesisCoinbase env pubkey]
  timestamp := genesisTimestamp
  bits := 0x1d00ffff
  nonce := nonce

def mineGenesis (pubkey : Bytes) (target : Nat) : Nat → UInt64 → Result BlockHeader
  | 0, _ => fail (.anyhow "Impossible to mine genesis – increase bits")
  | fuel + 1, nonce => do
      let header := genesisHeader env pubkey nonce
      let hash ← headerHash env header
      if u256FromBe hash ≤ target then pure header
      else mineGenesis pubkey target fuel (nonce + 1)

def createGenesisBlock (pubkey : Bytes) : Result Block := do
  let target ← compactToTarget 0x1d00ffff
  let header ← mineGenesis env pubkey target (2 ^ 64) 0
  pure ⟨header, [genesisCoinbase env pubkey]⟩

end Lyrion.Tx
