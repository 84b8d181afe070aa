/- GID: Lyrion/Wallet
   digest: The wallet's keys, its choice of coins and fee, and the transaction it builds and
     signs. -/

import Lyrion.Node.Addresses

set_option autoImplicit false
set_option relaxedAutoImplicit false

namespace Lyrion

open Library.ByteCodec Data Utils Tx Node

/-- `m/44'/1987'/0'/chain/index`, which a coin carries as text and the wallet parses back. -/
structure DerivationPath where
  chain : Nat
  index : Nat
  deriving DecidableEq

/-- The master key with the curve it works on. Signatures verify under the key that made them, keys
are compressed, and signatures are strict DER: a short encoding is a sequence that says its length
and begins with an integer. -/
structure Master (env : Env) where
  SecretKey : Type
  derivePriv : DerivationPath → Result SecretKey
  fromSecretKey : SecretKey → env.PublicKey
  serialize : env.PublicKey → Bytes
  signEcdsa : Hash → SecretKey → env.Signature
  serializeDer : env.Signature → Bytes
  length_serialize : ∀ pk, (serialize pk).length = 33
  publicKeyFromSlice_serialize : ∀ pk, env.publicKeyFromSlice (serialize pk) = some pk
  verify_sign : ∀ msg sk, env.verifyEcdsa msg (signEcdsa msg sk) (fromSecretKey sk) = true
  length_serializeDer : ∀ sig, (serializeDer sig).length ∈ Set.Icc 8 72
  signatureFromDer_serializeDer : ∀ sig, env.signatureFromDer (serializeDer sig) = some sig
  strict_der : ∀ bytes sig, bytes.length < 128 → env.signatureFromDer bytes = some sig →
    ∃ body, bytes = 0x30 :: UInt8.ofNat (body.length + 1) :: 0x02 :: body

/-- What the wallet knows of a coin it can spend. -/
structure Utxo where
  txid : Hash
  vout : UInt32
  value : UInt64
  scriptPubkey : Bytes
  derivationPath : DerivationPath

/-- The wallet, with the reading of addresses that it takes from another crate. -/
structure Wallet (env : Env) where
  master : Master env
  currentChangeIndex : Nat
  addressToPubkeyHash : String → Result Hash160

namespace Wallet

section Coins

variable (amount : UInt64)

/-- The loop that takes coins until there are 100 000 units to spare; `inputSum` is what has been
taken before. -/
def takeInputs : UInt64 → List Utxo → List Utxo
  | _, [] => []
  | inputSum, u :: rest =>
      if inputSum + u.value ≥ amount + 100000 then [u]
      else u :: takeInputs (inputSum + u.value) rest

def selectInputs (utxos : List Utxo) : List Utxo :=
  takeInputs amount 0 (utxos.insertionSort fun u v => v.value ≤ u.value)

def inputSum (inputs : List Utxo) : UInt64 := (inputs.map Utxo.value).foldl (· + ·) 0

end Coins

section Fees

def dust : UInt64 := 1000

def dummySigSize : Nat := 106

def overhead : Nat := 10 + 4 + 4 + 4 + 4

/-- The fee for a number of inputs and outputs, by the size the wallet expects. -/
def estimate (feeRate : UInt64) (inputs outputsCount : Nat) : UInt64 :=
  UInt64.ofNat (overhead + inputs * dummySigSize + outputsCount * 34 + inputs * 4) * feeRate

def firstFee (feeRate : UInt64) (inputs : Nat) : UInt64 :=
  UInt64.ofNat (inputs * dummySigSize + overhead + 34) * feeRate

/-- What is left of `spare` after a fee is worth an output of its own. -/
def outputsCount (spare fee : UInt64) : Nat := if spare - fee > dust then 2 else 1

def close (newFee fee : UInt64) : Bool := (newFee.toInt64 - fee.toInt64).abs < 20

/-- The loop for the fee. It stops with the old fee when the new one is close to it. -/
def feeLoop (feeRate spare : UInt64) (inputs : Nat) : Nat → UInt64 → UInt64
  | 0, fee => fee
  | rounds + 1, fee =>
      let newFee := estimate feeRate inputs (outputsCount spare fee)
      if close newFee fee then fee else feeLoop feeRate spare inputs rounds newFee

def settledFee (feeRate spare : UInt64) (inputs : Nat) : UInt64 :=
  feeLoop feeRate spare inputs 20 (firstFee feeRate inputs)

end Fees

section Building

variable {env : Env} (wallet : Wallet env)

/-- The change: to the next change key, or, as small as it may be, to a given address. -/
def changeOutput (change : UInt64) (changeAddr : Option String) : Result (List TXOutput) :=
  if change > dust then do
    let sk ← wallet.master.derivePriv ⟨1, wallet.currentChangeIndex⟩
    let pk := wallet.master.fromSecretKey sk
    pure [⟨change, p2pkhScript env (wallet.master.serialize pk), none⟩]
  else
    match changeAddr with
    | some ch => do
        let chPkh ← wallet.addressToPubkeyHash ch
        pure [⟨change, p2pkhScriptFromPkh chPkh, none⟩]
    | none => pure []

def unsignedTx (inputs : List Utxo) (outputs : List TXOutput) : Transaction where
  version := 1
  isAnonymous := false
  inputs := inputs.map fun u => ⟨u.txid, u.vout, [], 0xffffffff⟩
  outputs := outputs
  lockTime := 0
  rangeProofs := []

def scriptSigOf (sighash : Hash) (sk : wallet.master.SecretKey) : Bytes :=
  wallet.master.serializeDer (wallet.master.signEcdsa sighash sk) ++ [0x01] ++
    wallet.master.serialize (wallet.master.fromSecretKey sk)

/-- One round of the signing loop, on the transaction as the rounds before have left it. -/
def signInput (tx : Transaction) (entry : Utxo × Nat) : Result Transaction := do
  let sk ← wallet.master.derivePriv entry.1.derivationPath
  let hash ← sighash env tx entry.2 entry.1.scriptPubkey 0x01
  pure { tx with inputs := tx.inputs.modify entry.2 fun vin =>
    { vin with scriptSig := scriptSigOf wallet hash sk } }

/-- `create_tx`, on the coins that `get_utxos(true)` has found. -/
def createTx (utxos : List Utxo) (recipient : String) (amount feeRate : UInt64)
    (changeAddr : Option String) : Result (Transaction × Hash) := do
  let inputs := selectInputs amount utxos
  if inputSum inputs < amount then fail (.anyhow "Insufficient funds")
  let fee := settledFee feeRate (inputSum inputs - amount) inputs.length
  let change := inputSum inputs - amount - fee
  if inputSum inputs < amount + fee then fail (.anyhow "Insufficient funds (fees included)")
  let toPkh ← wallet.addressToPubkeyHash recipient
  let rest ← changeOutput wallet change changeAddr
  let outputs := ⟨amount, p2pkhScriptFromPkh toPkh, none⟩ :: rest
  let tx ← inputs.zipIdx.foldlM (signInput wallet) (unsignedTx inputs outputs)
  pure (tx, txHash env tx)

end Building

section Samples

/-- A signature that is the message with the key, in an encoding of 72 bytes. -/
def sampleDer (sig : Hash × Hash) : Bytes :=
  [0x30, 0x46, 0x02] ++ (sig.1.toList ++ (sig.2.toList ++ [0, 0, 0, 0, 0]))

def readSampleDer (bytes : Bytes) : Option (Hash × Hash) :=
  if bytes.length = 72 ∧ bytes.take 3 = [0x30, 0x46, 0x02] then do
    let msg ← hashOfBytes ((bytes.drop 3).take 32)
    let key ← hashOfBytes ((bytes.drop 35).take 32)
    pure (msg, key)
  else none

private theorem readSampleDer_sampleDer (sig : Hash × Hash) : readSampleDer (sampleDer sig) = some
    sig := by
  have msg : ((sampleDer sig).drop 3).take 32 = sig.1.toList := by
    rw [sampleDer, List.drop_left' (by simp), List.take_left' (by simp)]
  have key : ((sampleDer sig).drop 35).take 32 = sig.2.toList := by
    rw [sampleDer, ← List.append_assoc, List.drop_left' (by simp), List.take_left' (by simp)]
  have tagged : (sampleDer sig).length = 72 ∧ (sampleDer sig).take 3 = [0x30, 0x46, 0x02] :=
    ⟨by simp [sampleDer], rfl⟩
  rw [readSampleDer, if_pos tagged, msg, key, hashOfBytes_toList, hashOfBytes_toList]
  rfl

private theorem readSampleDer_strict {bytes : Bytes} {sig : Hash × Hash}
    (parsed : readSampleDer bytes = some sig) :
    ∃ body, bytes = 0x30 :: UInt8.ofNat (body.length + 1) :: 0x02 :: body := by
  by_cases tagged : bytes.length = 72 ∧ bytes.take 3 = [0x30, 0x46, 0x02]
  · refine ⟨bytes.drop 3, ?_⟩
    have whole := List.take_append_drop 3 bytes
    rw [tagged.2] at whole
    rw [List.length_drop, tagged.1]
    exact whole.symm
  · rw [readSampleDer, if_neg tagged] at parsed
    exact absurd parsed (by simp)

def readSampleKey : Bytes → Option Hash
  | 0x02 :: bytes => hashOfBytes bytes
  | _ => none

def sampleCurve : Env :=
  { sampleEnv with
    Signature := Hash × Hash
    PublicKey := Hash
    signatureFromDer := readSampleDer
    publicKeyFromSlice := readSampleKey
    verifyEcdsa := fun msg signature key => signature = (msg, key) }

def sampleMaster : Master sampleCurve where
  SecretKey := Hash
  derivePriv path := .ok (Vector.replicate 32 (UInt8.ofNat (path.index + 1)))
  fromSecretKey sk := sk
  serialize pk := 0x02 :: Vector.toList pk
  signEcdsa msg sk := (msg, sk)
  serializeDer := sampleDer
  length_serialize (pk : Hash) := by simp
  publicKeyFromSlice_serialize (pk : Hash) := hashOfBytes_toList pk
  verify_sign msg sk := by simp [sampleCurve]
  length_serializeDer (sig : Hash × Hash) := by simp [sampleDer]
  signatureFromDer_serializeDer := readSampleDer_sampleDer
  strict_der _ _ _ parsed := readSampleDer_strict parsed

def sampleWallet : Wallet sampleCurve where
  master := sampleMaster
  currentChangeIndex := 7
  addressToPubkeyHash _ := .ok (Vector.replicate 20 9)

def sampleUtxo (value : UInt64) : Utxo where
  txid := zeroHash
  vout := 0
  value := value
  scriptPubkey := p2pkhScript sampleCurve (0x02 :: Vector.toList (Vector.replicate 32 1))
  derivationPath := ⟨0, 0⟩

end Samples

end Wallet

end Lyrion
