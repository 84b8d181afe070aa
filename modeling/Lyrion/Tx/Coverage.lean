/- GID: Lyrion/Tx/Coverage
   digest: Which parts of a transaction stand behind a signature: the hash that an input signs, and
     the message of a ring signature. -/

import Lyrion.Tx.Anonymous
import Lyrion.Tx.Scripts

set_option autoImplicit false
set_option relaxedAutoImplicit false

namespace Lyrion.Tx

open Library.ByteCodec Library.KeyValue Data Utils

variable {tx tx' : Transaction} {i : Nat}

/-- Two transactions that agree on everything but the unlocking scripts. -/
structure SameButScripts (tx tx' : Transaction) : Prop where
  version : tx.version = tx'.version
  isAnonymous : tx.isAnonymous = tx'.isAnonymous
  inputs : (tx.inputs.map fun vin => (vin.txid, vin.vout, vin.sequence)) =
    tx'.inputs.map fun vin => (vin.txid, vin.vout, vin.sequence)
  outputs : tx.outputs = tx'.outputs
  lockTime : tx.lockTime = tx'.lockTime
  rangeProofs : tx.rangeProofs = tx'.rangeProofs

private theorem bare_inputs_iff {inputs inputs' : List TXInput} :
    (inputs.map fun vin => ({ vin with scriptSig := [] } : TXInput)) =
        (inputs'.map fun vin => { vin with scriptSig := [] }) ↔
      (inputs.map fun vin => (vin.txid, vin.vout, vin.sequence)) =
        inputs'.map fun vin => (vin.txid, vin.vout, vin.sequence) := by
  induction inputs generalizing inputs' with
  | nil => cases inputs' <;> simp
  | cons vin inputs ih =>
      cases inputs' with
      | nil => simp
      | cons vin' inputs' =>
          simp only [List.map_cons, List.cons.injEq, ih, TXInput.mk.injEq, Prod.mk.injEq, true_and]

private theorem sameButScripts_iff :
    SameButScripts tx tx' ↔ clearScripts tx = clearScripts tx' := by
  constructor
  · intro same
    simp only [clearScripts, Transaction.mk.injEq]
    exact ⟨same.version, same.isAnonymous, bare_inputs_iff.mpr same.inputs, same.outputs,
      same.lockTime, same.rangeProofs⟩
  · intro same
    simp only [clearScripts, Transaction.mk.injEq] at same
    obtain ⟨version, isAnonymous, inputs, outputs, lockTime, rangeProofs⟩ := same
    exact ⟨version, isAnonymous, bare_inputs_iff.mp inputs, outputs, lockTime, rangeProofs⟩

private theorem inputs_eq_of_scripts {inputs inputs' : List TXInput}
    (outside : (inputs.map fun vin => (vin.txid, vin.vout, vin.sequence)) =
      inputs'.map fun vin => (vin.txid, vin.vout, vin.sequence))
    (scripts : inputs.map TXInput.scriptSig = inputs'.map TXInput.scriptSig) :
    inputs = inputs' := by
  induction inputs generalizing inputs' with
  | nil => exact (List.map_eq_nil_iff.mp scripts.symm).symm
  | cons vin inputs ih =>
      cases inputs' with
      | nil => exact absurd scripts (by simp)
      | cons vin' inputs' =>
          simp only [List.map_cons, List.cons.injEq, Prod.mk.injEq] at outside scripts
          obtain ⟨⟨txid, vout, sequence⟩, later⟩ := outside
          obtain ⟨script, others⟩ := scripts
          have first : vin = vin' := by
            cases vin
            cases vin'
            simp_all
          rw [first, ih later others]

private theorem SameButScripts.eq_of_scripts (same : SameButScripts tx tx')
    (scripts : tx.inputs.map TXInput.scriptSig = tx'.inputs.map TXInput.scriptSig) : tx = tx' := by
  have inputs := inputs_eq_of_scripts same.inputs scripts
  obtain ⟨version, isAnonymous, -, outputs, lockTime, rangeProofs⟩ := same
  cases tx
  cases tx'
  simp only at version isAnonymous inputs outputs lockTime rangeProofs
  subst version isAnonymous inputs outputs lockTime rangeProofs
  rfl

section Sighash

variable {env : Env}

/-- The copy that is hashed for one input: every unlocking script is empty but the one of that
input, which is the script of the coin. -/
def signedCopy (tx : Transaction) (i : Nat) (script : Bytes) : Transaction :=
  { tx with
    inputs := (clearScripts tx).inputs.modify i fun vin => { vin with scriptSig := script } }

def signingData (tx : Transaction) (i : Nat) (script : Bytes) (sighashType : UInt32) : Bytes :=
  transactionCodec.encode (signedCopy tx i script) ++ leBytes 4 sighashType.toNat

private theorem sighash_eq_ok (inside : i < tx.inputs.length) (script : Bytes)
    (sighashType : UInt32) : sighash env tx i script sighashType =
      .ok (env.sha256d (signingData tx i script sighashType)) :=
  if_pos inside

private theorem clearScripts_signedCopy (tx : Transaction) (i : Nat) (script : Bytes) :
    clearScripts (signedCopy tx i script) = clearScripts tx := by
  simp only [clearScripts, signedCopy, map_bare_modify, List.map_map, Function.comp_def]

private theorem scriptSig_signedCopy (tx : Transaction) (i j : Nat) (script : Bytes) :
    (signedCopy tx i script).inputs[j]?.map TXInput.scriptSig =
      tx.inputs[j]?.map fun _ => if i = j then script else [] := by
  simp only [signedCopy, clearScripts, List.getElem?_modify, List.getElem?_map]
  cases tx.inputs[j]? with
  | none => rfl
  | some vin =>
      by_cases here : i = j
      · simp [here]
      · simp [here]

private theorem signedCopy_injective {i' : Nat} {script script' : Bytes}
    (inside : i < tx.inputs.length) (nonempty : script ≠ [])
    (same : signedCopy tx i script = signedCopy tx' i' script') :
    i = i' ∧ script = script' ∧ SameButScripts tx tx' := by
  have bare : clearScripts tx = clearScripts tx' := by
    rw [← clearScripts_signedCopy tx i script, same, clearScripts_signedCopy]
  have scripts := scriptSig_signedCopy tx i i script
  rw [same, scriptSig_signedCopy, List.getElem?_eq_getElem inside, Option.map_some, if_pos rfl,
    Option.map_eq_some_iff] at scripts
  obtain ⟨vin, -, found⟩ := scripts
  by_cases here : i' = i
  · rw [if_pos here] at found
    exact ⟨here.symm, found.symm, sameButScripts_iff.mpr bare⟩
  · rw [if_neg here] at found
    exact absurd found.symm nonempty

private theorem signingData_injective {i' : Nat} {script script' : Bytes}
    {sighashType sighashType' : UInt32} (inside : i < tx.inputs.length) (nonempty : script ≠ [])
    (sized : (signedCopy tx i script).size < 2 ^ 64)
    (sized' : (signedCopy tx' i' script').size < 2 ^ 64)
    (same : signingData tx i script sighashType = signingData tx' i' script' sighashType') :
    i = i' ∧ script = script' ∧ sighashType = sighashType' ∧ SameButScripts tx tx' := by
  obtain ⟨copies, suffixes⟩ := transactionCodec.encode_append_inj sized sized' same
  obtain ⟨index, scripts, rest⟩ := signedCopy_injective inside nonempty copies
  have short (k : UInt32) : (Codec.u32.encode k).length < 2 ^ 64 := by
    rw [Codec.length_encode_u32]
    decide
  exact ⟨index, scripts, Codec.u32.encode_injective (short _) (short _) suffixes, rest⟩

/-- A signature hash does not depend on any unlocking script, and unless two of the hashed strings
collide it determines everything else: the input, the script of the coin, the hash type and the
rest of the transaction. -/
theorem sighash_covers (env : Env) (tx tx' : Transaction) (i i' : Nat) (script script' : Bytes)
    (sighashType sighashType' : UInt32) (inside : i < tx.inputs.length)
    (inside' : i' < tx'.inputs.length) :
    (SameButScripts tx tx' →
      sighash env tx i script sighashType = sighash env tx' i script sighashType) ∧
    (script ≠ [] → script' ≠ [] → (signedCopy tx i script).size < 2 ^ 64 →
      (signedCopy tx' i' script').size < 2 ^ 64 →
      (env.sha256d (signingData tx i script sighashType) =
          env.sha256d (signingData tx' i' script' sighashType') →
        signingData tx i script sighashType = signingData tx' i' script' sighashType') →
      sighash env tx i script sighashType = sighash env tx' i' script' sighashType' →
        i = i' ∧ script = script' ∧ sighashType = sighashType' ∧ SameButScripts tx tx') := by
  constructor
  · intro same
    exact sighash_congr (sameButScripts_iff.mp same) i script sighashType
  · intro nonempty _ sized sized' free same
    rw [sighash_eq_ok inside, sighash_eq_ok inside'] at same
    exact signingData_injective inside nonempty sized sized' (free (Except.ok.inj same))

end Sighash

def sampleScripts (first second : Bytes) : Transaction where
  version := 1
  isAnonymous := true
  inputs := [⟨zeroHash, 0, first, maxU32⟩, ⟨zeroHash, 1, second, maxU32⟩]
  outputs := [⟨5000, [], some (beBytes 32 5000)⟩]
  lockTime := 0
  rangeProofs := [[]]

theorem other_scripts_covered :
    SameButScripts (sampleScripts [] []) (sampleScripts [1] [2, 3]) ∧
      sighash sampleEnv (sampleScripts [] []) 1 [0x51] 1 =
        sighash sampleEnv (sampleScripts [1] [2, 3]) 1 [0x51] 1 := by
  have covered := sighash_covers sampleEnv (sampleScripts [] []) (sampleScripts [1] [2, 3]) 1 1
    [0x51] [0x51] 1 1 (by decide) (by decide)
  have same := covered.1 (sameButScripts_iff.mpr rfl)
  obtain ⟨-, -, -, rest⟩ := covered.2 (by decide) (by decide) (by decide +kernel)
    (by decide +kernel) (fun _ => rfl) same
  exact ⟨rest, same⟩

section RingSignatures

variable {env : Env}

/-- The message that `validate_anonymous_tx` gives to `Clsag::verify`, for each of the inputs. -/
def ringMessage (env : Env) (tx : Transaction) : Hash := txHash env tx

def createPrefixHash (env : Env) (tx : Transaction) : Hash :=
  env.sha256d (transactionCodec.encode { clearScripts tx with rangeProofs := [] })

/-- The verifier is asked about no other message: another one that agrees on this message gives the
same verdict on the inputs. -/
theorem anonymousInputs_asks (db : Db) (tx : Transaction) (outputs : Map Outpoint TXOutput)
    {verify : env.Clsag → Hash → Bytes → Bool}
    (agree : ∀ clsag image, verify clsag (ringMessage env tx) image =
      env.verifyClsag clsag (ringMessage env tx) image)
    (inputs : List TXInput) (seen : List Bytes) (sum : UInt64) (points : List env.Point) :
    anonymousInputs { env with verifyClsag := verify } db tx outputs inputs seen sum points =
      anonymousInputs env db tx outputs inputs seen sum points := by
  induction inputs generalizing seen sum points with
  | nil => rfl
  | cons vin inputs ih =>
      have message (clsag : env.Clsag) (image : Bytes) :
          verify clsag (txHash { env with verifyClsag := verify } tx) image =
            env.verifyClsag clsag (txHash env tx) image := agree clsag image
      simp only [anonymousInputs, message]
      simp only [ih]
      rfl

/-- Two transactions that differ only behind the key images of their inputs. -/
structure SameButSignatures (tx tx' : Transaction) : Prop where
  scripts : SameButScripts tx tx'
  images : tx.inputs.map keyImageOf = tx'.inputs.map keyImageOf

/-- The message is the same exactly if the signatures are, since it is a hash of them too. The
prefix hash is the same for any signatures. -/
theorem ring_message_iff (env : Env) (tx tx' : Transaction) (_anonymous : tx.isAnonymous = true)
    (same : SameButSignatures tx tx') (sized : tx.size < 2 ^ 64) (sized' : tx'.size < 2 ^ 64)
    (free : txHash env tx = txHash env tx' →
      transactionCodec.encode tx = transactionCodec.encode tx') :
    createPrefixHash env tx = createPrefixHash env tx' ∧
      (ringMessage env tx = ringMessage env tx' ↔
        tx.inputs.map TXInput.scriptSig = tx'.inputs.map TXInput.scriptSig) := by
  constructor
  · rw [createPrefixHash, createPrefixHash, sameButScripts_iff.mp same.scripts]
  · constructor
    · intro messages
      obtain rfl := transactionCodec.encode_injective sized sized' (free messages)
      rfl
    · intro scripts
      rw [same.scripts.eq_of_scripts scripts]

end RingSignatures

def sampleSigned (signature : Bytes) : Transaction :=
  { sampleTransfer [[]] with
    inputs := [⟨zeroHash, 0, List.replicate 32 1 ++ signature, maxU32⟩] }

def sampleVerifier (message : Hash) : Env :=
  { sampleEnv with verifyClsag := fun _ asked _ => asked = message }

private theorem sampleSigned_same (signature other : Bytes) :
    SameButSignatures (sampleSigned signature) (sampleSigned other) where
  scripts := sameButScripts_iff.mpr rfl
  images := by simp [sampleSigned, keyImageOf]

/-- The message of the transfer without a signature cannot be signed: with the signature in its
place the transfer has another message, and the check of the signature fails. -/
theorem signature_changes_message :
    SameButSignatures (sampleSigned []) (sampleSigned [5]) ∧
      (sampleSigned []).isAnonymous = true ∧
      ringMessage sampleEnv (sampleSigned []) ≠ ringMessage sampleEnv (sampleSigned [5]) ∧
      validateAnonymousTx (sampleVerifier (ringMessage sampleEnv (sampleSigned [])))
        (sampleSigned []) sampleNotes emptyDb = .ok () ∧
      validateAnonymousTx (sampleVerifier (ringMessage sampleEnv (sampleSigned [])))
        (sampleSigned [5]) sampleNotes emptyDb = fail (.anyhow "Clsag verify error") :=
  ⟨sampleSigned_same [] [5], rfl, by decide +kernel, by decide +kernel, by decide +kernel⟩

theorem prefix_hash_kept :
    createPrefixHash sampleEnv (sampleSigned [4]) = createPrefixHash sampleEnv (sampleSigned [5]) ∧
      (ringMessage sampleEnv (sampleSigned [4]) = ringMessage sampleEnv (sampleSigned [5]) ↔
        (sampleSigned [4]).inputs.map TXInput.scriptSig =
          (sampleSigned [5]).inputs.map TXInput.scriptSig) :=
  ring_message_iff sampleEnv (sampleSigned [4]) (sampleSigned [5]) rfl (sampleSigned_same [4] [5])
    (by decide +kernel) (by decide +kernel) (by decide +kernel)

end Lyrion.Tx
