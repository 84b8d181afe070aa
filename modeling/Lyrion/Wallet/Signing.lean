/- GID: Lyrion/Wallet/Signing
   digest: The unlocking scripts of the wallet against the script checker. -/

import Lyrion.Tx.Scripts
import Lyrion.Wallet

set_option autoImplicit false
set_option relaxedAutoImplicit false

namespace Lyrion.Wallet

open Library.ByteCodec Data Utils Tx Node

variable {env : Env} {wallet : Wallet env}

section Creation

variable {utxos : List Utxo} {recipient : String} {amount feeRate : UInt64}
  {changeAddr : Option String} {tx : Transaction} {hash : Hash}

def createFee (utxos : List Utxo) (amount feeRate : UInt64) : UInt64 :=
  settledFee feeRate (inputSum (selectInputs amount utxos) - amount)
    (selectInputs amount utxos).length

/-- How a transaction comes about: the funds reach, both addresses are read, and every input is
signed. -/
structure Created (wallet : Wallet env) (utxos : List Utxo) (recipient : String)
    (amount feeRate : UInt64) (changeAddr : Option String) (tx : Transaction) (toPkh : Hash160)
    (rest : List TXOutput) : Prop where
  funded : amount ≤ inputSum (selectInputs amount utxos)
  paid : amount + createFee utxos amount feeRate ≤ inputSum (selectInputs amount utxos)
  read : wallet.addressToPubkeyHash recipient = .ok toPkh
  change : changeOutput wallet
    (inputSum (selectInputs amount utxos) - amount - createFee utxos amount feeRate) changeAddr =
      .ok rest
  signed : (selectInputs amount utxos).zipIdx.foldlM (signInput wallet)
    (unsignedTx (selectInputs amount utxos) (⟨amount, p2pkhScriptFromPkh toPkh, none⟩ :: rest)) =
      .ok tx

theorem exists_created
    (made : createTx wallet utxos recipient amount feeRate changeAddr = .ok (tx, hash)) :
    ∃ toPkh rest, Created wallet utxos recipient amount feeRate changeAddr tx toPkh rest := by
  simp only [createTx, fail_bind, guard_eq_ok, bind_eq_ok, pure_eq_ok, Prod.mk.injEq] at made
  obtain ⟨funded, paid, toPkh, read, rest, change, tx, signed, rfl, -⟩ := made
  exact ⟨toPkh, rest, UInt64.not_lt.mp funded, UInt64.not_lt.mp paid, read, change, signed⟩

end Creation

section Loop

def withScript (tx : Transaction) (i : Nat) (script : Bytes) : Transaction :=
  { tx with inputs := tx.inputs.modify i fun vin => { vin with scriptSig := script } }

@[simp] theorem clearScripts_withScript (tx : Transaction) (i : Nat) (script : Bytes) :
    clearScripts (withScript tx i script) = clearScripts tx := by
  simp only [clearScripts, withScript, map_bare_modify]

private theorem inputs_withScript_of_ne (tx : Transaction) (script : Bytes) {i j : Nat}
    (other : j ≠ i) :
    (withScript tx i script).inputs[j]? = tx.inputs[j]? := by
  simp [withScript, other.symm]

private theorem inputs_withScript_self (tx : Transaction) (i : Nat) (script : Bytes) :
    (withScript tx i script).inputs[i]? =
      tx.inputs[i]?.map fun vin => { vin with scriptSig := script } := by
  simp [withScript]

private theorem signInput_eq_ok {tx tx' : Transaction} {entry : Utxo × Nat} :
    signInput wallet tx entry = .ok tx' ↔
      ∃ sk msg, wallet.master.derivePriv entry.1.derivationPath = .ok sk ∧
        sighash env tx entry.2 entry.1.scriptPubkey 0x01 = .ok msg ∧
        withScript tx entry.2 (scriptSigOf wallet msg sk) = tx' := by
  simp only [signInput, bind_eq_ok, pure_eq_ok, withScript]
  tauto

/-- An input that the wallet has signed: the hash is that of the unsigned transaction. -/
def SignedAt (wallet : Wallet env) (start tx : Transaction) (entry : Utxo × Nat) : Prop :=
  ∃ sk msg vin, wallet.master.derivePriv entry.1.derivationPath = .ok sk ∧
    sighash env start entry.2 entry.1.scriptPubkey 0x01 = .ok msg ∧
    tx.inputs[entry.2]? = some vin ∧ vin.scriptSig = scriptSigOf wallet msg sk

private theorem signed_run {entries : List (Utxo × Nat)} (distinct : (entries.map Prod.snd).Nodup)
    {start tx : Transaction} (ran : entries.foldlM (signInput wallet) start = .ok tx) :
    clearScripts tx = clearScripts start ∧
      (∀ i ∉ entries.map Prod.snd, tx.inputs[i]? = start.inputs[i]?) ∧
      ∀ entry ∈ entries, SignedAt wallet start tx entry := by
  -- The hash that a round signs is that of the transaction before the loop: the scripts put in so
  -- far do not enter it.
  induction entries generalizing start with
  | nil =>
      obtain rfl := pure_eq_ok.mp ran
      exact ⟨rfl, fun _ _ => rfl, fun _ member => absurd member List.not_mem_nil⟩
  | cons entry entries ih =>
      rw [List.map_cons, List.nodup_cons] at distinct
      rw [List.foldlM_cons, bind_eq_ok] at ran
      obtain ⟨next, round, ran⟩ := ran
      obtain ⟨sk, msg, derived, hashed, rfl⟩ := signInput_eq_ok.mp round
      obtain ⟨bare, untouched, signed⟩ := ih distinct.2 ran
      rw [clearScripts_withScript] at bare
      refine ⟨bare, ?_, ?_⟩
      · intro i other
        rw [List.map_cons, List.mem_cons, not_or] at other
        rw [untouched i other.2, inputs_withScript_of_ne _ _ other.1]
      · intro e member
        rcases List.mem_cons.mp member with rfl | member
        · have inside := lt_of_sighash hashed
          refine ⟨sk, msg, { start.inputs[e.2] with scriptSig := scriptSigOf wallet msg sk },
            derived, hashed, ?_, rfl⟩
          rw [untouched e.2 distinct.1, inputs_withScript_self, List.getElem?_eq_getElem inside]
          rfl
        · obtain ⟨sk', msg', vin, derived', hashed', found, script⟩ := signed e member
          rw [sighash_congr (clearScripts_withScript ..)] at hashed'
          exact ⟨sk', msg', vin, derived', hashed', found, script⟩

theorem Created.signs {utxos : List Utxo} {recipient : String} {amount feeRate : UInt64}
    {changeAddr : Option String} {tx : Transaction} {toPkh : Hash160} {rest : List TXOutput}
    (created : Created wallet utxos recipient amount feeRate changeAddr tx toPkh rest) :
    clearScripts tx = clearScripts (unsignedTx (selectInputs amount utxos)
        (⟨amount, p2pkhScriptFromPkh toPkh, none⟩ :: rest)) ∧
      ∀ i u, (selectInputs amount utxos)[i]? = some u →
        SignedAt wallet (unsignedTx (selectInputs amount utxos)
          (⟨amount, p2pkhScriptFromPkh toPkh, none⟩ :: rest)) tx (u, i) := by
  have distinct : ((selectInputs amount utxos).zipIdx.map Prod.snd).Nodup := by
    rw [List.zipIdx_map_snd]
    exact List.nodup_range'
  obtain ⟨bare, -, signed⟩ := signed_run distinct created.signed
  exact ⟨bare, fun i u spent => signed (u, i) (List.mem_zipIdx_iff_getElem?.mpr spent)⟩

end Loop

section Layouts

/-- The coin pays to the hash of the key that its path leads to. -/
def Owns (wallet : Wallet env) (u : Utxo) : Prop :=
  ∃ sk, wallet.master.derivePriv u.derivationPath = .ok sk ∧
    u.scriptPubkey = p2pkhScript env (wallet.master.serialize (wallet.master.fromSecretKey sk))

private theorem unlocking_without_signature {msg : Hash} {sk : wallet.master.SecretKey}
    {u : Unlocking} (layout : scriptSigOf wallet msg sk = u.bytes) : env.signatureFromDer u.sig =
    none := by
  -- The checker takes the tag of the sequence for a length, and then finds the tag of an integer
  -- where the length should be.
  let sig := wallet.master.signEcdsa msg sk
  obtain ⟨-, short⟩ := wallet.master.length_serializeDer sig
  obtain ⟨body, der⟩ := wallet.master.strict_der _ _ (short.trans_lt (by decide))
    (wallet.master.signatureFromDer_serializeDer sig)
  rw [scriptSigOf, der, Unlocking.bytes] at layout
  simp only [List.cons_append, List.cons.injEq] at layout
  obtain ⟨tag, tail⟩ := layout
  have length : u.sig.length = 47 := by
    have same := congrArg UInt8.toNat tag
    rw [UInt8.toNat_ofNat_of_lt' u.short_sig] at same
    exact Nat.succ.inj same.symm
  have second : u.sig[1]? = some 0x02 := by
    have read := congrArg (fun bytes => bytes[1]?) tail
    simpa [List.getElem?_append_left, length] using read.symm
  by_contra parsed
  obtain ⟨signature, parsed⟩ := Option.ne_none_iff_exists'.mp parsed
  obtain ⟨rest, shape⟩ := wallet.master.strict_der _ _ (length ▸ by decide) parsed
  rw [shape] at length second
  have inner : rest.length = 44 := by simpa using length
  have clash : UInt8.ofNat (rest.length + 1) = 0x02 := Option.some.inj second
  rw [inner] at clash
  exact absurd clash (by decide)

private theorem isP2pkh_p2pkhScript (pubkey : Bytes) : IsP2pkh (p2pkhScript env pubkey) := by
  refine ⟨rfl, rfl, rfl, ?_, ?_⟩
  · rw [p2pkhScript, List.getElem?_append_right (by simp)]
    simp
  · rw [p2pkhScript, List.getElem?_append_right (by simp)]
    simp

private theorem hash_of_p2pkhScript (pubkey : Bytes) :
    ((p2pkhScript env pubkey).take 23).drop 3 = (env.hash160 pubkey).toList := by
  rw [p2pkhScript, List.take_left' (by simp)]
  rfl

def pushed (wallet : Wallet env) (msg : Hash) (sk : wallet.master.SecretKey) : Unlocking where
  sig := wallet.master.serializeDer (wallet.master.signEcdsa msg sk)
  sighashType := 0x01
  pubkey := wallet.master.serialize (wallet.master.fromSecretKey sk)
  rest := []
  short_sig := by
    have short := (wallet.master.length_serializeDer (wallet.master.signEcdsa msg sk)).2
    omega
  short_pubkey := by
    rw [wallet.master.length_serialize]
    decide

private theorem pushed_verifies {msg : Hash} {sk : wallet.master.SecretKey} {script : Bytes}
    {tx : Transaction} {i : Nat} (hashed : sighash env tx i script 0x01 = .ok msg) :
    (pushed wallet msg sk).Verifies env script tx i :=
  ⟨msg, wallet.master.signEcdsa msg sk, wallet.master.fromSecretKey sk, hashed,
    wallet.master.signatureFromDer_serializeDer _, wallet.master.publicKeyFromSlice_serialize _,
    wallet.master.verify_sign msg sk⟩

end Layouts

/-- No input of a transaction that the wallet returns passes the script check, although every input
is signed over the right hash: the same signature and key pass behind their lengths, whatever the
other unlocking scripts are. -/
theorem signatures_never_accepted (wallet : Wallet env) (utxos : List Utxo) (recipient : String)
    (amount feeRate : UInt64) (changeAddr : Option String) (tx : Transaction) (hash : Hash)
    (made : createTx wallet utxos recipient amount feeRate changeAddr = .ok (tx, hash))
    (own : ∀ u ∈ selectInputs amount utxos, Owns wallet u) (i : Nat) (u : Utxo)
    (spent : (selectInputs amount utxos)[i]? = some u) (output : TXOutput)
    (locked : output.scriptPubkey = u.scriptPubkey) :
    ∃ vin, tx.inputs[i]? = some vin ∧
      validateScriptWithTimeout env vin output tx i ≠ .ok () ∧
      ∃ parts : Unlocking, vin.scriptSig = parts.sig ++ [parts.sighashType] ++ parts.pubkey ∧
        ∀ other, clearScripts other = clearScripts tx →
          validateScriptWithTimeout env { vin with scriptSig := parts.bytes } output other i =
            .ok () := by
  obtain ⟨toPkh, rest, created⟩ := exists_created made
  obtain ⟨bare, signed⟩ := created.signs
  obtain ⟨sk, msg, vin, derived, hashed, found, script⟩ := signed i u spent
  obtain ⟨ownKey, ownDerived, ownScript⟩ := own u (List.mem_of_getElem? spent)
  obtain rfl : ownKey = sk := Except.ok.inj (ownDerived.symm.trans derived)
  have keyed : output.scriptPubkey = p2pkhScript env
      (wallet.master.serialize (wallet.master.fromSecretKey ownKey)) := locked.trans ownScript
  have length : output.scriptPubkey.length = 25 := by
    rw [keyed]
    simp [p2pkhScript]
  refine ⟨vin, found, ?_, pushed wallet msg ownKey, script, ?_⟩
  · intro accepted
    rw [validateScriptWithTimeout, if_pos length, checkP2pkh_eq_ok] at accepted
    obtain ⟨-, parts, layout, -, -, signature, -, -, parsed, -, -⟩ := accepted
    rw [unlocking_without_signature (script.symm.trans layout)] at parsed
    exact absurd parsed (by simp)
  · intro other same
    rw [validateScriptWithTimeout, if_pos length, checkP2pkh_eq_ok]
    refine ⟨keyed ▸ isP2pkh_p2pkhScript _, pushed wallet msg ownKey, rfl, ?_, pushed_verifies ?_⟩
    · rw [keyed, hash_of_p2pkhScript]
      rfl
    · rw [sighash_congr (same.trans bare), locked]
      exact hashed

private theorem sampleUtxo_owned (value : UInt64) : Owns sampleWallet (sampleUtxo value) :=
  ⟨Vector.replicate 32 1, rfl, rfl⟩

def samplePaid : Result (Transaction × Hash) :=
  createTx sampleWallet [sampleUtxo 200000] "recipient" 100000 10 none

theorem own_coin_not_spendable :
    ∃ tx hash vin, samplePaid = .ok (tx, hash) ∧ tx.inputs[0]? = some vin ∧
      Owns sampleWallet (sampleUtxo 200000) ∧
      validateScriptWithTimeout sampleCurve vin
        ⟨200000, (sampleUtxo 200000).scriptPubkey, none⟩ tx 0 = fail .invalidScript := by
  have evaluated : (samplePaid.toOption.bind fun made => made.1.inputs[0]?.map fun vin =>
      validateScriptWithTimeout sampleCurve vin
        ⟨200000, (sampleUtxo 200000).scriptPubkey, none⟩ made.1 0) =
          some (fail .invalidScript) := by
    decide +kernel
  obtain ⟨⟨tx, hash⟩, made, evaluated⟩ := Option.bind_eq_some_iff.mp evaluated
  obtain ⟨vin, found, refused⟩ := Option.map_eq_some_iff.mp evaluated
  exact ⟨tx, hash, vin, toOption_eq_some.mp made, found, sampleUtxo_owned _, refused⟩

theorem own_coin_spendable_when_pushed :
    ∃ tx hash vin, samplePaid = .ok (tx, hash) ∧ tx.inputs[0]? = some vin ∧
      ∃ parts : Unlocking, vin.scriptSig = parts.sig ++ [parts.sighashType] ++ parts.pubkey ∧
        validateScriptWithTimeout sampleCurve { vin with scriptSig := parts.bytes }
          ⟨200000, (sampleUtxo 200000).scriptPubkey, none⟩ tx 0 = .ok () := by
  obtain ⟨⟨tx, hash⟩, made⟩ : ∃ made, samplePaid = .ok made := exists_of_isOk (by decide +kernel)
  obtain ⟨vin, found, -, parts, script, accepted⟩ := signatures_never_accepted sampleWallet
    [sampleUtxo 200000] "recipient" 100000 10 none tx hash made
    (fun u member => List.mem_singleton.mp member ▸ sampleUtxo_owned _) 0 (sampleUtxo 200000) rfl
    ⟨200000, (sampleUtxo 200000).scriptPubkey, none⟩ rfl
  exact ⟨tx, hash, vin, made, found, parts, script, accepted tx rfl⟩

end Lyrion.Wallet
