/- GID: Lyrion/Tx/Scripts
   digest: What a signature hash depends on, and the unlocking scripts that a payment to a key hash
     accepts. -/

import Lyrion.Tx.Acceptance

set_option autoImplicit false
set_option relaxedAutoImplicit false

namespace Lyrion.Tx

open Library.ByteCodec Data Utils

variable {i lo hi : Nat} {bs : Bytes} {tx : Transaction} {output : TXOutput}

variable {env : Env}

section Slices

private theorem byteAt_eq_ok {b : UInt8} :
    byteAt bs i = .ok b ↔ ∃ before after, bs = before ++ b :: after ∧ before.length = i := by
  rw [byteAt, orPanic_eq_ok]
  constructor
  · intro found
    obtain ⟨inside, rfl⟩ := List.getElem?_eq_some_iff.mp found
    refine ⟨bs.take i, bs.drop (i + 1), ?_, List.length_take_of_le inside.le⟩
    rw [List.getElem_cons_drop, List.take_append_drop]
  · rintro ⟨before, after, rfl, rfl⟩
    rw [List.getElem?_append_right le_rfl, Nat.sub_self, List.getElem?_cons_zero]

theorem sliceOf_eq_ok {middle : Bytes} :
    sliceOf bs lo hi = .ok middle ↔ ∃ before after, bs = before ++ (middle ++ after) ∧
      before.length = lo ∧ lo + middle.length = hi := by
  rw [sliceOf]
  constructor
  · intro sliced
    split at sliced
    case isFalse => exact absurd sliced (by simp)
    case isTrue inside =>
      obtain ⟨ordered, within⟩ := inside
      obtain rfl := Except.ok.inj sliced
      refine ⟨bs.take lo, bs.drop hi, ?_, List.length_take_of_le (ordered.trans within), ?_⟩
      · have front : bs.take lo = (bs.take hi).take lo := by
          rw [List.take_take, Nat.min_eq_left ordered]
        rw [front, ← List.append_assoc, List.take_append_drop, List.take_append_drop]
      · rw [List.length_drop, List.length_take_of_le within, Nat.add_sub_of_le ordered]
  · rintro ⟨before, after, rfl, rfl, rfl⟩
    rw [if_pos (by simp), ← List.append_assoc, ← List.length_append, List.take_left,
      List.drop_left]

private theorem le_length_of_sliceOf {middle : Bytes} (sliced : sliceOf bs lo hi = .ok middle) :
    hi ≤ bs.length := by
  obtain ⟨before, after, rfl, rfl, rfl⟩ := sliceOf_eq_ok.mp sliced
  simp

end Slices

section Sighash

theorem map_bare_modify (inputs : List TXInput) (i : Nat) (script : Bytes) :
    ((inputs.modify i fun vin => { vin with scriptSig := script }).map fun vin =>
      ({ vin with scriptSig := [] } : TXInput)) =
        inputs.map fun vin => { vin with scriptSig := [] } := by
  apply List.ext_getElem?
  intro j
  rw [List.getElem?_map, List.getElem?_map, List.getElem?_modify]
  split
  · cases inputs[j]? <;> rfl
  · simp

theorem sighash_congr {tx' : Transaction} (same : clearScripts tx = clearScripts tx') (i : Nat)
    (script : Bytes) (sighashType : UInt32) :
    sighash env tx i script sighashType = sighash env tx' i script sighashType := by
  have bare (tx : Transaction) : sighash env tx i script sighashType =
      sighash env (clearScripts tx) i script sighashType := by
    simp [sighash, clearScripts, Function.comp_def]
  rw [bare tx, bare tx', same]

theorem lt_of_sighash {script : Bytes} {sighashType : UInt32} {msg : Hash}
    (hashed : sighash env tx i script sighashType = .ok msg) : i < tx.inputs.length := by
  by_contra outside
  rw [sighash, if_neg outside] at hashed
  exact absurd hashed (by simp)

end Sighash

section KeyHashes

/-- The script of a payment to a key hash, as far as the checker looks at it. -/
def IsP2pkh (script : Bytes) : Prop :=
  script[0]? = some 0x76 ∧ script[1]? = some 0xa9 ∧ script[2]? = some 0x14 ∧
    script[23]? = some 0x88 ∧ script[24]? = some 0xac

/-- An unlocking script in the layout that the checker reads: signature and key, each behind its
length, and whatever follows. -/
structure Unlocking where
  sig : Bytes
  sighashType : UInt8
  pubkey : Bytes
  rest : Bytes
  short_sig : sig.length + 1 < 256
  short_pubkey : pubkey.length < 256

def Unlocking.bytes (u : Unlocking) : Bytes :=
  UInt8.ofNat (u.sig.length + 1) ::
    (u.sig ++ u.sighashType :: UInt8.ofNat u.pubkey.length :: (u.pubkey ++ u.rest))

def Unlocking.Verifies (env : Env) (u : Unlocking) (script : Bytes) (tx : Transaction) (i : Nat) :
    Prop :=
  ∃ msg signature pk, sighash env tx i script u.sighashType.toUInt32 = .ok msg ∧
    env.signatureFromDer u.sig = some signature ∧ env.publicKeyFromSlice u.pubkey = some pk ∧
    env.verifyEcdsa msg signature pk = true

private theorem checkSignature_eq_ok (u : Unlocking) (output : TXOutput) (tx : Transaction)
    (i : Nat) (badKey : String) :
    checkSignature env (u.sig ++ [u.sighashType]) u.pubkey output tx i badKey = .ok () ↔
      u.Verifies env output.scriptPubkey tx i := by
  have last : byteAt (u.sig ++ [u.sighashType]) ((u.sig ++ [u.sighashType]).length - 1) =
      .ok u.sighashType :=
    byteAt_eq_ok.mpr ⟨u.sig, [], rfl, by simp⟩
  simp only [checkSignature, last, List.dropLast_concat, bind_eq_ok, orFail_eq_ok,
    Unlocking.Verifies]
  constructor
  · rintro ⟨sighashType, typed, msg, hashed, signature, parsed, pk, key, verified⟩
    obtain rfl := Except.ok.inj typed
    refine ⟨msg, signature, pk, hashed, parsed, key, ?_⟩
    by_contra refused
    rw [if_neg refused] at verified
    exact absurd verified (by simp)
  · rintro ⟨msg, signature, pk, hashed, parsed, key, verified⟩
    refine ⟨_, rfl, msg, hashed, signature, parsed, pk, key, ?_⟩
    rw [if_pos verified]
    rfl

private theorem reads_eq_ok {script sig pubkey : Bytes} :
    (∃ sigLen pubkeyLen : UInt8, byteAt script 0 = .ok sigLen ∧
        sliceOf script 1 (1 + sigLen.toNat) = .ok sig ∧
        byteAt script (1 + sigLen.toNat) = .ok pubkeyLen ∧
        sliceOf script (2 + sigLen.toNat) (2 + sigLen.toNat + pubkeyLen.toNat) = .ok pubkey) ↔
      ∃ rest, sig.length < 256 ∧ pubkey.length < 256 ∧
        script = UInt8.ofNat sig.length ::
          (sig ++ UInt8.ofNat pubkey.length :: (pubkey ++ rest)) := by
  simp only [byteAt_eq_ok, sliceOf_eq_ok]
  constructor
  · rintro ⟨sigLen, pubkeyLen, ⟨front, tail, rfl, none_before⟩,
      ⟨first, afterSig, sigRead, one, sigEnd⟩, ⟨lead, afterLen, lenRead, leadLength⟩,
      ⟨head, rest, keyRead, headLength, keyEnd⟩⟩
    obtain rfl := List.length_eq_zero_iff.mp none_before
    -- each read splits what the one before has left
    obtain ⟨rfl, rfl⟩ : [sigLen] = first ∧ tail = sig ++ afterSig :=
      List.append_inj sigRead one.symm
    obtain ⟨rfl, rfl⟩ : [sigLen] ++ sig = lead ∧ afterSig = pubkeyLen :: afterLen := by
      refine List.append_inj (by simpa using lenRead) ?_
      simp only [List.length_append, List.length_singleton]
      omega
    obtain ⟨-, rfl⟩ : [sigLen] ++ sig ++ [pubkeyLen] = head ∧ afterLen = pubkey ++ rest := by
      refine List.append_inj (by simpa using keyRead) ?_
      simp only [List.length_append, List.length_singleton]
      omega
    have sigLength : sig.length = sigLen.toNat := by omega
    have keyLength : pubkey.length = pubkeyLen.toNat := by omega
    refine ⟨rest, sigLength ▸ sigLen.toNat_lt, keyLength ▸ pubkeyLen.toNat_lt, ?_⟩
    simp [sigLength, keyLength]
  · rintro ⟨rest, shortSig, shortKey, rfl⟩
    have sigLen : (UInt8.ofNat sig.length).toNat = sig.length := UInt8.toNat_ofNat_of_lt shortSig
    have keyLen : (UInt8.ofNat pubkey.length).toNat = pubkey.length :=
      UInt8.toNat_ofNat_of_lt shortKey
    refine ⟨UInt8.ofNat sig.length, UInt8.ofNat pubkey.length, ⟨[], _, rfl, rfl⟩,
      ⟨[UInt8.ofNat sig.length], _, rfl, rfl, by rw [sigLen]⟩,
      ⟨UInt8.ofNat sig.length :: sig, _, rfl, by simp [sigLen, Nat.add_comm]⟩,
      ⟨UInt8.ofNat sig.length :: (sig ++ [UInt8.ofNat pubkey.length]), rest, by simp, ?_,
        by rw [keyLen]⟩⟩
    simp only [List.length_cons, List.length_append, List.length_nil, sigLen]
    omega

theorem checkP2pkh_eq_ok (input : TXInput) (output : TXOutput) (tx : Transaction) (i : Nat) :
    checkP2pkh env input output tx i = .ok () ↔
      IsP2pkh output.scriptPubkey ∧ ∃ u : Unlocking, input.scriptSig = u.bytes ∧
        (env.hash160 u.pubkey).toList = (output.scriptPubkey.take 23).drop 3 ∧
        u.Verifies env output.scriptPubkey tx i := by
  have template : ¬ (output.scriptPubkey[0]? ≠ some 0x76 ∨ output.scriptPubkey[1]? ≠ some 0xa9 ∨
      output.scriptPubkey[2]? ≠ some 0x14 ∨ output.scriptPubkey[23]? ≠ some 0x88 ∨
      output.scriptPubkey[24]? ≠ some 0xac) ↔ IsP2pkh output.scriptPubkey := by
    simp only [not_or, not_not, IsP2pkh]
  simp only [checkP2pkh, fail_bind, guard_eq_ok, bind_eq_ok, template]
  refine and_congr_right fun _ => ?_
  constructor
  · rintro ⟨sigLen, first, -, sig, sliced, pubkeyLen, second, -, pubkey, key, hashed, nonempty,
      checked⟩
    obtain ⟨rest, shortSig, shortKey, layout⟩ :=
      reads_eq_ok.mp ⟨sigLen, pubkeyLen, first, sliced, second, key⟩
    obtain ⟨der, sighashType, rfl⟩ := (List.eq_nil_or_concat' sig).resolve_left nonempty
    rw [List.length_append, List.length_singleton] at shortSig
    let u : Unlocking := ⟨der, sighashType, pubkey, rest, shortSig, shortKey⟩
    refine ⟨u, ?_, not_not.mp hashed, (checkSignature_eq_ok u output tx i _).mp checked⟩
    simpa [Unlocking.bytes] using layout
  · rintro ⟨u, layout, hashed, verified⟩
    have bytes : input.scriptSig = UInt8.ofNat (u.sig ++ [u.sighashType]).length ::
        (u.sig ++ [u.sighashType] ++ UInt8.ofNat u.pubkey.length :: (u.pubkey ++ u.rest)) := by
      simp [layout, Unlocking.bytes]
    have shortSig : (u.sig ++ [u.sighashType]).length < 256 := by simpa using u.short_sig
    obtain ⟨sigLen, pubkeyLen, first, sliced, second, key⟩ :=
      reads_eq_ok.mpr ⟨u.rest, shortSig, u.short_pubkey, bytes⟩
    have inside := le_length_of_sliceOf sliced
    have within := le_length_of_sliceOf key
    exact ⟨sigLen, first, by omega, _, sliced, pubkeyLen, second, by omega, _, key,
      not_not.mpr hashed, List.concat_ne_nil _ _,
      (checkSignature_eq_ok u output tx i _).mpr verified⟩

end KeyHashes

section Reads

private theorem crashes_byteAt : Raises Fault.isCrash (byteAt bs i) ↔ bs.length ≤ i := by
  simp [byteAt, Fault.isCrash]

private theorem crashes_sliceOf :
    Raises Fault.isCrash (sliceOf bs lo hi) ↔ ¬ (lo ≤ hi ∧ hi ≤ bs.length) := by
  rw [sliceOf]
  split
  case isTrue inside => simp [inside]
  case isFalse outside => simp [Fault.isCrash, outside]

private theorem not_crashes_checkSignature {sig pubkey : Bytes} {badKey : String}
    (nonempty : sig ≠ []) (inside : i < tx.inputs.length) :
    ¬ Raises Fault.isCrash (checkSignature env sig pubkey output tx i badKey) := by
  have positive := List.length_pos_of_ne_nil nonempty
  have hashed (k : UInt32) :
      ¬ Raises Fault.isCrash (sighash env tx i output.scriptPubkey k) := by
    rw [sighash, if_pos inside]
    exact not_raises_ok _
  have verdict (p : Prop) [Decidable p] :
      ¬ Raises Fault.isCrash (if p then pure () else fail .invalidSignature : Result Unit) := by
    split <;> simp [Fault.isCrash]
  simp only [checkSignature, raises_bind, crashes_byteAt, hashed, verdict, raises_orFail,
    Fault.isCrash, Bool.false_eq_true, and_false, exists_false, or_false]
  omega

def EndsEarly : Bytes → Prop
  | [] => True
  | sigLen :: rest => rest.length = sigLen.toNat

instance : DecidablePred EndsEarly
  | [] => isTrue trivial
  | sigLen :: rest => inferInstanceAs (Decidable (rest.length = sigLen.toNat))

private theorem crashes_checkP2pkh {input : TXInput} (inside : i < tx.inputs.length) :
    Raises Fault.isCrash (checkP2pkh env input output tx i) ↔
      IsP2pkh output.scriptPubkey ∧ EndsEarly input.scriptSig := by
  simp only [checkP2pkh, fail_bind, raises_guard, raises_bind, crashes_byteAt, crashes_sliceOf,
    Fault.isCrash, Bool.false_eq_true, and_false, false_or, not_or, not_not]
  refine and_congr Iff.rfl ?_
  cases input.scriptSig with
  | nil => exact iff_of_true (Or.inl le_rfl) trivial
  | cons sigLen rest =>
      simp only [List.length_cons, EndsEarly]
      constructor
      · rintro (empty | ⟨first, read, fits, outside | ⟨sig, -, past | ⟨keyLen, -, long, short |
          ⟨pubkey, -, -, nonempty, crashed⟩⟩⟩⟩)
        · omega
        · omega
        · obtain rfl : sigLen = first := Except.ok.inj read
          omega
        · omega
        · exact absurd crashed (not_crashes_checkSignature nonempty inside)
      · intro ends
        refine Or.inr ⟨sigLen, rfl, by omega, Or.inr ⟨rest, ?_, Or.inl (by omega)⟩⟩
        exact sliceOf_eq_ok.mpr ⟨[sigLen], [], by simp, rfl, by rw [ends]⟩

private theorem not_crashes_checkP2pk {input : TXInput} (inside : i < tx.inputs.length) :
    ¬ Raises Fault.isCrash (checkP2pk env input output tx i) := by
  simp only [checkP2pk, fail_bind, raises_guard, raises_bind, raises_orFail, Fault.isCrash,
    Bool.false_eq_true, and_false, false_or, not_exists, not_and]
  intro pk _ nonempty
  exact not_crashes_checkSignature nonempty inside

/-- Checking a script finishes with `Ok` or `Err` exactly if no payment to a key hash is unlocked by
a script that is empty or ends with its signature: the first byte and the byte behind the signature
are read without a check that they are there. -/
theorem script_check_settled_iff (env : Env) (input : TXInput) (output : TXOutput)
    (tx : Transaction) (inputIdx : Nat) (inside : inputIdx < tx.inputs.length) :
    Settled (validateScriptWithTimeout env input output tx inputIdx) ↔
      ¬ (output.scriptPubkey.length = 25 ∧ IsP2pkh output.scriptPubkey ∧
        EndsEarly input.scriptSig) := by
  rw [settled_iff, validateScriptWithTimeout]
  by_cases keyHash : output.scriptPubkey.length = 25
  · rw [if_pos keyHash, crashes_checkP2pkh inside]
    simp [keyHash]
  · rw [if_neg keyHash]
    simp only [keyHash, false_and, not_false_eq_true, iff_true]
    split
    · exact not_crashes_checkP2pk inside
    · simp [Fault.isCrash]

end Reads

def sampleSpending (scriptSig : Bytes) : Transaction where
  version := 1
  isAnonymous := false
  inputs := [⟨zeroHash, 0, scriptSig, maxU32⟩]
  outputs := []
  lockTime := 0
  rangeProofs := []

/-- The check of a payment to the key `[7]` with the given unlocking script. -/
def sampleCheck (scriptSig : Bytes) : Result Unit :=
  validateScriptWithTimeout sampleEnv ⟨zeroHash, 0, scriptSig, maxU32⟩
    ⟨5000, p2pkhScript sampleEnv [7], none⟩ (sampleSpending scriptSig) 0

/-- An empty script and a script of one signature without a key are read past their ends. -/
theorem short_scripts_crash :
    sampleCheck [] = .error (.panic "index out of bounds") ∧
      sampleCheck [2, 7, 1] = .error (.panic "index out of bounds") := by
  decide +kernel

theorem whole_script_settled : Settled (sampleCheck [2, 7, 1, 1, 7]) :=
  (script_check_settled_iff sampleEnv ⟨zeroHash, 0, [2, 7, 1, 1, 7], maxU32⟩
    ⟨5000, p2pkhScript sampleEnv [7], none⟩ (sampleSpending [2, 7, 1, 1, 7]) 0 (by decide)).mpr
      (by rintro ⟨-, -, early⟩; exact absurd early (by decide))

end Lyrion.Tx
