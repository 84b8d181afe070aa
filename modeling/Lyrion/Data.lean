/- GID: Lyrion/Data
   digest: Transactions, blocks, their bincode layout, errors, and the database with its keys. -/

import Lyrion.Library.ByteCodec
import Lyrion.Library.KeyValue

set_option autoImplicit false
set_option relaxedAutoImplicit false

namespace Lyrion.Data

open Library.ByteCodec Library.KeyValue

abbrev Hash := Vector UInt8 32

abbrev Hash160 := Vector UInt8 20

def zeroHash : Hash := Vector.replicate 32 0

def maxU32 : UInt32 := 0xffffffff

/-- Copying a slice into a 32-byte array; any other length panics in the source. -/
def hashOfBytes (bs : Bytes) : Option Hash :=
  if h : bs.length = 32 then some ⟨bs.toArray, by simpa using h⟩ else none

theorem hashOfBytes_toList (hash : Hash) : hashOfBytes hash.toList = some hash := by
  simp [hashOfBytes, Vector.toList]

def u256FromBe (h : Hash) : Nat := ofBeBytes h.toList

theorem u256FromBe_injective {a b : Hash} (same : u256FromBe a = u256FromBe b) : a = b :=
  Vector.toList_inj.mp (ofBeBytes_injective (by simp) same)

def xorHash (a b : Hash) : Hash := Vector.zipWith (· ^^^ ·) a b

theorem xorHash_comm (a b : Hash) : xorHash a b = xorHash b a := by
  ext i hi
  simp [xorHash, UInt8.xor_comm]

theorem xorHash_assoc (a b c : Hash) : xorHash (xorHash a b) c = xorHash a (xorHash b c) := by
  ext i hi
  simp [xorHash, UInt8.xor_assoc]

@[simp] theorem xorHash_self (a : Hash) : xorHash a a = zeroHash := by
  ext i hi
  simp [xorHash, zeroHash]

@[simp] theorem xorHash_zero (a : Hash) : xorHash a zeroHash = a := by
  ext i hi
  simp [xorHash, zeroHash]

private theorem xorHash_cancel_right {a b c : Hash} (same : xorHash a c = xorHash b c) : a = b := by
  have undone := congrArg (fun x => xorHash x c) same
  simpa only [xorHash_assoc, xorHash_self, xorHash_zero] using undone

theorem xorHash_xorHash_eq_self_iff {a b c : Hash} : xorHash (xorHash a b) c = a ↔ b = c := by
  constructor
  · intro back
    have moved : xorHash b a = xorHash c a := by
      rw [xorHash_comm b a, xorHash_comm c a]
      calc xorHash a b = xorHash (xorHash (xorHash a b) c) c := by
            rw [xorHash_assoc, xorHash_self, xorHash_zero]
        _ = xorHash a c := by rw [back]
    exact xorHash_cancel_right moved
  · rintro rfl
    rw [xorHash_assoc, xorHash_self, xorHash_zero]

def xorAll (hashes : List Hash) : Hash := hashes.foldr xorHash zeroHash

theorem xorAll_append (hashes more : List Hash) :
    xorAll (hashes ++ more) = xorHash (xorAll hashes) (xorAll more) := by
  induction hashes with
  | nil => simp [xorAll, xorHash_comm zeroHash]
  | cons h hashes ih =>
      have unfolded : xorAll (h :: hashes ++ more) = xorHash h (xorAll (hashes ++ more)) := rfl
      rw [unfolded, ih, ← xorHash_assoc]
      rfl

structure TXInput where
  txid : Hash
  vout : UInt32
  scriptSig : Bytes
  sequence : UInt32
  deriving DecidableEq

structure TXOutput where
  value : UInt64
  scriptPubkey : Bytes
  commitment : Option Bytes
  deriving DecidableEq

structure Transaction where
  version : UInt32
  isAnonymous : Bool
  inputs : List TXInput
  outputs : List TXOutput
  lockTime : UInt32
  rangeProofs : List Bytes
  deriving DecidableEq

structure BlockHeader where
  version : UInt32
  prevHash : Hash
  merkleRoot : Hash
  timestamp : UInt32
  bits : UInt32
  nonce : UInt64
  deriving DecidableEq

structure Block where
  header : BlockHeader
  txs : List Transaction
  deriving DecidableEq

abbrev Outpoint := Hash × UInt32

def TXInput.outpoint (vin : TXInput) : Outpoint := (vin.txid, vin.vout)

/-! The layouts follow bincode with fixed-width integers: fields in order, little-endian
    words, 64-bit counts before vectors, one tag byte before an optional value. -/

def hashCodec : Codec Hash := Codec.array 32 (by decide)

def txInputCodec : Codec TXInput :=
  (hashCodec.pair (Codec.u32.pair (Codec.bytes.pair Codec.u32))).iso
    (fun p => ⟨p.1, p.2.1, p.2.2.1, p.2.2.2⟩)
    (fun i => (i.txid, i.vout, i.scriptSig, i.sequence)) (fun _ => rfl)

def txOutputCodec : Codec TXOutput :=
  (Codec.u64.pair (Codec.bytes.pair Codec.bytes.option)).iso
    (fun p => ⟨p.1, p.2.1, p.2.2⟩)
    (fun o => (o.value, o.scriptPubkey, o.commitment)) (fun _ => rfl)

def transactionCodec : Codec Transaction :=
  (Codec.u32.pair (Codec.bool.pair (txInputCodec.list.pair (txOutputCodec.list.pair
    (Codec.u32.pair Codec.bytes.list))))).iso
    (fun p => ⟨p.1, p.2.1, p.2.2.1, p.2.2.2.1, p.2.2.2.2.1, p.2.2.2.2.2⟩)
    (fun t => (t.version, t.isAnonymous, t.inputs, t.outputs, t.lockTime, t.rangeProofs))
    (fun _ => rfl)

def headerCodec : Codec BlockHeader :=
  (Codec.u32.pair (hashCodec.pair (hashCodec.pair (Codec.u32.pair
    (Codec.u32.pair Codec.u64))))).iso
    (fun p => ⟨p.1, p.2.1, p.2.2.1, p.2.2.2.1, p.2.2.2.2.1, p.2.2.2.2.2⟩)
    (fun h => (h.version, h.prevHash, h.merkleRoot, h.timestamp, h.bits, h.nonce))
    (fun _ => rfl)

def blockCodec : Codec Block :=
  (headerCodec.pair transactionCodec.list).iso
    (fun p => ⟨p.1, p.2⟩) (fun b => (b.header, b.txs)) (fun _ => rfl)

def Transaction.size (tx : Transaction) : Nat := (transactionCodec.encode tx).length

def Block.size (b : Block) : Nat := (blockCodec.encode b).length

theorem length_encode_hash (h : Hash) : (hashCodec.encode h).length = 32 := Vector.length_toList

theorem length_encode_txInput (vin : TXInput) :
    (txInputCodec.encode vin).length = 48 + vin.scriptSig.length := by
  simp only [txInputCodec, Codec.encode_iso, Codec.encode_pair, List.length_append,
    length_encode_hash, Codec.length_encode_u32, Codec.length_encode_bytes]
  omega

theorem length_encode_header (header : BlockHeader) : (headerCodec.encode header).length = 84 := by
  simp only [headerCodec, Codec.encode_iso, Codec.encode_pair, List.length_append,
    length_encode_hash, Codec.length_encode_u32, Codec.length_encode_u64]

theorem Transaction.size_eq (tx : Transaction) :
    tx.size = 33 + (tx.inputs.flatMap txInputCodec.encode).length +
      (tx.outputs.flatMap txOutputCodec.encode).length +
        (tx.rangeProofs.flatMap Codec.bytes.encode).length := by
  simp only [Transaction.size, transactionCodec, Codec.encode_iso, Codec.encode_pair,
    List.length_append, Codec.length_encode_u32, Codec.length_encode_bool, Codec.length_encode_list]
  omega

theorem Block.size_eq (b : Block) :
    b.size = 92 + (b.txs.flatMap transactionCodec.encode).length := by
  simp only [Block.size, blockCodec, Codec.encode_iso, Codec.encode_pair, List.length_append,
    length_encode_header, Codec.length_encode_list]
  omega

structure ReorgJournal where
  journalId : Bytes
  oldTipHeight : UInt64
  oldTipHash : Hash
  disconnectDepth : UInt64
  newBlock : Block
  deriving DecidableEq

def reorgJournalCodec : Codec ReorgJournal :=
  (Codec.bytes.pair (Codec.u64.pair (hashCodec.pair (Codec.u64.pair blockCodec)))).iso
    (fun p => ⟨p.1, p.2.1, p.2.2.1, p.2.2.2.1, p.2.2.2.2⟩)
    (fun j => (j.journalId, j.oldTipHeight, j.oldTipHash, j.disconnectDepth, j.newBlock))
    (fun _ => rfl)

/-- The errors the chain code raises. `anyhow` carries the text of a `bail!` or `context`. -/
inductive ChainError
  | missingUTXO
  | doubleSpend
  | invalidScript
  | invalidTx (reason : String)
  | invalidBlock (reason : String)
  | reorgTooDeep
  | insufficientFee
  | coinbaseImmature
  | invalidCoinbaseFee
  | insufficientPoW
  | invalidTimestamp
  | invalidLockTime
  | valueOverflow
  | invalidSignature
  | attackDetected
  | invalidRangeProof
  | invalidHandshake
  | invalidKeyImage
  | packageDepthExceeded
  | decompressionFailed
  | invalidCommitment
  | supplyMismatch
  | anyhow (reason : String)
  deriving DecidableEq

/-- How a call can fail: an error value, a panic at a named place, or, in the model only,
the recursion budget of the orphan loop. -/
inductive Fault
  | error (e : ChainError)
  | panic (place : String)
  | outOfFuel
  deriving DecidableEq

abbrev Result (α : Type) := Except Fault α

def fail {α : Type} (e : ChainError) : Result α := .error (.error e)

def orFail {α : Type} (e : ChainError) : Option α → Result α
  | some a => .ok a
  | none => fail e

/-- `expect`, `unwrap` and slice copies on an option. -/
def orPanic {α : Type} (place : String) : Option α → Result α
  | some a => .ok a
  | none => .error (.panic place)

section Outcomes

variable {α β : Type}

@[simp] theorem fail_ne_ok (e : ChainError) (a : α) : (fail e : Result α) = .ok a ↔ False := by
  simp [fail]

@[simp] theorem orFail_eq_ok {e : ChainError} {o : Option α} {a : α} :
    orFail e o = .ok a ↔ o = some a := by
  cases o <;> simp [orFail]

@[simp] theorem orPanic_eq_ok {place : String} {o : Option α} {a : α} :
    orPanic place o = .ok a ↔ o = some a := by
  cases o <;> simp [orPanic]

@[simp] theorem fail_bind (e : ChainError) (f : α → Result β) : fail e >>= f = fail e := rfl

theorem ok_bind (a : α) (f : α → Result β) : (.ok a : Result α) >>= f = f a := rfl

theorem bind_eq_ok {x : Result α} {f : α → Result β} {b : β} :
    x >>= f = .ok b ↔ ∃ a, x = .ok a ∧ f a = .ok b := by
  cases x with
  | error e => simp [Bind.bind, Except.bind]
  | ok a => simp [Bind.bind, Except.bind]

theorem exists_done {p : PUnit → Prop} : (∃ a, p a) ↔ p () :=
  ⟨fun ⟨_, h⟩ => h, fun h => ⟨(), h⟩⟩

@[simp] theorem pure_eq_ok {a b : α} : (pure a : Result α) = .ok b ↔ a = b := by
  simp [Pure.pure, Except.pure]

theorem exists_of_isOk {x : Result α} (fine : x.isOk = true) : ∃ a, x = .ok a := by
  cases x with
  | error e => exact absurd fine (by simp [Except.isOk, Except.toBool])
  | ok a => exact ⟨a, rfl⟩

theorem map_eq_ok {x : Result α} {f : α → β} {b : β} :
    x.map f = .ok b ↔ ∃ a, x = .ok a ∧ f a = b := by
  cases x with
  | error e => simp [Except.map]
  | ok a => simp [Except.map]

theorem toOption_eq_some {x : Result α} {a : α} : x.toOption = some a ↔ x = .ok a := by
  cases x with
  | error e => simp [Except.toOption]
  | ok b => simp [Except.toOption]

theorem guard_eq_ok {p : Prop} [Decidable p] {e : ChainError} {rest : Result α} {a : α} :
    (if p then fail e else rest) = .ok a ↔ ¬ p ∧ rest = .ok a := by
  by_cases h : p <;> simp [h]

theorem forM_eq_ok {f : α → Result Unit} {as : List α} :
    as.forM f = .ok () ↔ ∀ a ∈ as, f a = .ok () := by
  induction as with
  | nil => simp [List.forM]
  | cons a as ih =>
      have unfolded : (a :: as).forM f = (f a >>= fun _ => as.forM f) := rfl
      rw [unfolded, bind_eq_ok, exists_done, ih, List.forall_mem_cons]

theorem mapM_eq_ok {f : α → Result β} {as : List α} {bs : List β} :
    as.mapM f = .ok bs ↔ List.Forall₂ (fun a b => f a = .ok b) as bs := by
  induction as generalizing bs with
  | nil =>
      rw [List.mapM_nil, pure_eq_ok, List.forall₂_nil_left_iff]
      exact eq_comm
  | cons a as ih =>
      simp only [List.mapM_cons, bind_eq_ok, pure_eq_ok, List.forall₂_cons_left_iff, ih]
      constructor
      · rintro ⟨b, first, rest, later, rfl⟩
        exact ⟨b, rest, first, later, rfl⟩
      · rintro ⟨b, rest, first, later, rfl⟩
        exact ⟨b, first, rest, later, rfl⟩

end Outcomes

def Fault.isCrash : Fault → Bool
  | .error _ => false
  | .panic _ => true
  | .outOfFuel => true

section Faults

variable {α β : Type} {bad : Fault → Bool}

def Raises (bad : Fault → Bool) (x : Result α) : Prop :=
  ∃ fault, bad fault = true ∧ x = .error fault

def Settled (x : Result α) : Prop := (∃ a, x = .ok a) ∨ ∃ e, x = fail e

theorem settled_iff {x : Result α} : Settled x ↔ ¬ Raises Fault.isCrash x := by
  rcases x with (e | place) | a <;> simp [Settled, Raises, Fault.isCrash, fail]

@[simp] theorem not_raises_ok (a : α) : ¬ Raises bad (.ok a : Result α) := by
  simp [Raises]

@[simp] theorem not_raises_pure (a : α) : ¬ Raises bad (pure a : Result α) := not_raises_ok a

@[simp] theorem raises_error {fault : Fault} :
    Raises bad (.error fault : Result α) ↔ bad fault = true := by
  simp [Raises]

@[simp] theorem raises_fail {e : ChainError} :
    Raises bad (fail e : Result α) ↔ bad (.error e) = true := raises_error

@[simp] theorem raises_orFail {e : ChainError} {o : Option α} :
    Raises bad (orFail e o) ↔ o = none ∧ bad (.error e) = true := by
  cases o <;> simp [orFail]

@[simp] theorem raises_orPanic {place : String} {o : Option α} :
    Raises bad (orPanic place o) ↔ o = none ∧ bad (.panic place) = true := by
  cases o <;> simp [orPanic]

theorem raises_bind {x : Result α} {f : α → Result β} :
    Raises bad (x >>= f) ↔ Raises bad x ∨ ∃ a, x = .ok a ∧ Raises bad (f a) := by
  cases x with
  | error e => simp [Bind.bind, Except.bind]
  | ok a => simp [Bind.bind, Except.bind]

theorem raises_ite {p : Prop} [Decidable p] {x y : Result α} :
    Raises bad (if p then x else y) ↔ p ∧ Raises bad x ∨ ¬ p ∧ Raises bad y := by
  by_cases h : p <;> simp [h]

theorem raises_guard {p : Prop} [Decidable p] {e : ChainError} {rest : Result α} :
    Raises bad (if p then fail e else rest) ↔
      p ∧ bad (.error e) = true ∨ ¬ p ∧ Raises bad rest := by
  rw [raises_ite, raises_fail]

theorem raises_map {x : Result α} {f : α → β} : Raises bad (x.map f) ↔ Raises bad x := by
  cases x <;> simp [Except.map]

@[simp] theorem raises_fmap {x : Result α} {f : α → β} : Raises bad (f <$> x) ↔ Raises bad x :=
  raises_map

theorem not_raises_passed {x : Result α} {fault : Fault} (safe : ¬ Raises bad x)
    (raised : x = .error fault) : ¬ Raises bad (.error fault : Result β) := by
  rw [raised, raises_error] at safe
  rwa [raises_error]

theorem not_raises_passed_pair {σ : Type} {x : Result α × σ} {s : σ} {fault : Fault}
    (safe : ¬ Raises bad x.1) (raised : x = (.error fault, s)) :
    ¬ Raises bad (.error fault : Result β) :=
  not_raises_passed safe (congrArg Prod.fst raised)

theorem not_raises_bind {x : Result α} {f : α → Result β} (first : ¬ Raises bad x)
    (second : ∀ a, ¬ Raises bad (f a)) : ¬ Raises bad (x >>= f) := by
  rw [raises_bind]
  rintro (raised | ⟨a, -, raised⟩)
  · exact first raised
  · exact second a raised

theorem not_raises_foldlM {f : β → α → Result β} (step : ∀ b a, ¬ Raises bad (f b a)) (b : β)
    (as : List α) : ¬ Raises bad (as.foldlM f b) := by
  induction as generalizing b with
  | nil => exact not_raises_pure b
  | cons a as ih =>
      rw [List.foldlM_cons]
      exact not_raises_bind (step b a) ih

theorem not_raises_mapM {f : α → Result β} (each : ∀ a, ¬ Raises bad (f a)) (as : List α) :
    ¬ Raises bad (as.mapM f) := by
  induction as with
  | nil => exact not_raises_pure []
  | cons a as ih =>
      rw [List.mapM_cons]
      exact not_raises_bind (each a) fun b => not_raises_bind ih fun bs => not_raises_pure _

theorem not_raises_forM {f : α → Result Unit} (each : ∀ a, ¬ Raises bad (f a)) (as : List α) :
    ¬ Raises bad (as.forM f) := by
  induction as with
  | nil => exact not_raises_pure ()
  | cons a as ih => exact not_raises_bind (each a) fun _ => ih

end Faults

inductive Family
  | default
  | utxo
  | anonymous
  | keyImages
  | coinbase
  | addrIndex
  | txIndex
  deriving DecidableEq

abbrev Db := Store Family Bytes Bytes

abbrev DbBatch := Batch Family Bytes Bytes

def emptyDb : Db := fun _ => ∅

def get (db : Db) (f : Family) (key : Bytes) : Option Bytes := (db f).lookup key

def putCf (f : Family) (key value : Bytes) : Family × Write Bytes Bytes := (f, .put key value)

def deleteCf (f : Family) (key : Bytes) : Family × Write Bytes Bytes := (f, .delete key)

def tipKey : Bytes := [0x74, 0x69, 0x70]

def bestHeightKey : Bytes := [0x68, 0x65, 0x69, 0x67, 0x68, 0x74]

def genesisHashKey : Bytes :=
  [0x67, 0x65, 0x6e, 0x65, 0x73, 0x69, 0x73, 0x5f, 0x68, 0x61, 0x73, 0x68]

def utxoSetHashKey : Bytes :=
  [0x75, 0x74, 0x78, 0x6f, 0x5f, 0x73, 0x65, 0x74, 0x5f, 0x68, 0x61, 0x73, 0x68]

def totalSupplyKey : Bytes :=
  [0x74, 0x6f, 0x74, 0x61, 0x6c, 0x5f, 0x73, 0x75, 0x70, 0x70, 0x6c, 0x79]

def stateTotalSupplyKey : Bytes := [0x73, 0x74, 0x61, 0x74, 0x65, 0x3a] ++ totalSupplyKey

def heightKey (height : Nat) : Bytes := [0x68, 0x3a] ++ beBytes 8 height

def headerKey (height : Nat) : Bytes := [0x68, 0x64, 0x72, 0x3a] ++ beBytes 8 height

def blockKey (hash : Bytes) : Bytes := [0x62, 0x3a] ++ hash

def reorgPrefix : Bytes :=
  [0x72, 0x65, 0x6f, 0x72, 0x67, 0x3a, 0x70, 0x65, 0x6e, 0x64, 0x69, 0x6e, 0x67, 0x3a]

def reorgKey (journalId : Bytes) : Bytes := reorgPrefix ++ journalId

/-- `b"a:"` or `b"u:"`, the transaction id and the output number. -/
def coinKey (isAnonymous : Bool) (txid : Hash) (vout : UInt32) : Bytes :=
  (if isAnonymous then [0x61, 0x3a] else [0x75, 0x3a]) ++ txid.toList ++ beBytes 4 vout.toNat

/-- `b"addr:"`, the script hash, the transaction id and the output number. -/
def addrKey (scriptHash : Hash160) (txid : Hash) (vout : UInt32) : Bytes :=
  [0x61, 0x64, 0x64, 0x72, 0x3a] ++ scriptHash.toList ++ txid.toList ++ beBytes 4 vout.toNat

def coinFamily (isAnonymous : Bool) : Family := if isAnonymous then .anonymous else .utxo

theorem coinKey_injective {anon : Bool} {t t' : Hash} {v v' : UInt32}
    (same : coinKey anon t v = coinKey anon t' v') : t = t' ∧ v = v' := by
  have tails : t.toList ++ beBytes 4 v.toNat = t'.toList ++ beBytes 4 v'.toNat := by
    cases anon <;> simpa [coinKey] using same
  have lengths : t.toList.length = t'.toList.length := by simp
  obtain ⟨txids, vouts⟩ := List.append_inj tails lengths
  refine ⟨Vector.toList_inj.mp txids, UInt32.toNat_inj.mp ?_⟩
  exact beBytes_injective (by simpa using v.toNat_lt) (by simpa using v'.toNat_lt) vouts

end Lyrion.Data
