/- GID: Lyrion/Wallet/AddressIndex
   digest: The readers of the address entries, and which of them get back what was written. -/

import Lyrion.Node.Load
import Lyrion.Wallet

set_option autoImplicit false
set_option relaxedAutoImplicit false

namespace Lyrion.Wallet

open Library.ByteCodec Library.KeyValue Library.PrefixScan Data Utils Tx Node

/-- What a reader reports of an output: `(txid, vout, value)`. -/
@[ext] structure IndexedCoin where
  txid : Hash
  vout : UInt32
  value : UInt64
  deriving DecidableEq

structure FoundUtxo extends Utxo where
  confirmations : Nat
  height : Nat
  isConfirmed : Bool

section Readers

/-! The order in which the database walks its keys. -/

instance keyOrderTrans : IsTrans Bytes (· ≤ ·) := inferInstance

instance keyOrderAntisymm : Std.Antisymm (α := Bytes) (· ≤ ·) := inferInstance

instance keyOrderTotal : Std.Total (α := Bytes) (· ≤ ·) := inferInstance

variable (db : Db)

/-- The entries a reader goes over: from the beginning on, up to the first key that begins
otherwise. -/
def indexEntries (pkh : Hash160) : List (Bytes × Bytes) :=
  (scan (addrPrefix pkh) (sorted (· ≤ ·) (db .addrIndex).keys)).map fun key =>
    (key, (get db .addrIndex key).getD [])

/-- `key[offset..offset + 32]`, `key[offset + 32..offset + 36]` and the value. A slice out of range
panics, a value of another length is an error. -/
def decodeEntry (offset : Nat) (entry : Bytes × Bytes) : Result IndexedCoin := do
  let txid ← sliceOf entry.1 offset (offset + 32)
  let txid ← orFail (.anyhow "try_into") (hashOfBytes txid)
  let vout ← sliceOf entry.1 (offset + 32) (offset + 36)
  if entry.2.length ≠ 8 then fail (.anyhow "try_into")
  pure ⟨txid, UInt32.ofNat (ofBeBytes vout), amountOf entry.2⟩

def queryAddrIndex (pkh : Hash160) : Result (List IndexedCoin) :=
  (indexEntries db pkh).mapM (decodeEntry 5)

def explorerListing (pkh : Hash160) : Result (List IndexedCoin) :=
  (indexEntries db pkh).mapM (decodeEntry 5)

/-- What is printed of the listing: the count, and one page. The arithmetic is that of `usize`. -/
def explorerAddress (pkh : Hash160) (page pageSize : Nat) : Result (Nat × List IndexedCoin) := do
  let txs ← explorerListing db pkh
  let start := usizeSub page 1 * pageSize % 2 ^ 64
  let stop := min ((start + pageSize) % 2 ^ 64) txs.length
  if start < txs.length then
    if start ≤ stop then pure (txs.length, (txs.take stop).drop start)
    else .error (.panic "slice index out of range")
  else pure (txs.length, [])

/-- The height that `tx_index` has for a transaction, if it has one. -/
def indexedHeight (txid : Hash) : Result (Option Nat) :=
  match get db .txIndex txid.toList with
  | none => pure none
  | some data => do
      let (height, _) ← orFail (.anyhow "bincode") ((Codec.u64.pair Codec.u64).read data)
      pure (some height.toNat)

/-- One coin in `Wallet::get_balance`: the confirmed and the pending sum. -/
def countCoin (currentHeight : Nat) (sums : UInt64 × UInt64) (coin : IndexedCoin) :
    Result (UInt64 × UInt64) :=
  if (get db .utxo (coinKey false coin.txid coin.vout)).isSome then do
    match ← indexedHeight db coin.txid with
    | some height =>
        if currentHeight - height ≥ 1 then pure (sums.1 + coin.value, sums.2)
        else pure (sums.1, sums.2 + coin.value)
    | none => pure (sums.1, sums.2 + coin.value)
  else pure sums

def collectCoin (currentHeight : Nat) (spendableOnly : Bool) (path : DerivationPath)
    (utxos : List FoundUtxo) (coin : IndexedCoin) : Result (List FoundUtxo) :=
  match get db .utxo (coinKey false coin.txid coin.vout) with
  | none => pure utxos
  | some raw => do
      let out ← orFail (.anyhow "bincode") (txOutputCodec.read raw)
      let confs := match ← indexedHeight db coin.txid with
        | some height => currentHeight - height + 1
        | none => 0
      if !spendableOnly || confs ≥ coinbaseMaturity then
        pure (utxos ++ [⟨⟨coin.txid, coin.vout, coin.value, out.scriptPubkey, path⟩, confs, 0,
          confs > 0⟩])
      else pure utxos

def balanceUnder (currentHeight : Nat) (pkh : Hash160) (sums : UInt64 × UInt64) :
    Result (UInt64 × UInt64) :=
  (indexEntries db pkh).foldlM (fun sums entry => do
    let coin ← decodeEntry 25 entry
    countCoin db currentHeight sums coin) sums

def utxosUnder (currentHeight : Nat) (spendableOnly : Bool) (path : DerivationPath)
    (pkh : Hash160) (utxos : List FoundUtxo) : Result (List FoundUtxo) :=
  (indexEntries db pkh).foldlM (fun utxos entry => do
    let coin ← decodeEntry 25 entry
    collectCoin db currentHeight spendableOnly path utxos coin) utxos

def walletPaths : List DerivationPath :=
  [0, 1].flatMap fun chain => (List.range 100).map fun i => ⟨chain, i⟩

variable {env : Env} (wallet : Wallet env)

def pkhOf (master : Master env) (path : DerivationPath) : Result Hash160 := do
  let sk ← master.derivePriv path
  pure (env.hash160 (master.serialize (master.fromSecretKey sk)))

def getBalance : Result (UInt64 × UInt64) := do
  let currentHeight ← loadCurrentHeight db
  walletPaths.foldlM (fun sums path => do
    let pkh ← pkhOf wallet.master path
    balanceUnder db currentHeight pkh sums) (0, 0)

def getUtxos (spendableOnly : Bool) : Result (List FoundUtxo) := do
  let currentHeight ← loadCurrentHeight db
  walletPaths.foldlM (fun utxos path => do
    let pkh ← pkhOf wallet.master path
    utxosUnder db currentHeight spendableOnly path pkh utxos) []

end Readers

section Entries

variable (pkh : Hash160) (coin : IndexedCoin)

/-- The entry of an output: what `handle_utxo_action` puts when it connects one. -/
def entryOf : Bytes × Bytes := (addrKey pkh coin.txid coin.vout, beBytes 8 coin.value.toNat)

theorem addrEffect_writes_entry (env : Env) (snapshot : Db) (tx : Transaction) (out : TXOutput)
    (vout : UInt32) :
    (addrEffect env snapshot true tx out vout).writes =
      [putCf .addrIndex (entryOf (env.hash160 out.scriptPubkey) ⟨txHash env tx, vout, out.value⟩).1
        (entryOf (env.hash160 out.scriptPubkey) ⟨txHash env tx, vout, out.value⟩).2] := rfl

private theorem sliceOf_middle {front middle back : Bytes} {lo hi : Nat} (start : front.length = lo)
    (stop : lo + middle.length = hi) : sliceOf (front ++ (middle ++ back)) lo hi = .ok middle := by
  have inside : lo ≤ hi ∧ hi ≤ (front ++ (middle ++ back)).length := by
    simp only [List.length_append]
    omega
  rw [sliceOf, if_pos inside, ← List.append_assoc, List.take_left' (by simp [start, stop]),
    List.drop_left' start]

private theorem amountOf_beBytes (value : UInt64) : amountOf (beBytes 8 value.toNat) = value := by
  rw [amountOf, ofBeBytes_beBytes 8 _ value.toNat_lt, UInt64.ofNat_toNat]

private theorem decodeEntry_of_slices {offset : Nat} {key txid vout : Bytes} {hash : Hash}
    (first : sliceOf key offset (offset + 32) = .ok txid) (whole : hashOfBytes txid = some hash)
    (second : sliceOf key (offset + 32) (offset + 36) = .ok vout) (value : UInt64) :
    decodeEntry offset (key, beBytes 8 value.toNat) =
      .ok ⟨hash, UInt32.ofNat (ofBeBytes vout), value⟩ := by
  simp only [decodeEntry, first, ok_bind, whole, orFail, second, length_beBytes, ne_eq,
    not_true_eq_false, if_false, amountOf_beBytes]
  rfl

private theorem decodeEntry_written : decodeEntry 25 (entryOf pkh coin) = .ok coin := by
  have layout : addrKey pkh coin.txid coin.vout =
      addrPrefix pkh ++ (coin.txid.toList ++ beBytes 4 coin.vout.toNat) := by
    rw [addrKey, addrPrefix, List.append_assoc]
  have first : sliceOf (addrKey pkh coin.txid coin.vout) 25 57 = .ok coin.txid.toList := by
    rw [layout]
    exact sliceOf_middle (by simp [addrPrefix]) (by simp)
  have second : sliceOf (addrKey pkh coin.txid coin.vout) 57 61 =
      .ok (beBytes 4 coin.vout.toNat) := by
    rw [layout, ← List.append_assoc, ← List.append_nil (beBytes 4 coin.vout.toNat)]
    exact sliceOf_middle (by simp [addrPrefix]) (by simp)
  rw [entryOf, decodeEntry_of_slices first (hashOfBytes_toList _) second,
    ofBeBytes_beBytes 4 _ coin.vout.toNat_lt, UInt32.ofNat_toNat]

/-- What the slices from byte 5 on say: the hash with the first 12 bytes of the id, and the next 4
bytes of the id. -/
def misread : IndexedCoin where
  txid := ⟨(pkh.toList ++ coin.txid.toList.take 12).toArray, by simp⟩
  vout := UInt32.ofNat (ofBeBytes ((coin.txid.toList.drop 12).take 4))
  value := coin.value

private theorem decodeEntry_shifted : decodeEntry 5 (entryOf pkh coin) = .ok (misread pkh coin) :=
    by
  have layout : addrKey pkh coin.txid coin.vout =
      [0x61, 0x64, 0x64, 0x72, 0x3a] ++ ((pkh.toList ++ coin.txid.toList.take 12) ++
        ((coin.txid.toList.drop 12).take 4 ++
          ((coin.txid.toList.drop 12).drop 4 ++ beBytes 4 coin.vout.toNat))) := by
    rw [addrKey]
    conv_lhs => rw [← List.take_append_drop 12 coin.txid.toList,
      ← List.take_append_drop 4 (coin.txid.toList.drop 12)]
    simp only [List.append_assoc]
  have first : sliceOf (addrKey pkh coin.txid coin.vout) 5 37 =
      .ok (pkh.toList ++ coin.txid.toList.take 12) := by
    rw [layout]
    exact sliceOf_middle (by simp) (by simp)
  have second : sliceOf (addrKey pkh coin.txid coin.vout) 37 41 =
      .ok ((coin.txid.toList.drop 12).take 4) := by
    rw [layout, ← List.append_assoc]
    exact sliceOf_middle (by simp) (by simp)
  have whole : hashOfBytes (pkh.toList ++ coin.txid.toList.take 12) =
      some (misread pkh coin).txid := by
    rw [hashOfBytes, dif_pos (by simp)]
    rfl
  rw [entryOf, decodeEntry_of_slices first whole second]
  rfl

/-- The id begins with the hash and goes on as it began, and the number stands inside it. -/
def Legible : Prop :=
  coin.txid.toList = pkh.toList ++ coin.txid.toList.take 12 ∧
    beBytes 4 coin.vout.toNat = (coin.txid.toList.drop 12).take 4

private theorem misread_eq_iff : misread pkh coin = coin ↔ Legible pkh coin := by
  have four : ((coin.txid.toList.drop 12).take 4).length = 4 := by simp
  have word : (misread pkh coin).vout = coin.vout ↔
      beBytes 4 coin.vout.toNat = (coin.txid.toList.drop 12).take 4 := by
    have small := ofBeBytes_lt ((coin.txid.toList.drop 12).take 4)
    rw [four] at small
    have number : (misread pkh coin).vout.toNat =
        ofBeBytes ((coin.txid.toList.drop 12).take 4) := by
      rw [misread, UInt32.toNat_ofNat']
      exact Nat.mod_eq_of_lt small
    constructor
    · intro same
      apply ofBeBytes_injective (by rw [four, length_beBytes])
      rw [ofBeBytes_beBytes 4 _ coin.vout.toNat_lt, ← number, same]
    · intro same
      apply UInt32.toNat_inj.mp
      rw [number, ← same, ofBeBytes_beBytes 4 _ coin.vout.toNat_lt]
  have id : (misread pkh coin).txid = coin.txid ↔
      coin.txid.toList = pkh.toList ++ coin.txid.toList.take 12 := by
    rw [← Vector.toList_inj, eq_comm]
    rfl
  constructor
  · intro same
    exact ⟨id.mp (congrArg IndexedCoin.txid same), word.mp (congrArg IndexedCoin.vout same)⟩
  · rintro ⟨ids, words⟩
    have txids := id.mpr ids
    have vouts := word.mpr words
    exact IndexedCoin.ext txids vouts rfl

end Entries

section Recovered

variable {db : Db} {pkh : Hash160} {coins : List IndexedCoin}

private theorem mapM_shifted (coins : List IndexedCoin) :
    (coins.map (entryOf pkh)).mapM (decodeEntry 5) = .ok (coins.map (misread pkh)) := by
  rw [mapM_eq_ok, List.forall₂_map_left_iff, List.forall₂_map_right_iff, List.forall₂_same]
  intro coin _
  exact decodeEntry_shifted pkh coin

private theorem mapM_shifted_eq_ok_iff :
    (coins.map (entryOf pkh)).mapM (decodeEntry 5) = .ok coins ↔
      ∀ coin ∈ coins, Legible pkh coin := by
  have identity := (List.map_inj_left (l := coins) (f := misread pkh) (g := id))
  rw [List.map_id] at identity
  rw [mapM_shifted, Except.ok.injEq, identity]
  exact forall₂_congr fun coin _ => misread_eq_iff pkh coin

private theorem foldlM_written {σ : Type} (step : σ → IndexedCoin → Result σ)
    (coins : List IndexedCoin) (s : σ) :
    (coins.map (entryOf pkh)).foldlM (fun s entry => do
        let coin ← decodeEntry 25 entry
        step s coin) s = coins.foldlM step s := by
  rw [List.foldlM_map]
  simp only [decodeEntry_written, ok_bind]

end Recovered

section Filed

variable {env : Env} {outputs : List TXOutput} {db : Db}

private theorem exists_map_eq {α β γ : Type} {f : α → γ} {g : β → γ} {P : β → Prop} {l : List α}
    (each : ∀ a ∈ l, ∃ b, f a = g b ∧ P b) : ∃ bs : List β, l.map f = bs.map g ∧ ∀ b ∈ bs, P b := by
  induction l with
  | nil => exact ⟨[], rfl, by simp⟩
  | cons a l ih =>
      obtain ⟨here, later⟩ := List.forall_mem_cons.mp each
      obtain ⟨b, same, holds⟩ := here
      obtain ⟨bs, rest, others⟩ := ih later
      refine ⟨b :: bs, by rw [List.map_cons, List.map_cons, same, rest], ?_⟩
      exact List.forall_mem_cons.mpr ⟨holds, others⟩

/-- After every run the entries under a hash are those of connected outputs with scripts of that
hash. -/
theorem exists_filed (entries : EntriesOf env outputs (db .addrIndex)) (pkh : Hash160) :
    ∃ coins : List IndexedCoin, indexEntries db pkh = coins.map (entryOf pkh) ∧
      ∀ coin ∈ coins, ∃ out ∈ outputs, env.hash160 out.scriptPubkey = pkh ∧
        coin.value = out.value := by
  apply exists_map_eq
  intro key listed
  rw [scan_eq_filter (pairwise_sorted _ _)] at listed
  obtain ⟨stored, start⟩ := List.mem_filter.mp listed
  obtain ⟨value, found⟩ := Finmap.mem_iff.mp (Finmap.mem_keys.mp ((mem_sorted _).mp stored))
  obtain ⟨out, member, hash, rfl, txid, vout, rfl⟩ := entries.under start found
  refine ⟨⟨txid, vout, out.value⟩, ?_, out, member, hash, rfl⟩
  rw [Data.get, found]
  rfl

end Filed

/-- Where the entries under the hash of a script are those of some outputs, `get_balance` and
`get_utxos` go over exactly these outputs. `query_addr_index` and the explorer cut the keys 20 bytes
too early: they list the values, but exactly these outputs only if each of them is legible that
way. -/
theorem readers_recover_iff (env : Env) (db : Db) (script : Bytes) (coins : List IndexedCoin)
    (filed : indexEntries db (env.hash160 script) = coins.map (entryOf (env.hash160 script))) :
    (∀ currentHeight sums, balanceUnder db currentHeight (env.hash160 script) sums =
        coins.foldlM (countCoin db currentHeight) sums) ∧
      (∀ currentHeight spendableOnly path utxos,
        utxosUnder db currentHeight spendableOnly path (env.hash160 script) utxos =
          coins.foldlM (collectCoin db currentHeight spendableOnly path) utxos) ∧
      (∃ listed, queryAddrIndex db (env.hash160 script) = .ok listed ∧
        explorerListing db (env.hash160 script) = .ok listed ∧
        listed.map IndexedCoin.value = coins.map IndexedCoin.value) ∧
      (queryAddrIndex db (env.hash160 script) = .ok coins ↔
        ∀ coin ∈ coins, Legible (env.hash160 script) coin) ∧
      (explorerListing db (env.hash160 script) = .ok coins ↔
        ∀ coin ∈ coins, Legible (env.hash160 script) coin) := by
  refine ⟨?_, ?_, ?_, ?_, ?_⟩
  · intro currentHeight sums
    rw [balanceUnder, filed]
    exact foldlM_written (countCoin db currentHeight) coins sums
  · intro currentHeight spendableOnly path utxos
    rw [utxosUnder, filed]
    exact foldlM_written (collectCoin db currentHeight spendableOnly path) coins utxos
  · refine ⟨coins.map (misread (env.hash160 script)), ?_, ?_, ?_⟩
    · rw [queryAddrIndex, filed]
      exact mapM_shifted coins
    · rw [explorerListing, filed]
      exact mapM_shifted coins
    · rw [List.map_map]
      rfl
  · rw [queryAddrIndex, filed]
    exact mapM_shifted_eq_ok_iff
  · rw [explorerListing, filed]
    exact mapM_shifted_eq_ok_iff

section Samples

def sampleScript : Bytes := p2pkhScriptFromPkh samplePkh

def sampleReceipt : IndexedCoin :=
  ⟨txHash sampleEnv { sampleSpend [] with outputs := [⟨5000, sampleScript, none⟩] }, 0, 5000⟩

private theorem sample_entries : (runEvents sampleEnv sampleOpenDb [[samplePayment]]).toOption.map
    (fun db => indexEntries db (sampleEnv.hash160 sampleScript)) =
      some [entryOf (sampleEnv.hash160 sampleScript) sampleReceipt] := by
  decide +kernel

theorem payment_counted :
    ∃ db, runEvents sampleEnv sampleOpenDb [[samplePayment]] = .ok db ∧
      balanceUnder db 1 (sampleEnv.hash160 sampleScript) (0, 0) =
        [sampleReceipt].foldlM (countCoin db 1) (0, 0) := by
  obtain ⟨db, ran, entries⟩ := Option.map_eq_some_iff.mp sample_entries
  exact ⟨db, toOption_eq_some.mp ran,
    (readers_recover_iff sampleEnv db sampleScript [sampleReceipt] entries).1 1 (0, 0)⟩

theorem payment_misread :
    ∃ db, runEvents sampleEnv sampleOpenDb [[samplePayment]] = .ok db ∧
      indexEntries db (sampleEnv.hash160 sampleScript) =
        [entryOf (sampleEnv.hash160 sampleScript) sampleReceipt] ∧
      queryAddrIndex db (sampleEnv.hash160 sampleScript) =
        .ok [misread (sampleEnv.hash160 sampleScript) sampleReceipt] ∧
      explorerListing db (sampleEnv.hash160 sampleScript) =
        .ok [misread (sampleEnv.hash160 sampleScript) sampleReceipt] ∧
      (misread (sampleEnv.hash160 sampleScript) sampleReceipt).txid ≠ sampleReceipt.txid ∧
      (misread (sampleEnv.hash160 sampleScript) sampleReceipt).vout ≠ sampleReceipt.vout := by
  obtain ⟨db, ran, entries⟩ := Option.map_eq_some_iff.mp sample_entries
  refine ⟨db, toOption_eq_some.mp ran, entries, ?_, ?_, by decide +kernel, by decide +kernel⟩
  · rw [queryAddrIndex, entries]
    exact mapM_shifted [sampleReceipt]
  · rw [explorerListing, entries]
    exact mapM_shifted [sampleReceipt]

end Samples

end Lyrion.Wallet
