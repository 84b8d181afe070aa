/- GID: Lyrion/Wallet/History
   digest: The two listings of the wallet's transactions, and what their amounts add up. -/

import Lyrion.Mempool
import Lyrion.Wallet.Scan

set_option autoImplicit false
set_option relaxedAutoImplicit false

namespace Lyrion.Wallet

open Library.ByteCodec Library.KeyValue Data Utils Tx Node

/-- A line of the history; the source has the id as text. -/
structure TxHistoryEntry where
  txid : Hash
  timestamp : UInt32
  netAmount : Int64
  confirmations : Nat
  isReceive : Bool

/-- The way in which a hash map is walked: every entry once, in an order of its own. -/
structure MapOrder where
  list : Map Hash Int64 → List (Hash × Int64)
  mem_list : ∀ m p, p ∈ list m ↔ m.lookup p.1 = some p.2
  nodup_keys : ∀ m, ((list m).map Prod.fst).Nodup

section Listings

variable (db : Db)

def getBlockTimestamp (height : Nat) : Result UInt32 := do
  let hash ← orFail (.anyhow "Block hash not found") (get db .default (heightKey height))
  let bytes ← orFail (.anyhow "Block not found") (get db .default (blockKey hash))
  let block ← orFail (.anyhow "bincode") (blockCodec.read bytes)
  pure block.header.timestamp

def timestampAt (height : Nat) : UInt32 :=
  match getBlockTimestamp db height with
  | .ok timestamp => timestamp
  | .error _ => 0

def historyEntry (currentHeight : Nat) (entry : Hash × Int64) : Result TxHistoryEntry := do
  let height ← heightFromTxid db entry.1
  pure ⟨entry.1, timestampAt db height, entry.2, currentHeight - height + 1, entry.2 > 0⟩

def sortHistory (history : List TxHistoryEntry) : List TxHistoryEntry :=
  history.insertionSort fun e e' => e'.timestamp ≤ e.timestamp

/-- What an output adds to the amount of its transaction. An output that is not in the store counts
as spent and is taken off. For change everything is reversed. -/
def signedValue (change : Bool) (coin : IndexedCoin) : Int64 :=
  let value := if change then -coin.value.toInt64 else coin.value.toInt64
  if (get db .utxo (coinKey false coin.txid coin.vout)).isSome then value else -value

def addEntry (change : Bool) (historyMap : Map Hash Int64) (coin : IndexedCoin) :
    Map Hash Int64 :=
  upsert historyMap coin.txid 0 (· + signedValue db change coin)

-- The listings are given the query, so that one that misses nothing can stand in for
-- `query_addr_index`.
variable (query : Hash160 → Result (List IndexedCoin))

def addAddress (change : Bool) (historyMap : Map Hash Int64) (pkh : Hash160) :
    Result (Map Hash Int64) := do
  let entries ← query pkh
  pure (entries.foldl (addEntry db change) historyMap)

def addAddresses {ι : Type} (pkhOfItem : ι → Result Hash160) (change : Bool) (items : List ι)
    (historyMap : Map Hash Int64) : Result (Map Hash Int64) :=
  items.foldlM (fun historyMap item => do
    let pkh ← pkhOfItem item
    addAddress db query change historyMap pkh) historyMap

variable (order : MapOrder)

def buildHistoryWith (addressToPubkeyHash : String → Result Hash160)
    (receiveAddrs changeAddrs : List String) (currentHeight : Nat) :
    Result (List TxHistoryEntry) := do
  let historyMap ←
    addAddresses db query addressToPubkeyHash false (receiveAddrs ++ changeAddrs) ∅
  let history ← ((order.list historyMap).filter fun entry => entry.2 ≠ 0).mapM
    (historyEntry db currentHeight)
  pure (sortHistory history)

/-- The hash of the key with a number on one of the two chains. -/
def keyPkh {env : Env} (master : Master env) (chain i : Nat) : Result Hash160 :=
  pkhOf master ⟨chain, i⟩

def getHistoryWith {env : Env} (master : Master env) (limit : Nat) :
    Result (List TxHistoryEntry) := do
  let currentHeight ← loadCurrentHeight db
  let historyMap ← [0, 1].foldlM (fun historyMap chain =>
    addAddresses db query (keyPkh master chain) (chain ≠ 0) (List.range 100) historyMap) ∅
  let history ← (order.list historyMap).mapM (historyEntry db currentHeight)
  pure ((sortHistory history).take limit)

def buildHistoryTask (addressToPubkeyHash : String → Result Hash160)
    (receiveAddrs changeAddrs : List String) (currentHeight : Nat) :
    Result (List TxHistoryEntry) :=
  buildHistoryWith db (queryAddrIndex db) order addressToPubkeyHash receiveAddrs changeAddrs
    currentHeight

def getHistory {env : Env} (wallet : Wallet env) (limit : Nat) : Result (List TxHistoryEntry) :=
  getHistoryWith db (queryAddrIndex db) order wallet.master limit

end Listings

section Amounts

variable (env : Env) (chain : List Block)

def paymentsTo (pkh : Hash160) : List IndexedCoin :=
  (chain.flatMap Block.txs).flatMap fun tx =>
    (tx.outputs.zipIdx.filter fun p => p.1.scriptPubkey = p2pkhScriptFromPkh pkh).map fun p =>
      ⟨txHash env tx, UInt32.ofNat p.2, p.1.value⟩

def worth (coins : List IndexedCoin) : Nat := (coins.map fun coin => coin.value.toNat).sum

instance decidableSpentIn (isAnonymous : Bool) (k : Bytes) :
    Decidable (SpentIn isAnonymous chain k) :=
  inferInstanceAs (Decidable (∃ block ∈ chain, ∃ tx ∈ block.txs, isCoinbase tx = false ∧
    tx.isAnonymous = isAnonymous ∧ ∃ vin ∈ tx.inputs, coinKey isAnonymous vin.txid vin.vout = k))

/-- An output that is no coin any more, or, as an output of a coinbase, never was one. -/
def isGone (coin : IndexedCoin) : Bool :=
  !(createdOutpoints env false chain).contains (coinKey false coin.txid coin.vout) ||
    SpentIn false chain (coinKey false coin.txid coin.vout)

variable (pkhs : List Hash160) (txid : Hash)

def payments : List IndexedCoin := pkhs.flatMap (paymentsTo env chain)

def received : Nat := worth ((payments env chain pkhs).filter fun coin => coin.txid = txid)

def gone : Nat :=
  worth ((payments env chain pkhs).filter fun coin => coin.txid = txid && isGone env chain coin)

def spentByInput (vin : TXInput) : Nat :=
  worth ((payments env chain pkhs).filter fun coin =>
    coin.txid = vin.txid ∧ coin.vout = vin.vout)

def spent : Nat :=
  (((chain.flatMap Block.txs).filter fun tx => txHash env tx = txid && !isCoinbase tx).map fun tx =>
    (tx.inputs.map (spentByInput env chain pkhs)).sum).sum

def net : ℤ := received env chain pkhs txid - spent env chain pkhs txid

def shown : ℤ := received env chain pkhs txid - 2 * gone env chain pkhs txid

end Amounts

section Loops

variable {db : Db} {query : Hash160 → Result (List IndexedCoin)} {change : Bool}
  {historyMap filled : Map Hash Int64} {txid : Hash} {x : ℤ}

def amountIn (historyMap : Map Hash Int64) (txid : Hash) : Int64 := (historyMap.lookup txid).getD 0

private theorem amountIn_empty (txid : Hash) : amountIn ∅ txid = Int64.ofInt 0 := rfl

variable (db change txid) in
def signedInt (coin : IndexedCoin) : ℤ :=
  if coin.txid = txid then
    (if change then -1 else 1) *
      (if (get db .utxo (coinKey false coin.txid coin.vout)).isSome then (coin.value.toNat : ℤ)
        else -coin.value.toNat)
  else 0

private theorem toInt64_eq_ofInt (value : UInt64) : value.toInt64 = Int64.ofInt value.toNat := by
  rw [Int64.ofInt_eq_ofNat, ← UInt64.toInt64_ofNat', UInt64.ofNat_toNat]

private theorem ofInt_eq_iff (x y : ℤ) : Int64.ofInt x = Int64.ofInt y ↔ x ≡ y [ZMOD 2 ^ 64] := by
  rw [Int64.ofInt_eq_iff_bmod_eq_toInt, Int64.toInt_ofInt]
  show x.bmod (2 ^ 64) = y.bmod (2 ^ 64) ↔ _
  rw [Int.bmod_eq_bmod_iff_bmod_sub_eq_zero, ← Int.dvd_iff_bmod_eq_zero, Int.modEq_iff_dvd,
    dvd_sub_comm]
  norm_cast

private theorem amountIn_addEntry (before : amountIn historyMap txid = Int64.ofInt x)
    (coin : IndexedCoin) :
    amountIn (addEntry db change historyMap coin) txid =
      Int64.ofInt (x + signedInt db change txid coin) := by
  rw [amountIn, addEntry, lookup_upsert, signedInt]
  by_cases same : coin.txid = txid
  · rw [if_pos same.symm, if_pos same, Option.getD_some, same]
    rw [amountIn] at before
    rw [before, Int64.ofInt_add, signedValue, toInt64_eq_ofInt, same]
    congr 1
    cases change <;> cases (get db .utxo (coinKey false txid coin.vout)).isSome <;>
      simp [Int64.ofInt_neg]
  · rw [if_neg (Ne.symm same), if_neg same, add_zero]
    exact before

private theorem amountIn_addEntries (coins : List IndexedCoin)
    (before : amountIn historyMap txid = Int64.ofInt x) :
    amountIn (coins.foldl (addEntry db change) historyMap) txid =
      Int64.ofInt (x + (coins.map (signedInt db change txid)).sum) := by
  induction coins generalizing historyMap x with
  | nil => simpa using before
  | cons coin coins ih =>
      rw [List.foldl_cons, List.map_cons, List.sum_cons, ← add_assoc]
      exact ih (amountIn_addEntry before coin)

variable {env : Env} {chain : List Block} {ι : Type} {pkhOfItem : ι → Result Hash160}
  {items : List ι} {pkhs : List Hash160}

variable (query env chain) in
def QueryExact : Prop :=
  ∀ pkh, ∃ coins, query pkh = .ok coins ∧ coins.Perm (paymentsTo env chain pkh)

private theorem amountIn_addAddresses (exact : QueryExact query env chain)
    (named : items.mapM pkhOfItem = .ok pkhs)
    (before : amountIn historyMap txid = Int64.ofInt x)
    (ran : addAddresses db query pkhOfItem change items historyMap = .ok filled) :
    amountIn filled txid =
      Int64.ofInt (x + ((payments env chain pkhs).map (signedInt db change txid)).sum) := by
  rw [mapM_eq_ok] at named
  rw [addAddresses] at ran
  induction named generalizing historyMap x with
  | nil =>
      cases ran
      simpa [payments] using before
  | @cons item pkh items pkhs here _ ih =>
      rw [List.foldlM_cons, here, ok_bind, addAddress] at ran
      obtain ⟨coins, listed, same⟩ := exact pkh
      rw [listed, ok_bind, pure_bind] at ran
      have first : amountIn (coins.foldl (addEntry db change) historyMap) txid = _ :=
        amountIn_addEntries coins before
      rw [(same.map _).sum_eq] at first
      rw [payments, List.flatMap_cons, List.map_append, List.sum_append, ← add_assoc]
      exact ih first ran

end Loops

section Lines

variable {db : Db} {currentHeight : Nat} {entries : List (Hash × Int64)}
  {history : List TxHistoryEntry}

private theorem mem_sortHistory {e : TxHistoryEntry} : e ∈ sortHistory history ↔ e ∈ history :=
  List.mem_insertionSort _

private theorem exists_line_iff
    (listed : entries.mapM (historyEntry db currentHeight) = .ok history) (txid : Hash)
    (amount : Int64) :
    (∃ e ∈ history, e.txid = txid ∧ e.netAmount = amount) ↔ (txid, amount) ∈ entries := by
  rw [mapM_eq_ok] at listed
  induction listed with
  | nil => simp
  | @cons entry e entries history here _ ih =>
      rw [historyEntry, bind_eq_ok] at here
      obtain ⟨height, -, made⟩ := here
      cases made
      simp only [List.mem_cons, exists_eq_or_imp, ih, Prod.ext_iff]
      exact or_congr (and_congr eq_comm eq_comm) Iff.rfl

end Lines

section Listed

variable {env : Env} {chain : List Block} {db base : Db} {setHash : Hash}
  {query : Hash160 → Result (List IndexedCoin)} {order : MapOrder} {receive change : List Hash160}
  {history : List TxHistoryEntry}

variable (replay : Replay env chain base setHash)
  (fresh : (createdOutpoints env false chain).Nodup) (stored : db .utxo = base .utxo)

include replay fresh stored

private theorem isSome_iff_not_isGone (coin : IndexedCoin) :
    (get db .utxo (coinKey false coin.txid coin.vout)).isSome = !isGone env chain coin := by
  have present := replay.lookup_ne_none_iff false fresh (coinKey false coin.txid coin.vout)
  rw [Bool.eq_iff_iff, Option.isSome_iff_ne_none, Data.get, stored]
  rw [show base .utxo = base (coinFamily false) from rfl, present, isGone]
  simp

private theorem sum_signedInt (pkhs : List Hash160) (txid : Hash) (change : Bool) :
    ((payments env chain pkhs).map (signedInt db change txid)).sum =
      (if change then -1 else 1) * shown env chain pkhs txid := by
  rw [shown, received, gone, worth, worth]
  induction payments env chain pkhs with
  | nil => simp
  | cons coin coins ih =>
      rw [List.map_cons, List.sum_cons, ih, signedInt,
        isSome_iff_not_isGone replay fresh stored coin]
      by_cases own : coin.txid = txid
      · cases gone : isGone env chain coin <;> cases change <;> simp [own, gone] <;> ring
      · simp [own]

private theorem exists_built_iff {addressToPubkeyHash : String → Result Hash160}
    {receiveAddrs changeAddrs : List String} {currentHeight : Nat}
    (exact : QueryExact query env chain)
    (receiving : receiveAddrs.mapM addressToPubkeyHash = .ok receive)
    (changing : changeAddrs.mapM addressToPubkeyHash = .ok change)
    (built : buildHistoryWith db query order addressToPubkeyHash receiveAddrs changeAddrs
      currentHeight = .ok history) (txid : Hash) (amount : Int64) :
    (∃ e ∈ history, e.txid = txid ∧ e.netAmount = amount) ↔
      amount ≠ 0 ∧ amount = Int64.ofInt (shown env chain (receive ++ change) txid) := by
  rw [buildHistoryWith, bind_eq_ok] at built
  obtain ⟨historyMap, filled, built⟩ := built
  rw [bind_eq_ok] at built
  obtain ⟨lines, listed, sorted⟩ := built
  cases sorted
  have named :
      (receiveAddrs ++ changeAddrs).mapM addressToPubkeyHash = .ok (receive ++ change) := by
    rw [List.mapM_append, receiving, changing]
    rfl
  have total := amountIn_addAddresses exact named (amountIn_empty txid) filled
  rw [sum_signedInt replay fresh stored, if_neg (by simp), one_mul, zero_add] at total
  simp only [mem_sortHistory, exists_line_iff listed, List.mem_filter, order.mem_list,
    decide_eq_true_eq]
  rw [← total, amountIn]
  cases historyMap.lookup txid with
  | none => simp
  | some a =>
      simp only [Option.some.injEq, Option.getD_some]
      constructor
      · rintro ⟨rfl, counts⟩
        exact ⟨counts, rfl⟩
      · rintro ⟨counts, rfl⟩
        exact ⟨rfl, counts⟩

private theorem got_amount {master : Master env} {limit : Nat} (exact : QueryExact query env chain)
    (receiving : (List.range 100).mapM (keyPkh master 0) = .ok receive)
    (changing : (List.range 100).mapM (keyPkh master 1) = .ok change)
    (got : getHistoryWith db query order master limit = .ok history)
    {e : TxHistoryEntry} (member : e ∈ history) :
    e.netAmount =
      Int64.ofInt (shown env chain receive e.txid - shown env chain change e.txid) := by
  rw [getHistoryWith, bind_eq_ok] at got
  obtain ⟨currentHeight, -, got⟩ := got
  rw [bind_eq_ok] at got
  obtain ⟨historyMap, filled, got⟩ := got
  rw [bind_eq_ok] at got
  obtain ⟨lines, listed, sorted⟩ := got
  cases sorted
  rw [List.foldlM_cons, bind_eq_ok] at filled
  obtain ⟨half, first, filled⟩ := filled
  rw [List.foldlM_cons, bind_eq_ok] at filled
  obtain ⟨whole, second, filled⟩ := filled
  cases filled
  have received := amountIn_addAddresses exact receiving (amountIn_empty e.txid) first
  have total := amountIn_addAddresses exact changing received second
  rw [sum_signedInt replay fresh stored, sum_signedInt replay fresh stored] at total
  have line := (exists_line_iff listed e.txid e.netAmount).mp
    ⟨e, mem_sortHistory.mp (List.mem_of_mem_take member), rfl, rfl⟩
  rw [order.mem_list] at line
  rw [amountIn, line, Option.getD_some] at total
  refine total.trans (congrArg Int64.ofInt ?_)
  simp [sub_eq_add_neg]

end Listed

section Wallets

variable (env : Env) (chain : List Block) {pkhs others : List Hash160} {txid : Hash}

private theorem worth_payments_append (pkhs others : List Hash160) (p : IndexedCoin → Bool) :
    worth ((payments env chain (pkhs ++ others)).filter p) =
      worth ((payments env chain pkhs).filter p) +
        worth ((payments env chain others).filter p) := by
  simp only [payments, worth, List.flatMap_append, List.filter_append, List.map_append,
    List.sum_append]

private theorem shown_append (pkhs others : List Hash160) (txid : Hash) :
    shown env chain (pkhs ++ others) txid =
      shown env chain pkhs txid + shown env chain others txid := by
  simp only [shown, received, gone, worth_payments_append]
  push_cast
  ring

private theorem shown_of_perm (same : (payments env chain pkhs).Perm (payments env chain others)) :
    shown env chain pkhs txid = shown env chain others txid := by
  simp only [shown, received, gone, worth]
  rw [((same.filter _).map _).sum_eq, ((same.filter _).map _).sum_eq]

private theorem ofInt_eq_iff_of_shift {x y a b : ℤ} (shift : y - x = b - a) :
    Int64.ofInt x = Int64.ofInt y ↔ a ≡ b [ZMOD 2 ^ 64] := by
  rw [ofInt_eq_iff, Int.modEq_iff_dvd, Int.modEq_iff_dvd, shift]

end Wallets

/-- The amounts of the two histories: `build_history_task` shows what a transaction pays to the
wallet less twice what is gone of it, and `get_history` shows the change reversed. -/
theorem history_amounts_iff (env : Env) (chain : List Block) (base db : Db) (setHash : Hash)
    (query : Hash160 → Result (List IndexedCoin)) (order order' : MapOrder)
    (addressToPubkeyHash : String → Result Hash160) (receiveAddrs changeAddrs : List String)
    (currentHeight limit : Nat) (master : Master env)
    (receive change receive' change' : List Hash160) (history history' : List TxHistoryEntry)
    (replay : Replay env chain base setHash)
    (fresh : (createdOutpoints env false chain).Nodup) (stored : db .utxo = base .utxo)
    (exact : QueryExact query env chain)
    (receiving : receiveAddrs.mapM addressToPubkeyHash = .ok receive)
    (changing : changeAddrs.mapM addressToPubkeyHash = .ok change)
    (receiveKeys : (List.range 100).mapM (keyPkh master 0) = .ok receive')
    (changeKeys : (List.range 100).mapM (keyPkh master 1) = .ok change')
    (built : buildHistoryWith db query order addressToPubkeyHash receiveAddrs changeAddrs
      currentHeight = .ok history)
    (got : getHistoryWith db query order' master limit = .ok history') :
    (∀ e ∈ history,
      e.netAmount = Int64.ofInt (shown env chain (receive ++ change) e.txid) ∧
        (e.netAmount = Int64.ofInt (net env chain (receive ++ change) e.txid) ↔
          (spent env chain (receive ++ change) e.txid : ℤ) ≡
            2 * gone env chain (receive ++ change) e.txid [ZMOD 2 ^ 64])) ∧
    (∀ e ∈ history',
      e.netAmount =
          Int64.ofInt (shown env chain receive' e.txid - shown env chain change' e.txid) ∧
        (e.netAmount = Int64.ofInt (net env chain (receive' ++ change') e.txid) ↔
          (spent env chain (receive' ++ change') e.txid : ℤ) ≡
            2 * (gone env chain receive' e.txid + received env chain change' e.txid -
              gone env chain change' e.txid) [ZMOD 2 ^ 64])) ∧
    ((payments env chain (receive ++ change)).Perm (payments env chain (receive' ++ change')) →
      ∀ e ∈ history, ∀ e' ∈ history', e.txid = e'.txid →
        (e.netAmount = e'.netAmount ↔ 2 * (received env chain change' e.txid : ℤ) ≡
          4 * gone env chain change' e.txid [ZMOD 2 ^ 64])) := by
  have first (e : TxHistoryEntry) (member : e ∈ history) :
      e.netAmount = Int64.ofInt (shown env chain (receive ++ change) e.txid) :=
    ((exists_built_iff replay fresh stored exact receiving changing built _ _).mp
      ⟨e, member, rfl, rfl⟩).2
  have second (e : TxHistoryEntry) (member : e ∈ history') :
      e.netAmount =
        Int64.ofInt (shown env chain receive' e.txid - shown env chain change' e.txid) :=
    got_amount replay fresh stored exact receiveKeys changeKeys got member
  refine ⟨?_, ?_, ?_⟩
  · intro e member
    refine ⟨first e member, ?_⟩
    rw [first e member]
    apply ofInt_eq_iff_of_shift
    rw [net, shown]
    ring
  · intro e member
    refine ⟨second e member, ?_⟩
    rw [second e member]
    apply ofInt_eq_iff_of_shift
    simp only [net, shown, received, worth_payments_append]
    push_cast
    ring
  · intro same e member e' member' sameTx
    rw [first e member, second e' member', ← sameTx, shown_of_perm env chain same, shown_append]
    apply ofInt_eq_iff_of_shift
    simp only [shown]
    ring

section Samples

def sampleOrder : MapOrder where
  list m := (sorted hashLe m.keys).filterMap fun k =>
    (m.lookup k).map fun a => (k, a)
  mem_list m p := by
    simp only [List.mem_filterMap, mem_sorted, Option.map_eq_some_iff]
    constructor
    · rintro ⟨k, -, a, found, rfl⟩
      exact found
    · intro found
      exact ⟨p.1, Finmap.mem_keys.mpr (Finmap.mem_iff.mpr ⟨p.2, found⟩), p.2, found, rfl⟩
  nodup_keys m := by
    rw [List.map_filterMap]
    refine List.Nodup.filterMap ?_ (nodup_sorted _ m.keys)
    intro a b k here there
    simp only [Option.map_map, Option.mem_def, Option.map_eq_some_iff,
      Function.comp_apply] at here there
    obtain ⟨_, -, rfl⟩ := here
    obtain ⟨_, -, rfl⟩ := there
    rfl

def sampleKeys : Master sampleCurve :=
  { sampleMaster with
    derivePriv := fun path =>
      .ok (Vector.replicate 32 (UInt8.ofNat (100 * path.chain + path.index + 1))) }

def sampleReceive : Hash160 := sampleCurve.hash160 (0x02 :: List.replicate 32 1)

def sampleChange : Hash160 := sampleCurve.hash160 (0x02 :: List.replicate 32 101)

def sampleReward : Transaction := genesisCoinbase sampleCurve (0x02 :: List.replicate 32 1)

def sampleIncome : Transaction where
  version := 1
  isAnonymous := false
  inputs := []
  outputs := [⟨5000, p2pkhScriptFromPkh sampleReceive, none⟩]
  lockTime := 0
  rangeProofs := []

def sampleExpense : Transaction :=
  { sampleIncome with
    inputs := [⟨txHash sampleCurve sampleIncome, 0, [], maxU32⟩]
    outputs := [⟨1000, [], none⟩, ⟨3000, p2pkhScriptFromPkh sampleChange, none⟩] }

def sampleBlocks : List Block :=
  [⟨genesisHeader sampleCurve [] 0, [sampleExpense]⟩,
    ⟨genesisHeader sampleCurve [] 0, [sampleReward, sampleIncome]⟩]

def sampleHistoryDb : Db :=
  write ((replayChain sampleCurve sampleBlocks).getD (emptyDb, zeroHash)).1
    (putCf .default bestHeightKey (beBytes 4 1) ::
      [(sampleReward, 0), (sampleIncome, 0), (sampleExpense, 1)].map fun p =>
        putCf .txIndex (txHash sampleCurve p.1).toList ((Codec.u64.pair Codec.u64).encode (p.2, 0)))

def sampleQuery (pkh : Hash160) : Result (List IndexedCoin) :=
  .ok (paymentsTo sampleCurve sampleBlocks pkh)

def sampleAddress (address : String) : Result Hash160 :=
  .ok (if address = "change" then sampleChange else sampleReceive)

def amountsOf (history : Result (List TxHistoryEntry)) : Option (List (Hash × Int64)) :=
  history.toOption.map fun lines => lines.map fun e => (e.txid, e.netAmount)

private theorem exists_of_amountsOf {history : Result (List TxHistoryEntry)}
    {amounts : List (Hash × Int64)} (listed : amountsOf history = some amounts) :
    ∃ lines, history = .ok lines ∧ lines.map (fun e => (e.txid, e.netAmount)) = amounts := by
  obtain ⟨lines, ran, same⟩ := Option.map_eq_some_iff.mp listed
  exact ⟨lines, toOption_eq_some.mp ran, same⟩

def sampleBuilt : Result (List TxHistoryEntry) :=
  buildHistoryWith sampleHistoryDb sampleQuery sampleOrder sampleAddress ["receive"] ["change"] 1

def sampleGot : Result (List TxHistoryEntry) :=
  getHistoryWith sampleHistoryDb sampleQuery sampleOrder sampleKeys 10

private theorem sample_built : amountsOf sampleBuilt =
    some [(txHash sampleCurve sampleExpense, 3000), (txHash sampleCurve sampleReward, -10000000000),
      (txHash sampleCurve sampleIncome, -5000)] := by
  decide +kernel

private theorem sample_got : amountsOf sampleGot =
    some [(txHash sampleCurve sampleExpense, -3000),
      (txHash sampleCurve sampleReward, -10000000000),
      (txHash sampleCurve sampleIncome, -5000)] := by
  decide +kernel

private theorem sample_replayed : ∃ base setHash, Replay sampleCurve sampleBlocks base setHash ∧
    sampleHistoryDb .utxo = base .utxo := by
  have succeeds : (replayChain sampleCurve sampleBlocks).isSome := by decide +kernel
  obtain ⟨⟨base, setHash⟩, replayed⟩ := Option.isSome_iff_exists.mp succeeds
  refine ⟨base, setHash, replay_of_replayChain replayed, ?_⟩
  rw [sampleHistoryDb, replayed, write]
  rfl

private theorem sample_exact : QueryExact sampleQuery sampleCurve sampleBlocks :=
  fun _ => ⟨_, rfl, List.Perm.refl _⟩

theorem sample_amounts_shown : ∃ lines, sampleBuilt = .ok lines ∧
    ∀ e ∈ lines, e.netAmount =
      Int64.ofInt (shown sampleCurve sampleBlocks [sampleReceive, sampleChange] e.txid) := by
  obtain ⟨base, setHash, replay, stored⟩ := sample_replayed
  obtain ⟨lines, built, -⟩ := exists_of_amountsOf sample_built
  obtain ⟨lines', got, -⟩ := exists_of_amountsOf sample_got
  obtain ⟨receive, receiveKeys⟩ :=
    exists_of_isOk (show ((List.range 100).mapM (keyPkh sampleKeys 0)).isOk by decide +kernel)
  obtain ⟨change, changeKeys⟩ :=
    exists_of_isOk (show ((List.range 100).mapM (keyPkh sampleKeys 1)).isOk by decide +kernel)
  refine ⟨lines, built, fun e member => ?_⟩
  have amounts := history_amounts_iff sampleCurve sampleBlocks base sampleHistoryDb setHash
    sampleQuery sampleOrder sampleOrder sampleAddress ["receive"] ["change"] 1 10 sampleKeys
    [sampleReceive] [sampleChange] receive change lines lines' replay (by decide +kernel) stored
    sample_exact (by decide +kernel) (by decide +kernel) receiveKeys changeKeys built got
  exact (amounts.1 e member).1

/-- A reward and a payment show as expenses, an expense as income, and the two histories differ. -/
theorem sample_amounts_wrong :
    (∃ base setHash, Replay sampleCurve sampleBlocks base setHash ∧
      sampleHistoryDb .utxo = base .utxo) ∧
    QueryExact sampleQuery sampleCurve sampleBlocks ∧
    [sampleReward, sampleIncome, sampleExpense].map (fun tx =>
      net sampleCurve sampleBlocks [sampleReceive, sampleChange] (txHash sampleCurve tx)) =
        [10000000000, 5000, -2000] ∧
    amountsOf sampleBuilt =
      some [(txHash sampleCurve sampleExpense, 3000),
        (txHash sampleCurve sampleReward, -10000000000),
        (txHash sampleCurve sampleIncome, -5000)] ∧
    amountsOf sampleGot =
      some [(txHash sampleCurve sampleExpense, -3000),
        (txHash sampleCurve sampleReward, -10000000000),
        (txHash sampleCurve sampleIncome, -5000)] :=
  ⟨sample_replayed, sample_exact, by decide +kernel, sample_built, sample_got⟩

end Samples

end Lyrion.Wallet
