/- GID: Lyrion/Node/Addresses
   digest: The balances read from the address entries, and what they count over every run of
     connects, disconnects and prunes. -/

import Lyrion.Library.PrefixScan
import Lyrion.Library.Runs
import Lyrion.Node.Chain
import Lyrion.Node.Undo

set_option autoImplicit false
set_option relaxedAutoImplicit false

namespace Lyrion.Node

open Library.ByteCodec Library.KeyValue Library.PrefixScan Library.Runs Data Utils Tx

instance linearOrderUInt8 : LinearOrder UInt8 where
  le_refl := UInt8.le_refl
  le_trans _ _ _ := UInt8.le_trans
  le_antisymm _ _ := UInt8.le_antisymm
  le_total := UInt8.le_total
  lt_iff_le_not_ge := by
    intro a b
    rw [UInt8.le_iff_toNat_le, UInt8.le_iff_toNat_le, UInt8.lt_iff_toNat_lt]
    omega
  toDecidableLE := inferInstance
  toDecidableEq := inferInstance
  toDecidableLT := inferInstance

section Readers

variable (db : Db) (pkh : Hash160)

def addrPrefix : Bytes := [0x61, 0x64, 0x64, 0x72, 0x3a] ++ pkh.toList

/-- The values a reader of a balance goes over: from the beginning on, in the order of the
database, up to the first key that begins otherwise. -/
def scanAddr : List Bytes :=
  (scan (addrPrefix pkh) (sorted (· ≤ ·) (db .addrIndex).keys)).map fun key =>
    (get db .addrIndex key).getD []

def amountOf (value : Bytes) : UInt64 := UInt64.ofNat (ofBeBytes value)

/-- The loop of the endpoint: a value of another length is passed over, and so is one that does
not fit. -/
def endpointStep (balance : UInt64) (value : Bytes) : UInt64 :=
  if value.length ≠ 8 then balance else (checkedAdd balance (amountOf value)).getD balance

/-- The RPC endpoint `get_balance` after the address has been read. -/
def getBalance : UInt64 := (scanAddr db pkh).foldl endpointStep 0

/-- The loop of the command, which fails on the first and panics on the second. -/
def commandStep (balance : UInt64) (value : Bytes) : Result UInt64 := do
  if value.length ≠ 8 then fail (.anyhow "try_into")
  orPanic "unwrap" (checkedAdd balance (amountOf value))

def balanceCommand : Result UInt64 := (scanAddr db pkh).foldlM commandStep 0

def p2pkhScriptFromPkh : Bytes := [0x76, 0xa9, 0x14] ++ pkh.toList ++ [0x88, 0xac]

end Readers

section Totals

variable (db : Db) (pkh : Hash160)

def indexTotal : Nat :=
  tally (fun key value => if (addrPrefix pkh).isPrefixOf key then (amountOf value).toNat else 0)
    (db .addrIndex)

def paidTo (value : Bytes) : Nat :=
  match txOutputCodec.read value with
  | some out => if out.scriptPubkey = p2pkhScriptFromPkh pkh then out.value.toNat else 0
  | none => 0

def unspentTotal : Nat := tally (fun _ value => paidTo pkh value) (db .utxo)

end Totals

section Runs

variable (env : Env)

/-- One part of a batch: a block action, with the set hash and the supply it starts from, or a
pruned height. -/
inductive IndexEvent
  | action (block : Block) (height : Nat) (isConnect : Bool) (setHash : Hash) (supply : UInt64)
  | prune (height : Nat) (state : ChainState)

def IndexEvent.outputs : IndexEvent → List TXOutput
  | .action block _ true _ _ => block.txs.flatMap Transaction.outputs
  | .action _ _ false _ _ => []
  | .prune _ _ => []

/-- Every action of a batch reads the database as it was before the batch. -/
def appendEvent (snapshot : Db) (batch : DbBatch) : IndexEvent → Result DbBatch
  | .action block height isConnect setHash supply => do
      let acc ← applyUtxoChanges env snapshot setHash supply block height isConnect batch
      pure acc.batch
  | .prune height state => do
      let pruned ← prune env height state
      pure (batch ++ pruned.2)

def commitEvents (db : Db) (events : List IndexEvent) : Result Db := do
  let batch ← events.foldlM (appendEvent env db) []
  pure (write db batch)

def runEvents (db : Db) (batches : List (List IndexEvent)) : Result Db :=
  batches.foldlM (commitEvents env) db

def runOutputs (batches : List (List IndexEvent)) : List TXOutput :=
  batches.flatMap fun events => events.flatMap IndexEvent.outputs

end Runs

section Reading

variable {db : Db} {pkh : Hash160}

private theorem readers_agree {values : List Bytes} (whole : ∀ value ∈ values, value.length = 8)
    {balance : UInt64}
    (small : balance.toNat + (values.map fun value => (amountOf value).toNat).sum < 2 ^ 64) :
    (values.foldl endpointStep balance).toNat =
        balance.toNat + (values.map fun value => (amountOf value).toNat).sum ∧
      values.foldlM commandStep balance = .ok (values.foldl endpointStep balance) := by
  induction values generalizing balance with
  | nil => exact ⟨rfl, rfl⟩
  | cons value values ih =>
      obtain ⟨here, later⟩ := List.forall_mem_cons.mp whole
      rw [List.map_cons, List.sum_cons] at small ⊢
      obtain ⟨next, fits⟩ : ∃ next, checkedAdd balance (amountOf value) = some next :=
        ⟨_, if_pos (by omega)⟩
      have grown := checkedAdd_eq_some.mp fits
      have stepped : endpointStep balance value = next := by
        simp [endpointStep, here, fits]
      have commanded : commandStep balance value = .ok next := by
        simp [commandStep, here, fits, orPanic]
      obtain ⟨total, same⟩ := ih later (by omega : next.toNat + _ < 2 ^ 64)
      rw [List.foldl_cons, List.foldlM_cons, stepped, commanded]
      exact ⟨by omega, same⟩

private theorem sum_scanAddr :
    ((scanAddr db pkh).map fun value => (amountOf value).toNat).sum = indexTotal db pkh := by
  have stored : ∀ key ∈ sorted (· ≤ ·) (db .addrIndex).keys,
      measureAt (fun key value => if (addrPrefix pkh).isPrefixOf key then (amountOf value).toNat
        else 0) (db .addrIndex) key =
      if (addrPrefix pkh).isPrefixOf key then
        (amountOf ((get db .addrIndex key).getD [])).toNat else 0 := by
    intro key listed
    obtain ⟨value, found⟩ := Finmap.mem_iff.mp (Finmap.mem_keys.mp ((mem_sorted _).mp listed))
    simp [measureAt, Data.get, found]
  rw [scanAddr, scan_eq_filter (pairwise_sorted _ _), indexTotal, tally_eq_sum_keys, Finset.sum,
    ← sorted_perm (· ≤ ·), Multiset.map_coe, Multiset.sum_coe, List.map_congr_left stored,
    List.map_map, List.sum_map_ite]
  simp [Function.comp_def, -List.isPrefixOf_iff_prefix]

end Reading

section Entries

variable {env : Env} {outputs : List TXOutput}

/-- An entry as connecting one of the outputs writes it: under the hash of its script. -/
def AddrEntry (env : Env) (outputs : List TXOutput) (key value : Bytes) : Prop :=
  ∃ out ∈ outputs, ∃ txid vout,
    key = addrKey (env.hash160 out.scriptPubkey) txid vout ∧ value = beBytes 8 out.value.toNat

def EntriesOf (env : Env) (outputs : List TXOutput) (index : Map Bytes Bytes) : Prop :=
  ∀ key value, index.lookup key = some value → AddrEntry env outputs key value

def PutsOf (env : Env) (outputs : List TXOutput) (ws : List (Write Bytes Bytes)) : Prop :=
  ∀ w ∈ ws, ∀ value, w.left = some value → AddrEntry env outputs w.key value

private theorem EntriesOf.applyWrites {index : Map Bytes Bytes}
    (entries : EntriesOf env outputs index) {ws : List (Write Bytes Bytes)}
    (puts : PutsOf env outputs ws) :
    EntriesOf env outputs (applyWrites index ws) := by
  intro key value found
  by_cases touched : ∃ w ∈ ws, w.key = key
  · obtain ⟨w, member, rfl, content⟩ := lookup_applyWrites_of_touched index ws key touched
    exact puts w member value (content.symm.trans found)
  · rw [lookup_applyWrites_of_untouched index ws key fun w member hits =>
      touched ⟨w, member, hits⟩] at found
    exact entries key value found

private theorem PutsOf.append {us ws : List (Write Bytes Bytes)} (first : PutsOf env outputs us)
    (second : PutsOf env outputs ws) : PutsOf env outputs (us ++ ws) := by
  intro w member
  rcases List.mem_append.mp member with member | member
  · exact first w member
  · exact second w member

private theorem addr_write_of_tx {snapshot : Db} {height : Nat} {isConnect : Bool}
    {tx : Transaction} {w : Write Bytes Bytes}
    (member : w ∈ writesTo .addrIndex (txEffect env snapshot height isConnect tx).writes) :
    ∃ entry ∈ numberedOutputs isConnect tx, w ∈ writesTo .addrIndex
      (addrEffect env snapshot isConnect tx entry.1 (UInt32.ofNat entry.2)).writes := by
  cases coinbase : isCoinbase tx with
  | true =>
      rw [mem_writesTo] at member
      cases isConnect <;> simp [txEffect, coinbase, coinbaseEffect, putCf, deleteCf] at member
  | false =>
      rcases (mem_writesTo_txEffect coinbase).mp member with
        ⟨vin, -, member⟩ | ⟨entry, numbered, member⟩
      · rw [mem_writesTo] at member
        cases isConnect <;> cases anonymous : tx.isAnonymous <;>
          simp [inputEffect, coinEffect, keyImageEffect, anonymous, coinFamily, putCf,
            deleteCf] at member
      · refine ⟨entry, numbered, ?_⟩
        cases anonymous : tx.isAnonymous with
        | true =>
            rw [mem_writesTo] at member
            cases isConnect <;> simp [outputEffect, newCoinEffect, anonymous, coinFamily, putCf,
              deleteCf] at member
        | false =>
            cases isConnect <;> simpa [outputEffect, newCoinEffect, anonymous, coinFamily, putCf,
              deleteCf] using member

private theorem putsOf_blockEffect (snapshot : Db) (height : Nat) (isConnect : Bool)
    (txs : List Transaction)
    (connected : isConnect = true → ∀ tx ∈ txs, ∀ out ∈ tx.outputs, out ∈ outputs) :
    PutsOf env outputs
      (writesTo .addrIndex (blockEffect env snapshot height isConnect txs).writes) := by
  intro w member value stored
  simp only [blockEffect, Effect.prod_writes, writesTo_flatMap, List.mem_flatMap] at member
  obtain ⟨tx, listed, member⟩ := member
  obtain ⟨entry, numbered, written⟩ := addr_write_of_tx member
  cases isConnect with
  | false =>
      obtain rfl : w = .delete _ := by simpa [addrEffect, deleteCf] using written
      exact absurd stored (by simp [Write.left])
  | true =>
      obtain rfl : w = .put _ _ := by simpa [addrEffect, putCf] using written
      obtain rfl := Option.some.inj stored
      have output : entry.1 ∈ tx.outputs := List.fst_mem_of_mem_zipIdx numbered
      exact ⟨entry.1, connected rfl tx listed entry.1 output, _, _, rfl, rfl⟩

private theorem putsOf_prune {height : Nat} {state : ChainState} {pruned : ChainState × DbBatch}
    (done : prune env height state = .ok pruned) :
    PutsOf env outputs (writesTo .addrIndex pruned.2) := by
  intro w member value stored
  rw [mem_writesTo] at member
  unfold prune at done
  split at done
  · obtain rfl := Except.ok.inj done
    simp at member
  · simp only [bind_eq_ok, pure_eq_ok] at done
    obtain ⟨hash, -, rfl⟩ := done
    simp only [deleteCf, List.mem_cons, Prod.mk.injEq, reduceCtorEq, false_and, false_or,
      List.mem_flatMap, List.mem_map] at member
    obtain ⟨tx, -, out, -, -, rfl⟩ := member
    exact absurd stored (by simp [Write.left])

private theorem putsOf_appendEvent {snapshot : Db} {batch extended : DbBatch} {event : IndexEvent}
    (connected : ∀ out ∈ event.outputs, out ∈ outputs)
    (puts : PutsOf env outputs (writesTo .addrIndex batch))
    (done : appendEvent env snapshot batch event = .ok extended) :
    PutsOf env outputs (writesTo .addrIndex extended) := by
  cases event with
  | prune height state =>
      simp only [appendEvent, bind_eq_ok, pure_eq_ok] at done
      obtain ⟨pruned, done, rfl⟩ := done
      rw [writesTo_append]
      exact puts.append (putsOf_prune done)
  | action block height isConnect setHash supply =>
      simp only [appendEvent, bind_eq_ok, pure_eq_ok] at done
      obtain ⟨acc, done, rfl⟩ := done
      obtain ⟨-, -, -, -, written⟩ := (applyUtxoChanges_eq_ok ..).mp done
      rw [written, writesTo_append, writesTo_append, writesTo_counterWrites (by decide),
        List.append_nil]
      refine puts.append (putsOf_blockEffect snapshot height isConnect block.txs ?_)
      intro connect tx listed out output
      subst connect
      exact connected out (List.mem_flatMap.mpr ⟨tx, listed, output⟩)

private theorem EntriesOf.commit {db after : Db} {events : List IndexEvent}
    (entries : EntriesOf env outputs (db .addrIndex))
    (connected : ∀ event ∈ events, ∀ out ∈ event.outputs, out ∈ outputs)
    (done : commitEvents env db events = .ok after) :
    EntriesOf env outputs (after .addrIndex) := by
  simp only [commitEvents, bind_eq_ok, pure_eq_ok] at done
  obtain ⟨batch, built, rfl⟩ := done
  have puts : PutsOf env outputs (writesTo .addrIndex batch) := by
    refine foldlM_invariant (fun batch => PutsOf env outputs (writesTo .addrIndex batch)) ?_ ?_
      built
    · intro w member
      exact absurd member List.not_mem_nil
    · intro batch event extended member puts done
      exact putsOf_appendEvent (connected event member) puts done
  exact entries.applyWrites puts

private theorem entriesOf_run {start db : Db} {batches : List (List IndexEvent)}
    (empty : start .addrIndex = ∅) (ran : runEvents env start batches = .ok db) :
    EntriesOf env (runOutputs batches) (db .addrIndex) := by
  refine foldlM_invariant (fun db => EntriesOf env (runOutputs batches) (db .addrIndex)) ?_ ?_ ran
  · intro key value found
    rw [empty, Finmap.lookup_empty] at found
    exact absurd found (by simp)
  · intro db events after member entries done
    refine entries.commit ?_ done
    intro event inside out output
    exact List.mem_flatMap.mpr ⟨events, member, List.mem_flatMap.mpr ⟨event, inside, output⟩⟩

end Entries

section Balances

variable {env : Env} {db : Db} {pkh : Hash160} {outputs : List TXOutput}

private theorem isPrefixOf_addrKey (scriptHash : Hash160) (txid : Hash) (vout : UInt32) :
    (addrPrefix pkh).isPrefixOf (addrKey scriptHash txid vout) = true ↔ pkh = scriptHash := by
  have lengths : pkh.toList.length = scriptHash.toList.length := by simp
  rw [List.isPrefixOf_iff_prefix, addrPrefix, addrKey, List.append_assoc, List.append_assoc,
    List.prefix_append_right_inj]
  constructor
  · intro start
    have same := List.prefix_of_prefix_length_le start (List.prefix_append _ _) lengths.le
    exact Vector.toList_inj.mp (same.eq_of_length lengths)
  · rintro rfl
    exact List.prefix_append _ _

private theorem EntriesOf.length_scanned (entries : EntriesOf env outputs (db .addrIndex)) :
    ∀ value ∈ scanAddr db pkh, value.length = 8 := by
  intro value member
  rw [scanAddr, scan_eq_filter (pairwise_sorted _ _)] at member
  obtain ⟨key, listed, rfl⟩ := List.mem_map.mp member
  have inside := (mem_sorted _).mp (List.mem_of_mem_filter listed)
  obtain ⟨value, found⟩ := Finmap.mem_iff.mp (Finmap.mem_keys.mp inside)
  obtain ⟨out, -, txid, vout, -, rfl⟩ := entries key value found
  simp [Data.get, found]

theorem EntriesOf.under (entries : EntriesOf env outputs (db .addrIndex)) {key value : Bytes}
    (start : (addrPrefix pkh).isPrefixOf key = true)
    (found : (db .addrIndex).lookup key = some value) :
    ∃ out ∈ outputs, env.hash160 out.scriptPubkey = pkh ∧ value = beBytes 8 out.value.toNat ∧
      ∃ txid vout, key = addrKey pkh txid vout := by
  obtain ⟨out, member, txid, vout, rfl, rfl⟩ := entries key value found
  have hash := (isPrefixOf_addrKey _ txid vout).mp start
  exact ⟨out, member, hash.symm, rfl, txid, vout, by rw [hash]⟩

private theorem EntriesOf.indexTotal_eq_zero (entries : EntriesOf env outputs (db .addrIndex))
    (unhashed : ∀ out ∈ outputs, env.hash160 out.scriptPubkey ≠ pkh) : indexTotal db pkh = 0 := by
  rw [indexTotal, tally_eq_sum_keys]
  refine Finset.sum_eq_zero ?_
  intro key listed
  obtain ⟨value, found⟩ := Finmap.mem_iff.mp (Finmap.mem_keys.mp listed)
  obtain ⟨out, member, txid, vout, rfl, -⟩ := entries key value found
  have other : ¬ (addrPrefix pkh).isPrefixOf
      (addrKey (env.hash160 out.scriptPubkey) txid vout) = true := by
    rw [isPrefixOf_addrKey]
    exact fun same => unhashed out member same.symm
  simp [measureAt, found, other, -List.isPrefixOf_iff_prefix]

end Balances

/-- After every run of connects, disconnects and committed prunes both readers report the entries
under the hash, which are those of connected outputs whose whole script has it: any other hash has a
balance of zero. -/
theorem balances_of_script_hashes (env : Env) (start db : Db) (batches : List (List IndexEvent))
    (empty : start .addrIndex = ∅) (ran : runEvents env start batches = .ok db) (pkh : Hash160)
    (small : indexTotal db pkh < 2 ^ 64) :
    (getBalance db pkh).toNat = indexTotal db pkh ∧
      balanceCommand db pkh = .ok (getBalance db pkh) ∧
      (∀ key value, (addrPrefix pkh).isPrefixOf key = true →
        (db .addrIndex).lookup key = some value → ∃ out ∈ runOutputs batches,
          env.hash160 out.scriptPubkey = pkh ∧ value = beBytes 8 out.value.toNat ∧
            ∃ txid vout, key = addrKey pkh txid vout) ∧
      ((∀ out ∈ runOutputs batches, env.hash160 out.scriptPubkey ≠ pkh) →
        ((getBalance db pkh).toNat = unspentTotal db pkh ↔ unspentTotal db pkh = 0)) := by
  have entries := entriesOf_run empty ran
  rw [← sum_scanAddr] at small
  have whole : ∀ value ∈ scanAddr db pkh, value.length = 8 := entries.length_scanned
  obtain ⟨total, same⟩ := readers_agree whole
    (by simpa using small : (0 : UInt64).toNat + _ < 2 ^ 64)
  rw [sum_scanAddr, UInt64.toNat_zero, Nat.zero_add] at total
  refine ⟨total, same, fun key value start found => entries.under start found, ?_⟩
  intro unhashed
  rw [getBalance, total, entries.indexTotal_eq_zero unhashed]
  exact eq_comm

def sampleOpenDb : Db :=
  write emptyDb [putCf .utxo (coinKey false zeroHash 0) (txOutputCodec.encode ⟨10000, [], none⟩)]

def samplePkh : Hash160 := sampleEnv.hash160 [9]

def samplePayment : IndexEvent :=
  .action (sampleBlock
    [{ sampleSpend [] with outputs := [⟨5000, p2pkhScriptFromPkh samplePkh, none⟩] }])
    1 true zeroHash 20000

/-- Every balance is right before the payment, and the payment is not found after it. -/
theorem payment_not_in_balance :
    (∀ pkh, (getBalance sampleOpenDb pkh).toNat = unspentTotal sampleOpenDb pkh ∧
        balanceCommand sampleOpenDb pkh = .ok (getBalance sampleOpenDb pkh)) ∧
      ∃ db, runEvents sampleEnv sampleOpenDb [[samplePayment]] = .ok db ∧
        unspentTotal db samplePkh = 5000 ∧ getBalance db samplePkh = 0 ∧
        balanceCommand db samplePkh = .ok 0 := by
  refine ⟨?_, ?_⟩
  · intro pkh
    have scanned : scanAddr sampleOpenDb pkh = [] := rfl
    have other : ([] : Bytes) ≠ p2pkhScriptFromPkh pkh := by simp [p2pkhScriptFromPkh]
    have coin : txOutputCodec.read (txOutputCodec.encode ⟨10000, [], none⟩) =
        some ⟨10000, [], none⟩ := Codec.read_encode _ _ (by decide)
    have unspent : unspentTotal sampleOpenDb pkh =
        paidTo pkh (txOutputCodec.encode ⟨10000, [], none⟩) + 0 := rfl
    rw [unspent, paidTo, coin, getBalance, balanceCommand, scanned]
    simp [other]
  · have evaluated : (runEvents sampleEnv sampleOpenDb [[samplePayment]]).toOption.map
        (fun db => (unspentTotal db samplePkh, getBalance db samplePkh,
          (balanceCommand db samplePkh).toOption)) = some (5000, 0, some 0) := by
      decide +kernel
    obtain ⟨db, ran, values⟩ := Option.map_eq_some_iff.mp evaluated
    obtain ⟨unspent, endpoint, command⟩ : _ ∧ _ ∧ _ := by simpa using values
    exact ⟨db, toOption_eq_some.mp ran, unspent, endpoint, toOption_eq_some.mp command⟩

theorem payment_balance_is_index :
    ∃ db, runEvents sampleEnv sampleOpenDb [[samplePayment]] = .ok db ∧
      ((getBalance db samplePkh).toNat = unspentTotal db samplePkh ↔
        unspentTotal db samplePkh = 0) := by
  have evaluated : (runEvents sampleEnv sampleOpenDb [[samplePayment]]).toOption.map
      (fun db => indexTotal db samplePkh) = some 0 := by
    decide +kernel
  obtain ⟨db, ran, total⟩ := Option.map_eq_some_iff.mp evaluated
  have ran := toOption_eq_some.mp ran
  refine ⟨db, ran, ?_⟩
  exact (balances_of_script_hashes sampleEnv sampleOpenDb db [[samplePayment]] rfl ran samplePkh
    (by rw [total]; decide)).2.2.2 (by decide +kernel)

end Lyrion.Node
