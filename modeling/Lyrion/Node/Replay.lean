/- GID: Lyrion/Node/Replay
   digest: Connecting a list of blocks from scratch, and what blocks of coinbases leave alone. -/

import Lyrion.Node.Undo

set_option autoImplicit false
set_option relaxedAutoImplicit false

namespace Lyrion.Node

open Library.ByteCodec Library.KeyValue Data Utils Tx

variable {family : Family} {older : List Block}

/-- The coins and the set hash after connecting a chain from an empty database. The chain is
listed from its newest block down. The supply counter is left open: apart from its own entry
nothing that is written depends on it. -/
inductive Replay (env : Env) : List Block → Db → Hash → Prop
  | genesis : Replay env [] emptyDb zeroHash
  | connect {older : List Block} {db : Db} {setHash : Hash} (before : Replay env older db setHash)
      (block : Block) (supply : UInt64) (acc : UtxoAcc)
      (connected : applyUtxoChanges env db setHash supply block older.length true [] = .ok acc) :
      Replay env (block :: older) (write db acc.batch) acc.setHash

def replayChain (env : Env) : List Block → Option (Db × Hash)
  | [] => some (emptyDb, zeroHash)
  | block :: older =>
      match replayChain env older with
      | none => none
      | some (db, setHash) =>
          match applyUtxoChanges env db setHash 0x8000000000000000 block older.length true [] with
          | .error _ => none
          | .ok acc => some (write db acc.batch, acc.setHash)

theorem replay_of_replayChain {env : Env} {chain : List Block} {db : Db} {setHash : Hash}
    (replayed : replayChain env chain = some (db, setHash)) : Replay env chain db setHash := by
  induction chain generalizing db setHash with
  | nil =>
      obtain ⟨rfl, rfl⟩ := Prod.mk.inj (Option.some.inj replayed)
      exact .genesis
  | cons block older ih =>
      unfold replayChain at replayed
      split at replayed
      · simp at replayed
      · rename_i base baseHash below
        split at replayed
        · simp at replayed
        · rename_i acc connected
          obtain ⟨rfl, rfl⟩ := Prod.mk.inj (Option.some.inj replayed)
          exact .connect (ih below) block _ acc connected

def SameCoins (db other : Db) : Prop :=
  db .utxo = other .utxo ∧ db .anonymous = other .anonymous ∧ db .keyImages = other .keyImages

def coinbaseIds (env : Env) (txs : List Transaction) : List Bytes :=
  (txs.filter fun tx => isCoinbase tx).map fun tx => (txHash env tx).toList

def AllCoinbase (block : Block) : Prop := ∀ tx ∈ block.txs, isCoinbase tx = true

variable {env : Env}

section Congruence

variable {db other : Db}

private theorem SameCoins.storedCoin (same : SameCoins db other) (isAnonymous : Bool)
    (vin : TXInput) :
    storedCoin db isAnonymous vin = storedCoin other isAnonymous vin := by
  obtain ⟨utxo, anonymous, -⟩ := same
  cases isAnonymous with
  | false => simp [Tx.storedCoin, Data.get, coinFamily, utxo]
  | true => simp [Tx.storedCoin, Data.get, coinFamily, anonymous]

private theorem SameCoins.coinEffect (same : SameCoins db other) (isAnonymous : Bool)
    (vin : TXInput) :
    Node.coinEffect env db true isAnonymous vin =
      Node.coinEffect env other true isAnonymous vin := by
  have prev : Data.get db (coinFamily isAnonymous) (coinKey isAnonymous vin.txid vin.vout) =
      Data.get other (coinFamily isAnonymous) (coinKey isAnonymous vin.txid vin.vout) := by
    obtain ⟨utxo, anonymous, -⟩ := same
    cases isAnonymous with
    | false => simp [Data.get, coinFamily, utxo]
    | true => simp [Data.get, coinFamily, anonymous]
  simp only [Node.coinEffect, same.storedCoin isAnonymous vin, prev]

theorem SameCoins.blockEffect (same : SameCoins db other) (height : Nat) (txs : List Transaction) :
    Node.blockEffect env db height true txs = Node.blockEffect env other height true txs := by
  unfold Node.blockEffect
  congr 1
  apply List.map_congr_left
  intro tx _
  have inputs : tx.inputs.map (inputEffect env db height true tx.isAnonymous) =
      tx.inputs.map (inputEffect env other height true tx.isAnonymous) := by
    apply List.map_congr_left
    intro vin _
    simp only [inputEffect, same.coinEffect, keyImageEffect, if_true]
  have outputs : outputEffect env db true tx = outputEffect env other true tx := by
    funext entry
    simp [outputEffect, newCoinEffect, addrEffect]
  simp only [txEffect, coinbaseEffect, if_true, inputs, outputs]

theorem SameCoins.txOk (same : SameCoins db other) {tx : Transaction}
    (handled : TxOk env other true tx) : TxOk env db true tx := by
  intro ordinary vin input
  obtain ⟨present, image⟩ := handled ordinary vin input
  refine ⟨by rwa [same.storedCoin], ?_⟩
  intro anonymous
  obtain ⟨long, isImage, unspent⟩ := image anonymous
  refine ⟨long, isImage, ?_⟩
  rw [Data.get, same.2.2]
  exact unspent

end Congruence

section CoinbaseStore

variable (env) (snapshot : Db) (height : Nat) (isConnect : Bool)

private theorem txEffect_coinbase (tx : Transaction) :
    (writesTo .coinbase (txEffect env snapshot height isConnect tx).writes).map Write.key =
        (if isCoinbase tx then [(txHash env tx).toList] else []) ∧
      ∀ w ∈ writesTo .coinbase (txEffect env snapshot height isConnect tx).writes,
        (w.left = none ↔ isConnect = false) := by
  cases coinbase : isCoinbase tx with
  | true =>
      cases isConnect <;>
        simp [txEffect, coinbase, coinbaseEffect, putCf, deleteCf, Write.key, Write.left]
  | false =>
      rw [writesTo_txEffect_of_other env snapshot height isConnect (by decide) coinbase]
      simp

theorem blockEffect_coinbase (txs : List Transaction) :
    (writesTo .coinbase (Node.blockEffect env snapshot height isConnect txs).writes).map Write.key =
        coinbaseIds env txs ∧
      ∀ w ∈ writesTo .coinbase (Node.blockEffect env snapshot height isConnect txs).writes,
        (w.left = none ↔ isConnect = false) := by
  simp only [Node.blockEffect, Effect.prod_writes, writesTo_flatMap, List.map_flatMap,
    List.mem_flatMap]
  refine ⟨?_, ?_⟩
  · have each (tx : Transaction) :
        (writesTo .coinbase (txEffect env snapshot height isConnect tx).writes).map Write.key = _ :=
      (txEffect_coinbase env snapshot height isConnect tx).1
    simp only [each, coinbaseIds]
    induction txs with
    | nil => rfl
    | cons tx txs ih => cases coinbase : isCoinbase tx <;> simp [ih, coinbase]
  · rintro w ⟨tx, -, inside⟩
    exact (txEffect_coinbase env snapshot height isConnect tx).2 w inside

end CoinbaseStore

section Coinbases

variable {block : Block} {snapshot : Db} {height : Nat} {isConnect : Bool}

private theorem AllCoinbase.noInputs (coinbases : AllCoinbase block) : NoInputs block.txs := by
  intro tx member ordinary
  exact absurd ((coinbases tx member).symm.trans ordinary) (by simp)

theorem AllCoinbase.writesTo_other (coinbases : AllCoinbase block) (other : family ≠ .coinbase) :
    writesTo family (Node.blockEffect env snapshot height isConnect block.txs).writes = [] := by
  have keys := (blockEffect_writes env snapshot height isConnect coinbases.noInputs family).1
  have none_touched : blockKeys env isConnect family block.txs = [] := by
    simp only [blockKeys, List.flatMap_eq_nil_iff]
    intro tx member
    simp [txKeys, coinbases tx member, other]
  rw [none_touched] at keys
  exact List.map_eq_nil_iff.mp keys

private theorem AllCoinbase.element (coinbases : AllCoinbase block) :
    (Node.blockEffect env snapshot height isConnect block.txs).element = zeroHash := by
  have empty : block.txs.flatMap (outputElements env isConnect) = [] := by
    rw [List.flatMap_eq_nil_iff]
    intro tx member
    simp [outputElements, coinbases tx member]
  rw [blockEffect_element coinbases.noInputs, empty]
  rfl

private theorem AllCoinbase.supplyOps (coinbases : AllCoinbase block) :
    (Node.blockEffect env snapshot height isConnect block.txs).supplyOps = [] := by
  simp only [Node.blockEffect, Effect.prod_supplyOps, List.flatMap_eq_nil_iff]
  intro tx member
  cases isConnect <;> simp [txEffect, coinbases tx member, coinbaseEffect]

theorem AllCoinbase.applies (coinbases : AllCoinbase block) (env : Env) (snapshot : Db)
    (setHash : Hash) (supply : UInt64) (height : Nat) (isConnect : Bool) (batch : DbBatch) :
    ∃ acc, applyUtxoChanges env snapshot setHash supply block height isConnect batch = .ok acc ∧
      acc.supply = supply ∧ acc.setHash = setHash := by
  have handled (tx : Transaction) (member : tx ∈ block.txs) : TxOk env snapshot isConnect tx := by
    intro ordinary
    exact absurd ((coinbases tx member).symm.trans ordinary) (by simp)
  have ran : runSupply supply (Node.blockEffect env snapshot height isConnect block.txs).supplyOps =
      some supply := by
    rw [coinbases.supplyOps]
    rfl
  obtain ⟨acc, applied, supplied, sets⟩ :=
    applyUtxoChanges_of_run env snapshot height isConnect handled ran
  rw [coinbases.element, xorHash_zero] at sets
  exact ⟨acc, applied, supplied, sets⟩

end Coinbases

section Replays

def replayStores : List Family := [.utxo, .anonymous, .keyImages, .coinbase]

def SameStores (db other : Db) : Prop := ∀ family ∈ replayStores, db family = other family

theorem SameStores.coins {db other : Db} (same : SameStores db other) : SameCoins db other :=
  ⟨same .utxo (by decide), same .anonymous (by decide), same .keyImages (by decide)⟩

theorem SameCoins.store {db other : Db} (same : SameCoins db other) (member : family ∈ replayStores)
    (notCoinbase : family ≠ .coinbase) : db family = other family := by
  obtain ⟨utxo, anonymous, keyImages⟩ := same
  simp only [replayStores, List.mem_cons, List.not_mem_nil, or_false] at member
  rcases member with rfl | rfl | rfl | rfl
  · exact utxo
  · exact anonymous
  · exact keyImages
  · exact absurd rfl notCoinbase

theorem mem_coinStores_of_replayStores (member : family ∈ replayStores) : family ∈ coinStores := by
  revert family
  decide

theorem connect_store {db : Db} {setHash : Hash} {supply : UInt64} {block : Block} {height : Nat}
    {acc : UtxoAcc}
    (connected : applyUtxoChanges env db setHash supply block height true [] = .ok acc)
    (member : family ∈ replayStores) :
    write db acc.batch family =
      applyWrites (db family)
        (writesTo family (blockEffect env db height true block.txs).writes) := by
  obtain ⟨-, -, -, -, batch⟩ := (applyUtxoChanges_eq_ok ..).mp connected
  rw [write, batch, List.nil_append, writesTo_append,
    writesTo_counterWrites (mem_coinStores_of_replayStores member), List.append_nil]

theorem Replay.unique {chain : List Block} {db other : Db} {setHash otherHash : Hash}
    (first : Replay env chain db setHash) (second : Replay env chain other otherHash) :
    setHash = otherHash ∧ SameStores db other := by
  induction first generalizing other otherHash with
  | genesis =>
      cases second
      exact ⟨rfl, fun _ _ => rfl⟩
  | connect before block supply acc connected ih =>
      cases second with
      | connect before' _ supply' acc' connected' =>
          obtain ⟨rfl, same⟩ := ih before'
          obtain ⟨-, -, sets, -⟩ := (applyUtxoChanges_eq_ok ..).mp connected
          obtain ⟨-, -, sets', -⟩ := (applyUtxoChanges_eq_ok ..).mp connected'
          rw [← same.coins.blockEffect] at sets'
          refine ⟨sets.trans sets'.symm, ?_⟩
          intro family member
          rw [connect_store connected member, connect_store connected' member,
            same.coins.blockEffect, same family member]

theorem Replay.coinbase_eq_none_iff {chain : List Block} {db : Db} {setHash : Hash}
    (replay : Replay env chain db setHash) (k : Bytes) :
    (db .coinbase).lookup k = none ↔ ∀ block ∈ chain, k ∉ coinbaseIds env block.txs := by
  induction replay with
  | genesis => simp [emptyDb]
  | @connect older db setHash before block supply acc connected ih =>
      obtain ⟨keys, puts⟩ := blockEffect_coinbase env db older.length true block.txs
      rw [connect_store connected (by decide), List.forall_mem_cons, ← ih, ← keys]
      by_cases touched : ∃ w ∈ writesTo .coinbase
          (Node.blockEffect env db older.length true block.txs).writes, w.key = k
      · obtain ⟨w, member, hits, content⟩ :=
          lookup_applyWrites_of_touched (db .coinbase) _ k touched
        have stored : w.left ≠ none := by simp [puts w member]
        rw [content]
        simp only [stored, false_iff, not_and]
        intro absent
        exact absurd (List.mem_map.mpr ⟨w, member, hits⟩) absent
      · push Not at touched
        rw [lookup_applyWrites_of_untouched _ _ _ touched]
        simp only [iff_and_self]
        intro _ inside
        obtain ⟨w, member, hits⟩ := List.mem_map.mp inside
        exact touched w member hits

theorem Replay.below_coinbases {newer : List Block} {db : Db} {setHash : Hash}
    (replay : Replay env (newer ++ older) db setHash)
    (coinbases : ∀ block ∈ newer, AllCoinbase block) :
    ∃ base, Replay env older base setHash ∧ SameCoins db base ∧
      ∀ k, (∀ block ∈ newer, k ∉ coinbaseIds env block.txs) →
        (db .coinbase).lookup k = (base .coinbase).lookup k := by
  induction newer generalizing db setHash with
  | nil => exact ⟨db, replay, ⟨rfl, rfl, rfl⟩, fun _ _ => rfl⟩
  | cons block newer ih =>
      obtain ⟨here, later⟩ := List.forall_mem_cons.mp coinbases
      cases replay with
      | @connect _ db setHash before _ supply acc connected =>
          obtain ⟨base, below, same, ids⟩ := ih before later
          obtain ⟨-, -, sets, -⟩ := (applyUtxoChanges_eq_ok ..).mp connected
          rw [here.element, xorHash_zero] at sets
          refine ⟨base, sets ▸ below, ?_, ?_⟩
          · have kept {family : Family} (member : family ∈ replayStores)
                (other : family ≠ .coinbase) : write db acc.batch family = db family := by
              rw [connect_store connected member, here.writesTo_other other, applyWrites_nil]
            exact ⟨(kept (by decide) (by decide)).trans same.1,
              (kept (by decide) (by decide)).trans same.2.1,
              (kept (by decide) (by decide)).trans same.2.2⟩
          · intro k outside
            obtain ⟨notHere, notLater⟩ := List.forall_mem_cons.mp outside
            rw [connect_store connected (by decide), ← ids k notLater]
            apply lookup_applyWrites_of_untouched
            intro w member hits
            rw [← (blockEffect_coinbase env db (newer ++ older).length true block.txs).1] at notHere
            exact notHere (List.mem_map.mpr ⟨w, member, hits⟩)

end Replays

section Spending

def createdOutpoints (env : Env) (isAnonymous : Bool) (chain : List Block) : List Bytes :=
  chain.flatMap fun block => blockKeys env true (coinFamily isAnonymous) block.txs

def FreshOutpoints (env : Env) (chain : List Block) : Prop :=
  ∀ isAnonymous, (createdOutpoints env isAnonymous chain).Nodup

def SpentIn (isAnonymous : Bool) (chain : List Block) (k : Bytes) : Prop :=
  ∃ block ∈ chain, ∃ tx ∈ block.txs, isCoinbase tx = false ∧ tx.isAnonymous = isAnonymous ∧
    ∃ vin ∈ tx.inputs, coinKey isAnonymous vin.txid vin.vout = k

theorem coinFamily_mem_replayStores (isAnonymous : Bool) :
    coinFamily isAnonymous ∈ replayStores := by
  cases isAnonymous <;> decide

theorem lookup_ne_none_of_storedCoin {db : Db} {isAnonymous : Bool} {vin : TXInput}
    (present : (storedCoin db isAnonymous vin).isSome) :
    (db (coinFamily isAnonymous)).lookup (coinKey isAnonymous vin.txid vin.vout) ≠ none := by
  intro absent
  simp [storedCoin, Data.get, absent] at present

def SpentBy (isAnonymous : Bool) (block : Block) (k : Bytes) : Prop :=
  ∃ tx ∈ block.txs, isCoinbase tx = false ∧ tx.isAnonymous = isAnonymous ∧
    ∃ vin ∈ tx.inputs, coinKey isAnonymous vin.txid vin.vout = k

private theorem spentIn_cons {isAnonymous : Bool} {block : Block} {k : Bytes} :
    SpentIn isAnonymous (block :: older) k ↔
      SpentBy isAnonymous block k ∨ SpentIn isAnonymous older k := by
  simp only [SpentIn, SpentBy, List.mem_cons, exists_eq_or_imp]

private theorem mem_createdOutpoints_cons {isAnonymous : Bool} {block : Block} {k : Bytes} :
    k ∈ createdOutpoints env isAnonymous (block :: older) ↔
      k ∈ blockKeys env true (coinFamily isAnonymous) block.txs ∨
        k ∈ createdOutpoints env isAnonymous older := by
  rw [createdOutpoints, List.flatMap_cons, List.mem_append, createdOutpoints]

section Connects

variable {db : Db} {setHash : Hash} {supply : UInt64} {block : Block} {height : Nat}
  {acc : UtxoAcc} {isAnonymous : Bool} {k : Bytes}

private theorem SpentBy.stored (spent : SpentBy isAnonymous block k)
    (connected : applyUtxoChanges env db setHash supply block height true [] = .ok acc) :
    (db (coinFamily isAnonymous)).lookup k ≠ none := by
  obtain ⟨tx, inside, ordinary, rfl, vin, input, rfl⟩ := spent
  obtain ⟨handled, -⟩ := (applyUtxoChanges_eq_ok ..).mp connected
  exact lookup_ne_none_of_storedCoin (handled tx inside ordinary vin input).1

private theorem lookup_connect_ne_none_iff
    (connected : applyUtxoChanges env db setHash supply block height true [] = .ok acc)
    (apart : SpentBy isAnonymous block k →
      k ∉ blockKeys env true (coinFamily isAnonymous) block.txs) :
    (write db acc.batch (coinFamily isAnonymous)).lookup k ≠ none ↔
      (k ∈ blockKeys env true (coinFamily isAnonymous) block.txs ∨
        (db (coinFamily isAnonymous)).lookup k ≠ none) ∧ ¬ SpentBy isAnonymous block k := by
  -- An outpoint that the block both creates and spends is left open.
  have puts {w : Write Bytes Bytes} (member : w ∈ writesTo (coinFamily isAnonymous)
      (Node.blockEffect env db height true block.txs).writes) (stored : w.left ≠ none) :
      w.key ∈ blockKeys env true (coinFamily isAnonymous) block.txs :=
    put_mem_blockKeys (coinFamily_ne_keyImages isAnonymous) member stored
  rw [connect_store connected (coinFamily_mem_replayStores isAnonymous)]
  by_cases spent : SpentBy isAnonymous block k
  · have absent := apart spent
    have deletes : ∀ w ∈ writesTo (coinFamily isAnonymous)
        (Node.blockEffect env db height true block.txs).writes, w.key = k → w.left = none := by
      rintro w member rfl
      by_contra stored
      exact absent (puts member stored)
    have touched : ∃ w ∈ writesTo (coinFamily isAnonymous)
        (Node.blockEffect env db height true block.txs).writes, w.key = k := by
      obtain ⟨tx, inside, ordinary, rfl, vin, input, rfl⟩ := spent
      exact ⟨_, spent_coin_deleted inside ordinary input, rfl⟩
    simp [lookup_applyWrites_of_agree _ _ _ _ deletes touched, spent]
  · have kept : ∀ w ∈ writesTo (coinFamily isAnonymous)
        (Node.blockEffect env db height true block.txs).writes, w.key = k → w.left ≠ none := by
      rintro w member rfl deleted
      exact spent (deleted_coin_spent member deleted)
    by_cases touched : ∃ w ∈ writesTo (coinFamily isAnonymous)
        (Node.blockEffect env db height true block.txs).writes, w.key = k
    · obtain ⟨w, member, hits, content⟩ :=
        lookup_applyWrites_of_touched (db (coinFamily isAnonymous)) _ k touched
      have stored := kept w member hits
      have created := hits ▸ puts member stored
      simp [content, stored, created, spent]
    · have uncreated : k ∉ blockKeys env true (coinFamily isAnonymous) block.txs :=
        fun created => touched (created_coin_put created)
      push Not at touched
      simp [lookup_applyWrites_of_untouched _ _ _ touched, uncreated, spent]

end Connects

variable {chain : List Block} {db : Db} {setHash : Hash} {isAnonymous : Bool} {k : Bytes}

private theorem Replay.lookup_and_spent (replay : Replay env chain db setHash)
    (fresh : (createdOutpoints env isAnonymous chain).Nodup) :
    ((db (coinFamily isAnonymous)).lookup k ≠ none ↔
        k ∈ createdOutpoints env isAnonymous chain ∧ ¬ SpentIn isAnonymous chain k) ∧
      (SpentIn isAnonymous chain k → k ∈ createdOutpoints env isAnonymous chain) := by
  induction replay with
  | genesis => simp [emptyDb, createdOutpoints, SpentIn]
  | @connect older db setHash before block supply acc connected ih =>
      rw [createdOutpoints, List.flatMap_cons, List.nodup_append'] at fresh
      obtain ⟨-, freshBelow, disjoint⟩ := fresh
      obtain ⟨present, spentCreated⟩ := ih freshBelow
      have spentBelow (spent : SpentBy isAnonymous block k) :
          k ∈ createdOutpoints env isAnonymous older := (present.mp (spent.stored connected)).1
      have notHere (below : k ∈ createdOutpoints env isAnonymous older) :
          k ∉ blockKeys env true (coinFamily isAnonymous) block.txs :=
        fun here => disjoint here below
      rw [lookup_connect_ne_none_iff connected (fun spent => notHere (spentBelow spent)), present,
        mem_createdOutpoints_cons, spentIn_cons]
      constructor
      · constructor
        · rintro ⟨here | ⟨below, unspent⟩, notNow⟩
          · exact ⟨Or.inl here, fun spent =>
              spent.elim notNow fun earlier => notHere (spentCreated earlier) here⟩
          · exact ⟨Or.inr below, fun spent => spent.elim notNow unspent⟩
        · rintro ⟨created, unspent⟩
          obtain ⟨notNow, notEarlier⟩ := not_or.mp unspent
          exact ⟨created.imp_right fun below => ⟨below, notEarlier⟩, notNow⟩
      · rintro (now | earlier)
        · exact Or.inr (spentBelow now)
        · exact Or.inr (spentCreated earlier)

theorem Replay.lookup_ne_none_iff (replay : Replay env chain db setHash) (isAnonymous : Bool)
    (fresh : (createdOutpoints env isAnonymous chain).Nodup) (k : Bytes) :
    (db (coinFamily isAnonymous)).lookup k ≠ none ↔
      k ∈ createdOutpoints env isAnonymous chain ∧ ¬ SpentIn isAnonymous chain k :=
  (replay.lookup_and_spent fresh).1

theorem Replay.outpoints (replay : Replay env chain db setHash) (isAnonymous : Bool)
    (fresh : (createdOutpoints env isAnonymous chain).Nodup) (k : Bytes) :
    ((db (coinFamily isAnonymous)).lookup k ≠ none → k ∈ createdOutpoints env isAnonymous chain) ∧
      (SpentIn isAnonymous chain k → k ∈ createdOutpoints env isAnonymous chain ∧
        (db (coinFamily isAnonymous)).lookup k = none) := by
  obtain ⟨present, created⟩ := replay.lookup_and_spent fresh
  refine ⟨fun stored => (present.mp stored).1, fun spent => ⟨created spent, ?_⟩⟩
  by_contra stored
  exact (present.mp stored).2 spent

end Spending

end Lyrion.Node
