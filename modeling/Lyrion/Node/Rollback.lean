/- GID: Lyrion/Node/Rollback
   digest: What the undo log of a block action does to a store that the action has not changed. -/

import Lyrion.Library.UndoLog
import Lyrion.Node.Chain
import Lyrion.Node.Undo

set_option autoImplicit false
set_option relaxedAutoImplicit false

namespace Lyrion.Node

open Library.ByteCodec Library.KeyValue Library.UndoLog Data Utils Tx

variable {isAnonymous : Bool} {vin : TXInput}

private theorem rollbackBatch_eq (ops : List (Family × Bytes × Option Bytes)) :
    rollbackBatch ops = undo ops := by
  unfold rollbackBatch undo
  apply List.map_congr_left
  rintro ⟨family, key, value | value⟩ _ <;> rfl

theorem applyBlockAction_rolls_back {env : Env} {o : Outside} {block : Block} {height : Nat}
    {action : BlockAction} {isBest : Bool} {work : Nat} {batch : DbBatch} {c : Chain} {hash : Hash}
    {acc : UtxoAcc} (idle : c.batchPending = false)
    (writable : ¬ (c.readOnlyMode = true ∧ action = .connect))
    (hashed : headerHash env block.header = .ok hash)
    (applied : applyUtxoChanges env c.db c.state.utxoSetHash c.state.totalSupply block height
      (action = .connect) batch = .ok acc)
    (unwritten : o.actionWrite = false) (rolledBack : o.rollbackWrite = true) :
    applyBlockAction env o block height action isBest work batch c =
      (fail (.anyhow "Write error"), { c with
        batchPending := true
        db := write c.db (rollbackBatch acc.rollbackOps) }) := by
  simp [applyBlockAction, Locking.applyBlockAction, idle, writable, hashed, applied, unwritten,
    rolledBack]

section Log

variable {env : Env} {db : Db} {height : Nat} {isConnect : Bool}

/-- An entry about one of the coin stores, whose content, if it has any, is what the store has. -/
structure Logged (db : Db) (op : Family × Bytes × Option Bytes) : Prop where
  family : op.1 ∈ coinStores
  stored : ∀ value, op.2.2 = some value → get db op.1 op.2.1 = some value

private theorem logged_absent {family : Family} (member : family ∈ coinStores) (key : Bytes) :
    Logged db (family, key, none) :=
  ⟨member, by simp⟩

private theorem logged_present {family : Family} (member : family ∈ coinStores) {key : Bytes}
    {op : Family × Bytes × Option Bytes}
    (logged : op ∈ ((get db family key).map fun prev => (family, key, some prev)).toList) :
    Logged db op := by
  obtain ⟨prev, found, rfl⟩ := Option.map_eq_some_iff.mp (Option.mem_toList.mp logged)
  exact ⟨member, fun value same => found.trans same⟩

private theorem coinFamily_mem (isAnonymous : Bool) : coinFamily isAnonymous ∈ coinStores := by
  cases isAnonymous <;> decide

private theorem logged_coinEffect (present : (storedCoin db isAnonymous vin).isSome) :
    ∀ op ∈ (coinEffect env db isConnect isAnonymous vin).undo, Logged db op := by
  obtain ⟨out, stored⟩ := Option.isSome_iff_exists.mp present
  obtain ⟨prev, found, -⟩ := Option.bind_eq_some_iff.mp stored
  intro op member
  cases isConnect with
  | true =>
      obtain rfl := List.mem_singleton.mp member
      refine ⟨coinFamily_mem isAnonymous, ?_⟩
      intro value same
      simpa [found] using same
  | false =>
      obtain rfl := List.mem_singleton.mp member
      exact logged_absent (coinFamily_mem isAnonymous) _

private theorem logged_inputEffect (present : (storedCoin db isAnonymous vin).isSome) :
    ∀ op ∈ (inputEffect env db height isConnect isAnonymous vin).undo, Logged db op := by
  intro op member
  cases isAnonymous with
  | false => exact logged_coinEffect present op member
  | true =>
      rw [inputEffect, if_pos rfl, Effect.mul_undo, List.mem_append] at member
      rcases member with image | coin
      · cases isConnect with
        | true =>
            obtain rfl := List.mem_singleton.mp image
            exact logged_absent (by decide) _
        | false => exact logged_present (by decide) image
      · exact logged_coinEffect present op coin

private theorem logged_outputEffect (tx : Transaction) (entry : TXOutput × Nat) :
    ∀ op ∈ (outputEffect env db isConnect tx entry).undo, Logged db op := by
  have coin (vout : UInt32) :
      ∀ op ∈ (newCoinEffect env db isConnect tx entry.1 vout).undo, Logged db op := by
    intro op member
    cases isConnect with
    | true =>
        obtain rfl := List.mem_singleton.mp member
        exact logged_absent (coinFamily_mem tx.isAnonymous) _
    | false => exact logged_present (coinFamily_mem tx.isAnonymous) member
  intro op member
  unfold outputEffect at member
  split at member
  · exact coin _ op member
  · rw [Effect.mul_undo, List.mem_append] at member
    rcases member with here | address
    · exact coin _ op here
    · cases isConnect with
      | true =>
          obtain rfl := List.mem_singleton.mp address
          exact logged_absent (by decide) _
      | false => exact logged_present (by decide) address

private theorem logged_txEffect {tx : Transaction} (handled : TxOk env db isConnect tx) :
    ∀ op ∈ (txEffect env db height isConnect tx).undo, Logged db op := by
  intro op member
  cases coinbase : isCoinbase tx with
  | true =>
      rw [txEffect, if_pos coinbase] at member
      cases isConnect with
      | true =>
          obtain rfl := List.mem_singleton.mp member
          exact logged_absent (by decide) _
      | false => exact logged_present (by decide) member
  | false =>
      simp only [txEffect, coinbase, Bool.false_eq_true, if_false, Effect.mul_undo,
        Effect.prod_undo, List.mem_append, List.mem_flatMap] at member
      rcases member with ⟨vin, input, member⟩ | ⟨entry, -, member⟩
      · exact logged_inputEffect (handled coinbase vin input).1 op member
      · exact logged_outputEffect tx entry op member

private theorem logged_of_applied {setHash : Hash} {supply : UInt64} {block : Block}
    {batch : DbBatch} {acc : UtxoAcc}
    (applied : applyUtxoChanges env db setHash supply block height isConnect batch = .ok acc) :
    ∀ op ∈ acc.rollbackOps, Logged db op := by
  obtain ⟨handled, -, -, log, -⟩ := (applyUtxoChanges_eq_ok ..).mp applied
  intro op member
  rw [log, blockEffect, Effect.prod_undo] at member
  obtain ⟨tx, inside, member⟩ := List.mem_flatMap.mp member
  exact logged_txEffect (handled tx inside) op member

end Log

section Order

variable {env : Env} {db : Db} {height : Nat} {isConnect : Bool} {tx : Transaction}
  {txs : List Transaction} {family : Family} {key value : Bytes} {o : Option Bytes}

def spentKeys (family : Family) (tx : Transaction) : List Bytes :=
  if isCoinbase tx = false ∧ family = coinFamily tx.isAnonymous then
    tx.inputs.map fun vin => coinKey tx.isAnonymous vin.txid vin.vout
  else []

private theorem stored_of_spent (handled : TxOk env db isConnect tx)
    (spends : key ∈ spentKeys family tx) :
    family ≠ .keyImages ∧ ∃ value, get db family key = some value := by
  rw [spentKeys] at spends
  split at spends
  · rename_i here
    obtain ⟨ordinary, rfl⟩ := here
    obtain ⟨vin, input, rfl⟩ := List.mem_map.mp spends
    obtain ⟨out, stored⟩ := Option.isSome_iff_exists.mp (handled ordinary vin input).1
    obtain ⟨value, found, -⟩ := Option.bind_eq_some_iff.mp stored
    exact ⟨coinFamily_ne_keyImages tx.isAnonymous, value, found⟩
  · simp at spends

private theorem txKeys_keyImages (tx : Transaction) : txKeys env isConnect .keyImages tx = [] := by
  cases coinbase : isCoinbase tx <;> cases anonymous : tx.isAnonymous <;>
    simp [txKeys, outputKeys, coinFamily, coinbase, anonymous]

section

variable (env db height isConnect)

def inputLog (tx : Transaction) : List (Family × Bytes × Option Bytes) :=
  if isCoinbase tx then []
  else (tx.inputs.map (inputEffect env db height isConnect tx.isAnonymous)).prod.undo

def outputLog (tx : Transaction) : List (Family × Bytes × Option Bytes) :=
  if isCoinbase tx then (coinbaseEffect env db height isConnect tx).undo
  else ((numberedOutputs isConnect tx).map (outputEffect env db isConnect tx)).prod.undo

private theorem txEffect_undo (tx : Transaction) :
    (txEffect env db height isConnect tx).undo =
      inputLog env db height isConnect tx ++ outputLog env db height isConnect tx := by
  unfold txEffect inputLog outputLog
  split
  · rfl
  · rfl

end

private theorem mem_inputEffect_undo (other : family ≠ .keyImages)
    (taken : get db family key = some value) :
    (family, key, o) ∈ (inputEffect env db height isConnect isAnonymous vin).undo ↔
      (family = coinFamily isAnonymous ∧ key = coinKey isAnonymous vin.txid vin.vout) ∧
        o = if isConnect then some value else none := by
  have coin : (family, key, o) ∈ (coinEffect env db isConnect isAnonymous vin).undo ↔
      (family = coinFamily isAnonymous ∧ key = coinKey isAnonymous vin.txid vin.vout) ∧
        o = if isConnect then some value else none := by
    cases isConnect with
    | false => simp [coinEffect, and_assoc]
    | true =>
        simp only [coinEffect, if_true, List.mem_singleton, Prod.mk.injEq, and_assoc]
        refine and_congr_right fun same => and_congr_right fun same' => ?_
        subst same same'
        rw [taken, Option.getD_some]
  cases isAnonymous with
  | false => exact coin
  | true =>
      have image : (family, key, o) ∉ (keyImageEffect db height isConnect vin).undo := by
        cases isConnect <;> simp [keyImageEffect, other, Ne.symm other]
      rw [inputEffect, if_pos rfl, Effect.mul_undo, List.mem_append, or_iff_right image, coin]

variable (env height isConnect) in
private theorem mem_inputLog (other : family ≠ .keyImages)
    (taken : get db family key = some value) :
    (family, key, o) ∈ inputLog env db height isConnect tx ↔
      key ∈ spentKeys family tx ∧ o = if isConnect then some value else none := by
  cases coinbase : isCoinbase tx with
  | true => simp [inputLog, spentKeys, coinbase]
  | false =>
      simp only [inputLog, spentKeys, coinbase, Bool.false_eq_true, if_false, Effect.prod_undo,
        List.mem_flatMap, mem_inputEffect_undo other taken, true_and]
      by_cases same : family = coinFamily tx.isAnonymous
      · simp only [same, true_and, if_true, List.mem_map]
        constructor
        · rintro ⟨vin, member, rfl, content⟩
          exact ⟨⟨vin, member, rfl⟩, content⟩
        · rintro ⟨⟨vin, member, rfl⟩, content⟩
          exact ⟨vin, member, rfl, content⟩
      · simp [same]

private theorem mem_creation_undo (taken : get db family key = some value) {family' : Family}
    {key' : Bytes} :
    (family, key, o) ∈ (if isConnect then [(family', key', none)]
        else ((get db family' key').map fun prev => (family', key', some prev)).toList) ↔
      (family = family' ∧ key = key') ∧ o = if isConnect then none else some value := by
  cases isConnect with
  | true => simp [and_assoc]
  | false =>
      simp only [Bool.false_eq_true, if_false, Option.mem_toList,
        Option.map_eq_some_iff, Prod.mk.injEq]
      constructor
      · rintro ⟨prev, found, rfl, rfl, rfl⟩
        exact ⟨⟨rfl, rfl⟩, found.symm.trans taken⟩
      · rintro ⟨⟨rfl, rfl⟩, rfl⟩
        exact ⟨value, taken, rfl, rfl, rfl⟩

private theorem mem_outputEffect_undo (taken : get db family key = some value)
    {entry : TXOutput × Nat} :
    (family, key, o) ∈ (outputEffect env db isConnect tx entry).undo ↔
      key ∈ outputKeys env family tx entry ∧ o = if isConnect then none else some value := by
  have coin (vout : UInt32) :
      (family, key, o) ∈ (newCoinEffect env db isConnect tx entry.1 vout).undo ↔
        (family = coinFamily tx.isAnonymous ∧ key = coinKey tx.isAnonymous (txHash env tx) vout) ∧
          o = if isConnect then none else some value := by
    rw [← mem_creation_undo taken]
    cases isConnect <;> rfl
  have address (vout : UInt32) :
      (family, key, o) ∈ (addrEffect env db isConnect tx entry.1 vout).undo ↔
        (family = .addrIndex ∧
          key = addrKey (env.hash160 entry.1.scriptPubkey) (txHash env tx) vout) ∧
          o = if isConnect then none else some value := by
    rw [← mem_creation_undo taken]
    cases isConnect <;> rfl
  cases anonymous : tx.isAnonymous with
  | true =>
      rw [outputEffect, if_pos anonymous, coin, outputKeys]
      simp only [anonymous, Bool.true_eq_false, and_false, if_false]
      split <;> simp_all
  | false =>
      rw [outputEffect, if_neg (by simp [anonymous]), Effect.mul_undo, List.mem_append, coin,
        address, ← or_and_right, outputKeys]
      simp only [anonymous, and_true, coinFamily, Bool.false_eq_true, if_false]
      cases family <;> simp

variable (env height isConnect) in
private theorem mem_outputLog (taken : get db family key = some value) :
    (family, key, o) ∈ outputLog env db height isConnect tx ↔
      key ∈ txKeys env isConnect family tx ∧ o = if isConnect then none else some value := by
  cases coinbase : isCoinbase tx with
  | true =>
      have record : (family, key, o) ∈ (coinbaseEffect env db height isConnect tx).undo ↔
          (family = .coinbase ∧ key = (txHash env tx).toList) ∧
            o = if isConnect then none else some value := by
        rw [← mem_creation_undo taken]
        cases isConnect <;> rfl
      rw [outputLog, if_pos coinbase, record, txKeys, if_pos coinbase]
      split <;> simp_all
  | false =>
      simp only [outputLog, txKeys, coinbase, Bool.false_eq_true, if_false, Effect.prod_undo,
        List.mem_flatMap, mem_outputEffect_undo taken]
      constructor
      · rintro ⟨entry, member, made, content⟩
        exact ⟨⟨entry, member, made⟩, content⟩
      · rintro ⟨⟨entry, member, made⟩, content⟩
        exact ⟨entry, member, made, content⟩

variable (env db height isConnect) in
private theorem mem_blockEffect_undo {entry : Family × Bytes × Option Bytes} :
    entry ∈ (blockEffect env db height isConnect txs).undo ↔
      ∃ tx ∈ txs, entry ∈ inputLog env db height isConnect tx ∨
        entry ∈ outputLog env db height isConnect tx := by
  simp only [blockEffect, Effect.prod_undo, List.mem_flatMap, txEffect_undo, List.mem_append]

private theorem blockEffect_undo_append (pre post : List Transaction) :
    (blockEffect env db height isConnect (pre ++ tx :: post)).undo =
      (blockEffect env db height isConnect pre).undo ++
        (inputLog env db height isConnect tx ++ (outputLog env db height isConnect tx ++
          (blockEffect env db height isConnect post).undo)) := by
  simp only [blockEffect, Effect.prod_undo, List.flatMap_append, List.flatMap_cons, txEffect_undo,
    List.append_assoc]

private theorem exists_first_logged
    (found : first (blockEffect env db height isConnect txs).undo family key = some o) :
    ∃ pre tx post, txs = pre ++ tx :: post ∧
      first (blockEffect env db height isConnect pre).undo family key = none ∧
      (first (inputLog env db height isConnect tx) family key).or
        (first (outputLog env db height isConnect tx) family key) = some o := by
  rw [blockEffect, Effect.prod_undo] at found
  obtain ⟨pre, tx, post, split, before, here⟩ := exists_of_first_flatMap found
  rw [txEffect_undo, first_append] at here
  exact ⟨pre, tx, post, split, by rwa [blockEffect, Effect.prod_undo], here⟩

private theorem first_connect_log_iff (other : family ≠ .keyImages)
    (taken : get db family key = some value) :
    first (blockEffect env db height true txs).undo family key = some none ↔
      ∃ pre tx post, txs = pre ++ tx :: post ∧ key ∈ txKeys env true family tx ∧
        key ∉ (pre ++ [tx]).flatMap (spentKeys family) := by
  have spent (tx : Transaction) (o : Option Bytes) :
      (family, key, o) ∈ inputLog env db height true tx ↔
        key ∈ spentKeys family tx ∧ o = some value := mem_inputLog env height true other taken
  have created (tx : Transaction) (o : Option Bytes) :
      (family, key, o) ∈ outputLog env db height true tx ↔
        key ∈ txKeys env true family tx ∧ o = none := mem_outputLog env height true taken
  constructor
  · intro found
    obtain ⟨pre, tx, post, rfl, before, here⟩ := exists_first_logged found
    rw [first_eq_none_iff] at before
    cases spending : first (inputLog env db height true tx) family key with
    | some content =>
        rw [spending, Option.some_or] at here
        obtain rfl := Option.some.inj here
        exact absurd ((spent tx none).mp (mem_of_first spending)).2 (by simp)
    | none =>
        rw [spending, Option.none_or] at here
        rw [first_eq_none_iff] at spending
        refine ⟨pre, tx, post, rfl, ((created tx none).mp (mem_of_first here)).1, ?_⟩
        intro already
        obtain ⟨earlier, member, spends⟩ := List.mem_flatMap.mp already
        have logged := (spent earlier (some value)).mpr ⟨spends, rfl⟩
        rcases List.mem_append.mp member with inside | inside
        · exact before _ ((mem_blockEffect_undo ..).mpr ⟨earlier, inside, Or.inl logged⟩)
        · obtain rfl := List.mem_singleton.mp inside
          exact spending _ logged
  · rintro ⟨pre, tx, post, rfl, creates, unspent⟩
    rw [blockEffect_undo_append, ← List.append_assoc, ← List.append_assoc]
    refine first_append_eq_absent
      (List.mem_append_right _ ((created tx none).mpr ⟨creates, rfl⟩)) ?_ _
    intro content member
    simp only [List.mem_append, mem_blockEffect_undo, spent, created, reduceCtorEq, and_false,
      or_false] at member
    refine unspent (List.mem_flatMap.mpr ?_)
    rcases member with ⟨earlier, inside, spends, -⟩ | ⟨spends, -⟩
    · exact ⟨earlier, List.mem_append_left _ inside, spends⟩
    · exact ⟨tx, List.mem_append_right _ List.mem_cons_self, spends⟩

private theorem first_disconnect_log_iff (other : family ≠ .keyImages)
    (taken : get db family key = some value) :
    first (blockEffect env db height false txs).undo family key = some none ↔
      ∃ pre tx post, txs = pre ++ tx :: post ∧ key ∈ spentKeys family tx ∧
        key ∉ blockKeys env false family pre := by
  have spent (tx : Transaction) (o : Option Bytes) :
      (family, key, o) ∈ inputLog env db height false tx ↔
        key ∈ spentKeys family tx ∧ o = none := mem_inputLog env height false other taken
  have created (tx : Transaction) (o : Option Bytes) :
      (family, key, o) ∈ outputLog env db height false tx ↔
        key ∈ txKeys env false family tx ∧ o = some value := mem_outputLog env height false taken
  constructor
  · intro found
    obtain ⟨pre, tx, post, rfl, before, here⟩ := exists_first_logged found
    rw [first_eq_none_iff] at before
    refine ⟨pre, tx, post, rfl, ?_, ?_⟩
    · rw [← first_append] at here
      rcases List.mem_append.mp (mem_of_first here) with spending | creating
      · exact ((spent tx none).mp spending).1
      · exact absurd ((created tx none).mp creating).2 (by simp)
    · intro already
      obtain ⟨earlier, inside, creates⟩ := List.mem_flatMap.mp already
      exact before (some value) ((mem_blockEffect_undo ..).mpr
        ⟨earlier, inside, Or.inr ((created earlier _).mpr ⟨creates, rfl⟩)⟩)
  · rintro ⟨pre, tx, post, rfl, spends, foreign⟩
    rw [blockEffect_undo_append, ← List.append_assoc]
    refine first_append_eq_absent
      (List.mem_append_right _ ((spent tx none).mpr ⟨spends, rfl⟩)) ?_ _
    intro content member
    simp only [List.mem_append, mem_blockEffect_undo, spent, created, reduceCtorEq, and_false,
      false_or, or_false] at member
    obtain ⟨earlier, inside, creates, -⟩ := member
    exact foreign (List.mem_flatMap.mpr ⟨earlier, inside, creates⟩)

private theorem keyImage_absent (handled : ∀ tx ∈ txs, TxOk env db isConnect tx)
    (member : (.keyImages, key, none) ∈ (blockEffect env db height isConnect txs).undo) :
    get db .keyImages key = none := by
  obtain ⟨tx, inside, logged⟩ := (mem_blockEffect_undo ..).mp member
  cases coinbase : isCoinbase tx with
  | true => cases isConnect <;> simp [inputLog, outputLog, coinbase, coinbaseEffect] at logged
  | false =>
      simp only [inputLog, outputLog, coinbase, Bool.false_eq_true, if_false, Effect.prod_undo,
        List.mem_flatMap] at logged
      rcases logged with ⟨vin, input, logged⟩ | ⟨entry, -, logged⟩
      · have admitted := handled tx inside coinbase vin input
        cases anonymous : tx.isAnonymous <;> cases isConnect <;>
          simp [inputEffect, coinEffect, keyImageEffect, coinFamily, anonymous] at logged
        rw [logged]
        exact (admitted.2 anonymous).2.2 rfl
      · cases anonymous : tx.isAnonymous <;> cases isConnect <;>
          simp [outputEffect, newCoinEffect, addrEffect, coinFamily, anonymous] at logged

end Order

def Unharmed (db : Db) (ops : List (Family × Bytes × Option Bytes)) : Prop :=
  ∀ family ∈ coinStores, write db (rollbackBatch ops) family = db family

section Conditions

variable (env : Env)

/-- Whatever the block creates under a key that is taken, an input of the same or an earlier
transaction has spent. -/
def CreatesOverSpent (db : Db) (txs : List Transaction) : Prop :=
  ∀ family pre tx post, txs = pre ++ tx :: post → ∀ key ∈ txKeys env true family tx,
    get db family key ≠ none → key ∈ (pre ++ [tx]).flatMap (spentKeys family)

/-- Every coin that the block spends is an output of an earlier transaction of it. -/
def SpendsOwnOutputs (txs : List Transaction) : Prop :=
  ∀ family pre tx post, txs = pre ++ tx :: post → ∀ key ∈ spentKeys family tx,
    key ∈ blockKeys env false family pre

variable {env} in
private theorem createsOverSpent_of_untaken {db : Db} {txs : List Transaction}
    (untaken : ∀ family, ∀ key ∈ blockKeys env true family txs, get db family key = none) :
    CreatesOverSpent env db txs := by
  rintro family pre tx post rfl key creates taken
  exact absurd (untaken family key (List.mem_flatMap.mpr ⟨tx, by simp, creates⟩)) taken

end Conditions

section Harm

variable {env : Env} {db : Db} {setHash : Hash} {supply : UInt64} {block : Block} {height : Nat}
  {batch : DbBatch} {acc : UtxoAcc} {isConnect : Bool}

private theorem unharmed_iff
    (applied : applyUtxoChanges env db setHash supply block height isConnect batch = .ok acc) :
    Unharmed db acc.rollbackOps ↔ ∀ family key value, family ≠ .keyImages →
      get db family key = some value →
        first (blockEffect env db height isConnect block.txs).undo family key ≠ some none := by
  -- What a log says that an entry contained is what it contains, so only those logged as absent can
  -- do harm.
  obtain ⟨handled, -, -, log, -⟩ := (applyUtxoChanges_eq_ok ..).mp applied
  simp only [Unharmed, rollbackBatch_eq, write_undo_eq_self_iff]
  constructor
  · intro same family key value other taken absent
    rw [← log] at absent
    have store := (logged_of_applied applied _ (mem_of_first absent)).family
    exact absurd (taken.symm.trans (same family store key none absent)) (by simp)
  · intro kept family _ key o found
    have logged := logged_of_applied applied _ (mem_of_first found)
    cases o with
    | some value => exact logged.stored value rfl
    | none =>
        by_cases image : family = .keyImages
        · subst image
          rw [log] at found
          exact keyImage_absent handled (mem_of_first found)
        · cases taken : get db family key with
          | none => exact taken
          | some value => exact absurd (log ▸ found) (kept family key value image taken)

private theorem unharmed_connect_iff
    (applied : applyUtxoChanges env db setHash supply block height true batch = .ok acc) :
    Unharmed db acc.rollbackOps ↔ CreatesOverSpent env db block.txs := by
  rw [unharmed_iff applied]
  constructor
  · intro kept family pre tx post split key creates taken
    obtain ⟨value, found⟩ := Option.ne_none_iff_exists'.mp taken
    have other : family ≠ .keyImages := by
      rintro rfl
      exact absurd creates (by simp [txKeys_keyImages])
    by_contra unspent
    exact kept family key value other found
      ((first_connect_log_iff other found).mpr ⟨pre, tx, post, split, creates, unspent⟩)
  · intro created family key value other taken absent
    obtain ⟨pre, tx, post, split, creates, unspent⟩ := (first_connect_log_iff other taken).mp absent
    exact unspent (created family pre tx post split key creates (by simp [taken]))

private theorem unharmed_disconnect_iff
    (applied : applyUtxoChanges env db setHash supply block height false batch = .ok acc) :
    Unharmed db acc.rollbackOps ↔ SpendsOwnOutputs env block.txs := by
  obtain ⟨handled, -⟩ := (applyUtxoChanges_eq_ok ..).mp applied
  rw [unharmed_iff applied]
  constructor
  · intro kept family pre tx post split key spends
    obtain ⟨other, value, taken⟩ := stored_of_spent (handled tx (by simp [split])) spends
    by_contra foreign
    exact kept family key value other taken
      ((first_disconnect_log_iff other taken).mpr ⟨pre, tx, post, split, spends, foreign⟩)
  · intro own family key value other taken absent
    obtain ⟨pre, tx, post, split, spends, foreign⟩ :=
      (first_disconnect_log_iff other taken).mp absent
    exact foreign (own family pre tx post split key spends)

end Harm

/-- Rolling back an action of which nothing was written does no harm exactly if, for a connect, the
block creates nothing under a taken key that it has not spent first and, for a disconnect, it spends
only outputs of its own earlier transactions. -/
theorem rollback_harmless_iff (env : Env) (db : Db) (setHash : Hash) (supply : UInt64)
    (block : Block) (height : Nat) (action : BlockAction) (batch : DbBatch) (acc : UtxoAcc)
    (applied : applyUtxoChanges env db setHash supply block height (action = .connect) batch =
      .ok acc) :
    Unharmed db acc.rollbackOps ↔
      match action with
      | .connect => CreatesOverSpent env db block.txs
      | .disconnect => SpendsOwnOutputs env block.txs := by
  cases action with
  | connect => exact unharmed_connect_iff applied
  | disconnect => exact unharmed_disconnect_iff applied

def sampleRecordedDb : Db :=
  write emptyDb [putCf .coinbase (txHash sampleEnv (genesisCoinbase sampleEnv [7])).toList []]

/-- Disconnecting a block whose input is unspent loses the coin, and connecting a block whose
coinbase is on record loses the record. -/
theorem rollback_loses_entries :
    (∃ acc, applyUtxoChanges sampleEnv sampleCoinDb zeroHash 20000 (sampleBlock [sampleSpend []])
        0 false [] = .ok acc ∧ ¬ Unharmed sampleCoinDb acc.rollbackOps) ∧
      ∃ acc, applyUtxoChanges sampleEnv sampleRecordedDb zeroHash 0 (sampleBlock []) 1 true [] =
        .ok acc ∧ ¬ Unharmed sampleRecordedDb acc.rollbackOps := by
  constructor
  · obtain ⟨acc, disconnected⟩ : ∃ acc, applyUtxoChanges sampleEnv sampleCoinDb zeroHash 20000
        (sampleBlock [sampleSpend []]) 0 false [] = .ok acc := exists_of_isOk (by decide +kernel)
    refine ⟨acc, disconnected, ?_⟩
    intro unharmed
    have own := (unharmed_disconnect_iff disconnected).mp unharmed .utxo
      [genesisCoinbase sampleEnv [7]] (sampleSpend []) [] rfl (coinKey false zeroHash 0)
      (by decide +kernel)
    exact absurd own (by decide +kernel)
  · obtain ⟨acc, connected⟩ : ∃ acc, applyUtxoChanges sampleEnv sampleRecordedDb zeroHash 0
        (sampleBlock []) 1 true [] = .ok acc := exists_of_isOk (by decide +kernel)
    refine ⟨acc, connected, ?_⟩
    intro unharmed
    have spent := (unharmed_connect_iff connected).mp unharmed .coinbase []
      (genesisCoinbase sampleEnv [7]) [] rfl
      (txHash sampleEnv (genesisCoinbase sampleEnv [7])).toList (by decide +kernel)
      (by decide +kernel)
    exact absurd spent (by decide +kernel)

theorem spend_rolled_back :
    ∃ acc, applyUtxoChanges sampleEnv sampleCoinDb zeroHash 20000 (sampleBlock [sampleSpend []]) 0
        true [] = .ok acc ∧ Unharmed sampleCoinDb acc.rollbackOps := by
  obtain ⟨acc, connected⟩ : ∃ acc, applyUtxoChanges sampleEnv sampleCoinDb zeroHash 20000
      (sampleBlock [sampleSpend []]) 0 true [] = .ok acc := exists_of_isOk (by decide +kernel)
  refine ⟨acc, connected, ?_⟩
  refine (rollback_harmless_iff sampleEnv sampleCoinDb zeroHash 20000 (sampleBlock [sampleSpend []])
    0 .connect [] acc connected).mpr (createsOverSpent_of_untaken fun family => ?_)
  cases family <;> decide +kernel

end Lyrion.Node
