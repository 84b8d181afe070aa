/- GID: Lyrion/Node/Undo
   digest: Exactly which blocks a disconnect takes back after a connect. -/

import Lyrion.Node.Conservation

set_option autoImplicit false
set_option relaxedAutoImplicit false

namespace Lyrion.Node

open Library.ByteCodec Library.KeyValue Data Utils Tx

variable {tx : Transaction} {txs : List Transaction} {family : Family} {w : Write Bytes Bytes}
  {isAnonymous : Bool} {vin : TXInput}

section Creations

variable (env : Env) (isConnect : Bool)

def outputElements (tx : Transaction) : List Hash :=
  if isCoinbase tx then []
  else (numberedOutputs isConnect tx).map fun p =>
    hashUtxoEntry env (txHash env tx) (UInt32.ofNat p.2) p.1

/-- The keys an output touches in one family under the number it was given. -/
def outputKeys (family : Family) (tx : Transaction) (entry : TXOutput × Nat) : List Bytes :=
  let vout := UInt32.ofNat entry.2
  if family = coinFamily tx.isAnonymous then [coinKey tx.isAnonymous (txHash env tx) vout]
  else if family = .addrIndex ∧ tx.isAnonymous = false then
    [addrKey (env.hash160 entry.1.scriptPubkey) (txHash env tx) vout]
  else []

def txKeys (family : Family) (tx : Transaction) : List Bytes :=
  if isCoinbase tx then if family = .coinbase then [(txHash env tx).toList] else []
  else (numberedOutputs isConnect tx).flatMap (outputKeys env family tx)

def blockKeys (family : Family) (txs : List Transaction) : List Bytes :=
  txs.flatMap (txKeys env isConnect family)

end Creations

theorem coinFamily_ne_keyImages (isAnonymous : Bool) :
    coinFamily isAnonymous ≠ .keyImages := by
  cases isAnonymous <;> decide

def NoInputs (txs : List Transaction) : Prop := ∀ tx ∈ txs, isCoinbase tx = false → tx.inputs = []

section Effects

variable {env : Env} {snapshot : Db} {height : Nat} {isConnect : Bool}

private theorem txEffect_of_no_inputs (empty : isCoinbase tx = false → tx.inputs = []) :
    txEffect env snapshot height isConnect tx =
      if isCoinbase tx then coinbaseEffect env snapshot height isConnect tx
      else ((numberedOutputs isConnect tx).map (outputEffect env snapshot isConnect tx)).prod := by
  cases coinbase : isCoinbase tx with
  | true => simp [txEffect, coinbase]
  | false => simp [txEffect, coinbase, empty coinbase]

private theorem txEffect_element (empty : isCoinbase tx = false → tx.inputs = []) :
    (txEffect env snapshot height isConnect tx).element =
      xorAll (outputElements env isConnect tx) := by
  rw [txEffect_of_no_inputs empty]
  cases coinbase : isCoinbase tx with
  | true => cases isConnect <;> simp [outputElements, coinbase, coinbaseEffect, xorAll]
  | false =>
      simp only [Bool.false_eq_true, if_false, Effect.prod_element, outputElements, coinbase]
      congr 1
      apply List.map_congr_left
      intro p _
      cases isConnect <;> cases anonymous : tx.isAnonymous <;>
        simp [outputEffect, newCoinEffect, addrEffect, anonymous]

theorem blockEffect_element (empty : NoInputs txs) :
    (blockEffect env snapshot height isConnect txs).element =
      xorAll (txs.flatMap (outputElements env isConnect)) := by
  induction txs with
  | nil => rfl
  | cons tx txs ih =>
      obtain ⟨here, later⟩ := List.forall_mem_cons.mp empty
      have tail := ih later
      simp only [blockEffect] at tail ⊢
      rw [List.map_cons, List.prod_cons, Effect.mul_element, tail, txEffect_element here,
        List.flatMap_cons, xorAll_append]

private theorem outputEffect_writes (tx : Transaction) (entry : TXOutput × Nat) (family : Family) :
    (writesTo family (outputEffect env snapshot isConnect tx entry).writes).map Write.key =
        outputKeys env family tx entry ∧
      ∀ w ∈ writesTo family (outputEffect env snapshot isConnect tx entry).writes,
        (w.left = none ↔ isConnect = false) := by
  cases isConnect <;> cases anonymous : tx.isAnonymous <;> cases family <;>
    simp [outputEffect, newCoinEffect, addrEffect, anonymous, outputKeys, coinFamily, putCf,
      deleteCf, Write.key, Write.left]

private theorem inputEffect_deletes (other : family ≠ .keyImages)
    (member : w ∈ writesTo family (inputEffect env snapshot height true isAnonymous vin).writes) :
    w.left = none := by
  rw [mem_writesTo] at member
  cases isAnonymous with
  | false =>
      simp only [inputEffect, coinEffect, Bool.false_eq_true, if_false, if_true, deleteCf,
        List.mem_singleton, Prod.mk.injEq] at member
      rw [member.2]
      rfl
  | true =>
      simp only [inputEffect, coinEffect, keyImageEffect, if_true, putCf, deleteCf,
        Effect.mul_writes, List.mem_append, List.mem_singleton, Prod.mk.injEq, other, false_and,
        false_or] at member
      rw [member.2]
      rfl

private theorem txEffect_writes (empty : isCoinbase tx = false → tx.inputs = []) (family : Family) :
    (writesTo family (txEffect env snapshot height isConnect tx).writes).map Write.key =
        txKeys env isConnect family tx ∧
      ∀ w ∈ writesTo family (txEffect env snapshot height isConnect tx).writes,
        (w.left = none ↔ isConnect = false) := by
  rw [txEffect_of_no_inputs empty]
  cases coinbase : isCoinbase tx with
  | true =>
      cases isConnect <;> cases family <;>
        simp [coinbaseEffect, txKeys, coinbase, putCf, deleteCf, Write.key, Write.left]
  | false =>
      have each (entry : TXOutput × Nat) :
          (writesTo family (outputEffect env snapshot isConnect tx entry).writes).map Write.key =
              _ ∧ _ := outputEffect_writes tx entry family
      simp only [Bool.false_eq_true, if_false, Effect.prod_writes, writesTo_flatMap,
        List.map_flatMap, txKeys, coinbase, each, List.mem_flatMap, true_and]
      rintro w ⟨entry, -, inside⟩
      exact (each entry).2 w inside

variable (env snapshot height isConnect) in
theorem blockEffect_writes (empty : NoInputs txs) (family : Family) :
    (writesTo family (blockEffect env snapshot height isConnect txs).writes).map Write.key =
        blockKeys env isConnect family txs ∧
      ∀ w ∈ writesTo family (blockEffect env snapshot height isConnect txs).writes,
        (w.left = none ↔ isConnect = false) := by
  simp only [blockEffect, Effect.prod_writes, writesTo_flatMap, List.map_flatMap, blockKeys,
    List.mem_flatMap]
  refine ⟨?_, ?_⟩
  · apply List.flatMap_congr
    intro tx member
    exact (txEffect_writes (empty tx member) family).1
  · rintro w ⟨tx, member, inside⟩
    exact (txEffect_writes (empty tx member) family).2 w inside

theorem mem_writesTo_txEffect (ordinary : isCoinbase tx = false) :
    w ∈ writesTo family (txEffect env snapshot height isConnect tx).writes ↔
      (∃ vin ∈ tx.inputs, w ∈ writesTo family
        (inputEffect env snapshot height isConnect tx.isAnonymous vin).writes) ∨
      ∃ entry ∈ numberedOutputs isConnect tx,
        w ∈ writesTo family (outputEffect env snapshot isConnect tx entry).writes := by
  simp only [txEffect, ordinary, Bool.false_eq_true, if_false, Effect.mul_writes,
    Effect.prod_writes, writesTo_append, writesTo_flatMap, List.mem_append, List.mem_flatMap]

theorem put_mem_blockKeys (other : family ≠ .keyImages)
    (member : w ∈ writesTo family (blockEffect env snapshot height true txs).writes)
    (stored : w.left ≠ none) : w.key ∈ blockKeys env true family txs := by
  simp only [blockEffect, Effect.prod_writes, writesTo_flatMap, List.mem_flatMap] at member
  obtain ⟨tx, inside, member⟩ := member
  refine List.mem_flatMap.mpr ⟨tx, inside, ?_⟩
  cases coinbase : isCoinbase tx with
  | true =>
      have touched : (writesTo family (txEffect env snapshot height true tx).writes).map Write.key =
          txKeys env true family tx := by
        refine (txEffect_writes ?_ family).1
        intro ordinary
        exact absurd (coinbase.symm.trans ordinary) (by simp)
      rw [← touched]
      exact List.mem_map_of_mem member
  | false =>
      rcases (mem_writesTo_txEffect coinbase).mp member with
        ⟨vin, -, member⟩ | ⟨entry, numbered, member⟩
      · exact absurd (inputEffect_deletes other member) stored
      · simp only [txKeys, coinbase, Bool.false_eq_true, if_false, List.mem_flatMap]
        refine ⟨entry, numbered, ?_⟩
        rw [← (outputEffect_writes tx entry family).1]
        exact List.mem_map_of_mem member

theorem spent_coin_deleted (member : tx ∈ txs) (ordinary : isCoinbase tx = false)
    (input : vin ∈ tx.inputs) :
    Write.delete (coinKey tx.isAnonymous vin.txid vin.vout) ∈
      writesTo (coinFamily tx.isAnonymous) (blockEffect env snapshot height true txs).writes := by
  simp only [blockEffect, Effect.prod_writes, writesTo_flatMap, List.mem_flatMap]
  refine ⟨tx, member, (mem_writesTo_txEffect ordinary).mpr (Or.inl ⟨vin, input, ?_⟩)⟩
  rw [mem_writesTo]
  cases anonymous : tx.isAnonymous <;> simp [inputEffect, coinEffect, keyImageEffect, deleteCf]

theorem created_coin_put {k : Bytes}
    (created : k ∈ blockKeys env true (coinFamily isAnonymous) txs) :
    ∃ w ∈ writesTo (coinFamily isAnonymous) (blockEffect env snapshot height true txs).writes,
      w.key = k := by
  obtain ⟨tx, member, made⟩ := List.mem_flatMap.mp created
  cases coinbase : isCoinbase tx with
  | true => cases isAnonymous <;> simp [txKeys, coinbase, coinFamily] at made
  | false =>
      simp only [txKeys, coinbase, Bool.false_eq_true, if_false, List.mem_flatMap] at made
      obtain ⟨entry, numbered, made⟩ := made
      rw [← (outputEffect_writes tx entry _).1] at made
      obtain ⟨w, written, hits⟩ := List.mem_map.mp made
      refine ⟨w, ?_, hits⟩
      simp only [blockEffect, Effect.prod_writes, writesTo_flatMap, List.mem_flatMap]
      exact ⟨tx, member, (mem_writesTo_txEffect coinbase).mpr (Or.inr ⟨entry, numbered, written⟩)⟩

theorem deleted_coin_spent {txs : List Transaction} {isAnonymous : Bool} {w : Write Bytes Bytes}
    (member : w ∈ writesTo (coinFamily isAnonymous)
      (blockEffect env snapshot height true txs).writes)
    (deleted : w.left = none) :
    ∃ tx ∈ txs, isCoinbase tx = false ∧ tx.isAnonymous = isAnonymous ∧
      ∃ vin ∈ tx.inputs, coinKey isAnonymous vin.txid vin.vout = w.key := by
  simp only [blockEffect, Effect.prod_writes, writesTo_flatMap, List.mem_flatMap] at member
  obtain ⟨tx, inside, member⟩ := member
  cases coinbase : isCoinbase tx with
  | true =>
      rw [mem_writesTo] at member
      cases isAnonymous <;>
        simp [txEffect, coinbase, coinbaseEffect, coinFamily, putCf] at member
  | false =>
      rcases (mem_writesTo_txEffect coinbase).mp member with
        ⟨vin, input, member⟩ | ⟨entry, -, member⟩
      · refine ⟨tx, inside, coinbase, ?_⟩
        rw [mem_writesTo] at member
        cases isAnonymous <;> cases anonymous : tx.isAnonymous <;>
          simp [inputEffect, coinEffect, keyImageEffect, coinFamily, anonymous, putCf,
            deleteCf] at member
        all_goals
          subst member
          exact ⟨rfl, vin, input, rfl⟩
      · have put := (outputEffect_writes tx entry _).2 w member
        exact absurd (put.mp deleted) (by simp)

private theorem mem_blockKeys_reverse (env : Env) (other : family ≠ .addrIndex)
    (txs : List Transaction) (k : Bytes) :
    k ∈ blockKeys env true family txs ↔ k ∈ blockKeys env false family txs := by
  -- A coin key holds the number of an output and not the output.
  simp only [blockKeys, List.mem_flatMap]
  refine exists_congr fun tx => and_congr_right fun _ => ?_
  have numbers (out out' : TXOutput) (i : Nat) :
      outputKeys env family tx (out, i) = outputKeys env family tx (out', i) := by
    simp [outputKeys, other]
  simp only [txKeys, numberedOutputs, if_true, Bool.false_eq_true, if_false]
  cases isCoinbase tx with
  | true => rfl
  | false =>
      simp only [Bool.false_eq_true, if_false, List.mem_flatMap, Prod.exists,
        List.mem_zipIdx_iff_getElem?]
      constructor
      · rintro ⟨out, i, found, inside⟩
        have bound : i < tx.outputs.reverse.length := by
          simpa using (List.getElem?_eq_some_iff.mp found).1
        exact ⟨_, i, List.getElem?_eq_getElem bound, numbers out _ i ▸ inside⟩
      · rintro ⟨out, i, found, inside⟩
        have bound : i < tx.outputs.length := by
          simpa using (List.getElem?_eq_some_iff.mp found).1
        exact ⟨_, i, List.getElem?_eq_getElem bound, numbers out _ i ▸ inside⟩

/-- The values of the outputs in the order in which one direction meets them. -/
private def outputValues (isConnect : Bool) (tx : Transaction) : List UInt64 :=
  if isCoinbase tx then [] else (numberedOutputs isConnect tx).map fun p => p.1.value

private def valueOp (isConnect : Bool) (value : UInt64) : SupplyOp :=
  if isConnect then .add value else .sub value

private theorem txEffect_supplyOps (empty : isCoinbase tx = false → tx.inputs = []) :
    (txEffect env snapshot height isConnect tx).supplyOps =
      (outputValues isConnect tx).map (valueOp isConnect) := by
  rw [txEffect_of_no_inputs empty]
  cases coinbase : isCoinbase tx with
  | true => cases isConnect <;> simp [outputValues, coinbase, coinbaseEffect]
  | false =>
      have each (p : TXOutput × Nat) : (outputEffect env snapshot isConnect tx p).supplyOps =
          [valueOp isConnect p.1.value] := by
        cases isConnect <;> cases anonymous : tx.isAnonymous <;>
          simp [outputEffect, newCoinEffect, addrEffect, anonymous, valueOp]
      simp only [Bool.false_eq_true, if_false, Effect.prod_supplyOps, each, outputValues, coinbase,
        List.map_map, ← List.map_eq_flatMap]
      rfl

private theorem blockEffect_supplyOps (empty : NoInputs txs) :
    (blockEffect env snapshot height isConnect txs).supplyOps =
      (txs.flatMap (outputValues isConnect)).map (valueOp isConnect) := by
  rw [blockEffect, Effect.prod_supplyOps, List.map_flatMap]
  apply List.flatMap_congr
  intro tx member
  exact txEffect_supplyOps (empty tx member)

private theorem sum_outputValues_reverse (txs : List Transaction) :
    ((txs.flatMap (outputValues true)).map UInt64.toNat).sum =
      ((txs.flatMap (outputValues false)).map UInt64.toNat).sum := by
  induction txs with
  | nil => rfl
  | cons tx txs ih =>
      have values (outs : List TXOutput) :
          (outs.zipIdx.map fun p => p.1.value) = outs.map TXOutput.value := by
        have both := List.map_map (l := outs.zipIdx) (f := Prod.fst) (g := TXOutput.value)
        rw [List.zipIdx_map_fst] at both
        exact both.symm
      have here : ((outputValues true tx).map UInt64.toNat).sum =
          ((outputValues false tx).map UInt64.toNat).sum := by
        simp only [outputValues, numberedOutputs, if_true, Bool.false_eq_true, if_false, values]
        cases isCoinbase tx with
        | true => rfl
        | false => simp [List.sum_reverse]
      simp only [List.flatMap_cons, List.map_append, List.sum_append, ih, here]

private theorem added_map_valueOp (values : List UInt64) :
    added (values.map (valueOp true)) = (values.map UInt64.toNat).sum ∧
      removed (values.map (valueOp true)) = 0 := by
  induction values with
  | nil => exact ⟨rfl, rfl⟩
  | cons v values ih => simp [valueOp, added, removed, ih]

private theorem runSupply_removals (values : List UInt64) (supply : UInt64)
    (enough : (values.map UInt64.toNat).sum ≤ supply.toNat) :
    ∃ result, runSupply supply (values.map (valueOp false)) = some result ∧
      result.toNat + (values.map UInt64.toNat).sum = supply.toNat := by
  induction values generalizing supply with
  | nil => exact ⟨supply, rfl, rfl⟩
  | cons v values ih =>
      rw [List.map_cons, List.sum_cons] at enough
      have first : checkedSub supply v = some (supply - v) := by
        rw [checkedSub, if_pos (by omega)]
      have step := checkedSub_eq_some.mp first
      obtain ⟨result, ran, balance⟩ := ih (supply - v) (by omega)
      refine ⟨result, ?_, ?_⟩
      · simpa [runSupply, valueOp, SupplyOp.run, first] using ran
      · rw [List.map_cons, List.sum_cons]
        omega

end Effects

def coinStores : List Family := [.utxo, .anonymous, .keyImages, .coinbase, .addrIndex]

def CreatesFresh (env : Env) (db : Db) (height : Nat) (block : Block) : Prop :=
  ∀ family ∈ coinStores, ∀ w ∈ writesTo family (blockEffect env db height true block.txs).writes,
    w.left ≠ none → (db family).lookup w.key = none

def Undone (env : Env) (db : Db) (setHash : Hash) (supply : UInt64) (block : Block) (height : Nat)
    (acc : UtxoAcc) : Prop :=
  ∃ back, applyUtxoChanges env (write db acc.batch) acc.setHash acc.supply block height false [] =
      .ok back ∧
    (∀ family ∈ coinStores, write (write db acc.batch) back.batch family = db family) ∧
    back.setHash = setHash ∧ back.supply = supply

/-- The block spends nothing, and numbering the outputs from the other end makes no difference
to the set hash and to the address entries. -/
def Reversible (env : Env) (db : Db) (block : Block) : Prop :=
  NoInputs block.txs ∧
    xorAll (block.txs.flatMap (outputElements env true)) =
      xorAll (block.txs.flatMap (outputElements env false)) ∧
    (∀ k ∈ blockKeys env true .addrIndex block.txs, k ∈ blockKeys env false .addrIndex block.txs) ∧
    ∀ k ∈ blockKeys env false .addrIndex block.txs, get db .addrIndex k = none

section Main

variable {env : Env} {db : Db} {setHash : Hash} {supply : UInt64} {block : Block} {height : Nat}
  {acc : UtxoAcc}

theorem writesTo_counterWrites (member : family ∈ coinStores) (h : Hash) (s : UInt64) :
    writesTo family (counterWrites h s) = [] := by
  simp only [coinStores, List.mem_cons, List.not_mem_nil, or_false] at member
  rcases member with rfl | rfl | rfl | rfl | rfl <;> simp [counterWrites, putCf]

private theorem spent_coin_missing
    (connected : applyUtxoChanges env db setHash supply block height true [] = .ok acc)
    (fresh : CreatesFresh env db height block) (member : tx ∈ block.txs)
    (ordinary : isCoinbase tx = false) (input : vin ∈ tx.inputs) :
    storedCoin (write db acc.batch) tx.isAnonymous vin = none := by
  obtain ⟨handled, -, -, -, batch⟩ := (applyUtxoChanges_eq_ok ..).mp connected
  have present := (handled tx member ordinary vin input).1
  have store : coinFamily tx.isAnonymous ∈ coinStores := by cases tx.isAnonymous <;> decide
  have gone : (write db acc.batch (coinFamily tx.isAnonymous)).lookup
      (coinKey tx.isAnonymous vin.txid vin.vout) = none := by
    rw [write, batch, List.nil_append, writesTo_append, writesTo_counterWrites store,
      List.append_nil]
    apply lookup_applyWrites_of_agree
    · intro w inside hits
      by_contra stored
      have absent := fresh _ store w inside stored
      rw [hits] at absent
      rw [storedCoin, Data.get, absent] at present
      exact absurd present (by simp)
    · exact ⟨_, spent_coin_deleted member ordinary input, rfl⟩
  rw [storedCoin, Data.get, gone]
  rfl

private theorem undone_imp_no_inputs
    (connected : applyUtxoChanges env db setHash supply block height true [] = .ok acc)
    (fresh : CreatesFresh env db height block)
    (undone : Undone env db setHash supply block height acc) : NoInputs block.txs := by
  obtain ⟨back, disconnected, -⟩ := undone
  obtain ⟨handled, -⟩ := (applyUtxoChanges_eq_ok ..).mp disconnected
  intro tx member ordinary
  rw [List.eq_nil_iff_forall_not_mem]
  intro vin input
  have found := (handled tx member ordinary vin input).1
  rw [spent_coin_missing connected fresh member ordinary input] at found
  exact absurd found (by simp)

private theorem disconnect_of_no_inputs
    (connected : applyUtxoChanges env db setHash supply block height true [] = .ok acc)
    (empty : NoInputs block.txs) :
    ∃ back, applyUtxoChanges env (write db acc.batch) acc.setHash acc.supply block height false [] =
        .ok back ∧ back.supply = supply ∧
      back.setHash =
        xorHash (xorHash setHash (xorAll (block.txs.flatMap (outputElements env true))))
          (xorAll (block.txs.flatMap (outputElements env false))) := by
  obtain ⟨-, ran, sets, -, -⟩ := (applyUtxoChanges_eq_ok ..).mp connected
  have balance := runSupply_balance ran
  rw [blockEffect_supplyOps empty, (added_map_valueOp _).1, (added_map_valueOp _).2,
    sum_outputValues_reverse] at balance
  obtain ⟨result, ranBack, balanceBack⟩ := runSupply_removals
    (block.txs.flatMap (outputValues false)) acc.supply (by omega)
  have restored : result = supply := UInt64.toNat_inj.mp (by omega)
  subst restored
  rw [blockEffect_element empty] at sets
  have elements : (blockEffect env (write db acc.batch) height false block.txs).element = _ :=
    blockEffect_element empty
  have handled (tx : Transaction) (member : tx ∈ block.txs) :
      TxOk env (write db acc.batch) false tx := by
    intro ordinary vin input
    rw [empty tx member ordinary] at input
    exact absurd input (by simp)
  rw [← blockEffect_supplyOps empty] at ranBack
  obtain ⟨back, disconnected, supplied, setsBack⟩ :=
    applyUtxoChanges_of_run env (write db acc.batch) height false handled ranBack
  exact ⟨back, disconnected, supplied, by rw [setsBack, elements, sets]⟩

private theorem store_restored_iff {back : UtxoAcc}
    (connected : applyUtxoChanges env db setHash supply block height true [] = .ok acc)
    (fresh : CreatesFresh env db height block) (empty : NoInputs block.txs)
    (disconnected : applyUtxoChanges env (write db acc.batch) acc.setHash acc.supply block height
      false [] = .ok back) {family : Family} (member : family ∈ coinStores) :
    write (write db acc.batch) back.batch family = db family ↔
      (∀ k ∈ blockKeys env true family block.txs, k ∈ blockKeys env false family block.txs) ∧
        ∀ k ∈ blockKeys env false family block.txs, (db family).lookup k = none := by
  obtain ⟨-, -, -, -, batch⟩ := (applyUtxoChanges_eq_ok ..).mp connected
  obtain ⟨-, -, -, -, batchBack⟩ := (applyUtxoChanges_eq_ok ..).mp disconnected
  obtain ⟨putKeys, puts⟩ := blockEffect_writes env db height true empty family
  obtain ⟨deleteKeys, deletes⟩ :=
    blockEffect_writes env (write db acc.batch) height false empty family
  have stored (w : Write Bytes Bytes) (inside : w ∈ writesTo family
      (blockEffect env db height true block.txs).writes) : w.left ≠ none := by
    simp [puts w inside]
  rw [write, write, batch, batchBack, List.nil_append, List.nil_append, writesTo_append,
    writesTo_append, writesTo_counterWrites member, writesTo_counterWrites member, List.append_nil,
    List.append_nil]
  rw [applyWrites_undo_iff (db family) _ _ stored
    (fun w inside => fresh family member w inside (stored w inside))
    (fun w inside => (deletes w inside).mpr rfl)]
  rw [← putKeys, ← deleteKeys]
  simp only [List.mem_map, forall_exists_index, and_imp, forall_apply_eq_imp_iff₂]

end Main

/-- The disconnect looks for spent coins where the connect has deleted them, and numbers the
outputs from the other end; it takes the connect back exactly where neither matters. -/
theorem disconnect_undoes_connect_iff (env : Env) (db : Db) (setHash : Hash) (supply : UInt64)
    (block : Block) (height : Nat) (acc : UtxoAcc)
    (connected : applyUtxoChanges env db setHash supply block height true [] = .ok acc)
    (_once : (blockSpends block).Nodup) (fresh : CreatesFresh env db height block) :
    Undone env db setHash supply block height acc ↔ Reversible env db block := by
  constructor
  · intro undone
    have empty := undone_imp_no_inputs connected fresh undone
    obtain ⟨back, disconnected, stores, sets, -⟩ := undone
    obtain ⟨back', again, -, sets'⟩ := disconnect_of_no_inputs connected empty
    obtain rfl := Except.ok.inj (disconnected.symm.trans again)
    refine ⟨empty, ?_, ?_⟩
    · exact xorHash_xorHash_eq_self_iff.mp (sets'.symm.trans sets)
    · exact (store_restored_iff connected fresh empty disconnected (by decide)).mp
        (stores .addrIndex (by decide))
  · rintro ⟨empty, sameElements, covered, absent⟩
    obtain ⟨back, disconnected, supplied, sets⟩ := disconnect_of_no_inputs connected empty
    refine ⟨back, disconnected, ?_, ?_, supplied⟩
    · intro family member
      rw [store_restored_iff connected fresh empty disconnected member]
      by_cases addresses : family = .addrIndex
      · subst addresses
        exact ⟨covered, absent⟩
      · refine ⟨fun k => (mem_blockKeys_reverse env addresses block.txs k).mp, ?_⟩
        intro k inside
        obtain ⟨putKeys, puts⟩ := blockEffect_writes env db height true empty family
        rw [← mem_blockKeys_reverse env addresses, ← putKeys] at inside
        obtain ⟨w, written, rfl⟩ := List.mem_map.mp inside
        refine fresh family member w written ?_
        simp [puts w written]
    · exact sets.trans (xorHash_xorHash_eq_self_iff.mpr sameElements)

/-- A block with one ordinary spend connects and cannot be disconnected again. -/
theorem spent_block_not_undone :
    (blockSpends (sampleBlock [sampleSpend []])).Nodup ∧
      CreatesFresh sampleEnv sampleCoinDb 0 (sampleBlock [sampleSpend []]) ∧
      ∃ acc, applyUtxoChanges sampleEnv sampleCoinDb zeroHash 20000 (sampleBlock [sampleSpend []])
          0 true [] = .ok acc ∧
        ¬ Undone sampleEnv sampleCoinDb zeroHash 20000 (sampleBlock [sampleSpend []]) 0 acc := by
  have fresh : CreatesFresh sampleEnv sampleCoinDb 0 (sampleBlock [sampleSpend []]) := by
    unfold CreatesFresh
    decide +kernel
  obtain ⟨acc, connected⟩ : ∃ acc, applyUtxoChanges sampleEnv sampleCoinDb zeroHash 20000
      (sampleBlock [sampleSpend []]) 0 true [] = .ok acc := exists_of_isOk (by decide +kernel)
  refine ⟨by decide +kernel, fresh, acc, connected, ?_⟩
  intro undone
  have empty := undone_imp_no_inputs connected fresh undone (sampleSpend [])
    (List.mem_cons_of_mem _ List.mem_cons_self) (by decide)
  exact absurd empty (by decide)

def sampleGift : Transaction := { sampleSpend [] with inputs := [] }

theorem coinbase_block_undone :
    ∃ acc, applyUtxoChanges sampleEnv sampleCoinDb zeroHash 20000 (sampleBlock [sampleGift]) 3 true
        [] = .ok acc ∧
      Undone sampleEnv sampleCoinDb zeroHash 20000 (sampleBlock [sampleGift]) 3 acc := by
  have fresh : CreatesFresh sampleEnv sampleCoinDb 3 (sampleBlock [sampleGift]) := by
    unfold CreatesFresh
    decide +kernel
  obtain ⟨acc, connected⟩ : ∃ acc, applyUtxoChanges sampleEnv sampleCoinDb zeroHash 20000
      (sampleBlock [sampleGift]) 3 true [] = .ok acc := exists_of_isOk (by decide +kernel)
  refine ⟨acc, connected, ?_⟩
  apply (disconnect_undoes_connect_iff sampleEnv sampleCoinDb zeroHash 20000
    (sampleBlock [sampleGift]) 3 acc connected (by decide +kernel) fresh).mpr
  refine ⟨?_, by decide +kernel, by decide +kernel, by decide +kernel⟩
  unfold NoInputs
  decide +kernel

end Lyrion.Node
