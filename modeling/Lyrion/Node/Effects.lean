/- GID: Lyrion/Node/Effects
   digest: What connecting or disconnecting a block does, as one composed effect. -/

import Lyrion.Library.EffectLoop
import Lyrion.Node.Utxo
import Lyrion.Tx.Acceptance

set_option autoImplicit false
set_option relaxedAutoImplicit false

namespace Lyrion.Node

open Library.ByteCodec Library.KeyValue Library.EffectLoop Data Utils Tx

inductive SupplyOp
  | add (value : UInt64)
  | sub (value : UInt64)

def SupplyOp.run (supply : UInt64) : SupplyOp → Option UInt64
  | .add v => checkedAdd supply v
  | .sub v => checkedSub supply v

def runSupply (supply : UInt64) (ops : List SupplyOp) : Option UInt64 :=
  ops.foldlM SupplyOp.run supply

def added : List SupplyOp → Nat
  | [] => 0
  | .add v :: ops => v.toNat + added ops
  | .sub _ :: ops => added ops

def removed : List SupplyOp → Nat
  | [] => 0
  | .add _ :: ops => removed ops
  | .sub v :: ops => v.toNat + removed ops

private theorem runSupply_append (supply : UInt64) (ops more : List SupplyOp) :
    runSupply supply (ops ++ more) = (runSupply supply ops).bind fun s => runSupply s more := by
  simp [runSupply, List.foldlM_append]

theorem runSupply_balance {supply result : UInt64} {ops : List SupplyOp}
    (ran : runSupply supply ops = some result) :
    result.toNat + removed ops = supply.toNat + added ops := by
  induction ops generalizing supply with
  | nil =>
      obtain rfl := Option.some.inj ran
      rfl
  | cons op ops ih =>
      obtain ⟨mid, first, rest⟩ := Option.bind_eq_some_iff.mp ran
      have tail := ih rest
      cases op with
      | add v =>
          have step := checkedAdd_eq_some.mp first
          simp only [added, removed]
          omega
      | sub v =>
          have step := checkedSub_eq_some.mp first
          simp only [added, removed]
          omega

/-- What handling some part of a block adds to the accumulator. -/
@[ext] structure Effect where
  writes : DbBatch
  undo : List (Family × Bytes × Option Bytes)
  element : Hash
  supplyOps : List SupplyOp

namespace Effect

instance : One Effect := ⟨⟨[], [], zeroHash, []⟩⟩

instance : Mul Effect := ⟨fun e f =>
  ⟨e.writes ++ f.writes, e.undo ++ f.undo, xorHash e.element f.element, e.supplyOps ++ f.supplyOps⟩⟩

@[simp] theorem one_writes : (1 : Effect).writes = [] := rfl
@[simp] theorem one_undo : (1 : Effect).undo = [] := rfl
@[simp] theorem one_element : (1 : Effect).element = zeroHash := rfl
@[simp] theorem one_supplyOps : (1 : Effect).supplyOps = [] := rfl
@[simp] theorem mul_writes (e f : Effect) : (e * f).writes = e.writes ++ f.writes := rfl
@[simp] theorem mul_undo (e f : Effect) : (e * f).undo = e.undo ++ f.undo := rfl
@[simp] theorem mul_element (e f : Effect) : (e * f).element = xorHash e.element f.element := rfl
@[simp] theorem mul_supplyOps (e f : Effect) : (e * f).supplyOps = e.supplyOps ++ f.supplyOps := rfl

instance : Monoid Effect where
  mul_assoc a b c := Effect.ext (List.append_assoc ..) (List.append_assoc ..) (xorHash_assoc ..)
    (List.append_assoc ..)
  one_mul a := Effect.ext rfl rfl ((xorHash_comm ..).trans (xorHash_zero _)) rfl
  mul_one a := Effect.ext (List.append_nil _) (List.append_nil _) (xorHash_zero _)
    (List.append_nil _)

variable {ι : Type}

theorem prod_writes (effect : ι → Effect) (items : List ι) :
    (items.map effect).prod.writes = items.flatMap fun i => (effect i).writes := by
  induction items with
  | nil => rfl
  | cons i items ih => simp [ih]

theorem prod_undo (effect : ι → Effect) (items : List ι) :
    (items.map effect).prod.undo = items.flatMap fun i => (effect i).undo := by
  induction items with
  | nil => rfl
  | cons i items ih => simp [ih]

theorem prod_element (effect : ι → Effect) (items : List ι) :
    (items.map effect).prod.element = xorAll (items.map fun i => (effect i).element) := by
  induction items with
  | nil => rfl
  | cons i items ih => simp [ih, xorAll]

theorem prod_supplyOps (effect : ι → Effect) (items : List ι) :
    (items.map effect).prod.supplyOps = items.flatMap fun i => (effect i).supplyOps := by
  induction items with
  | nil => rfl
  | cons i items ih => simp [ih]

end Effect

def UtxoAcc.take (acc : UtxoAcc) (e : Effect) : Option UtxoAcc :=
  (runSupply acc.supply e.supplyOps).map fun supply =>
    ⟨acc.batch ++ e.writes, acc.rollbackOps ++ e.undo, xorHash acc.setHash e.element, supply⟩

def takeAction : PartialAction UtxoAcc Effect where
  act := UtxoAcc.take
  act_one acc := by
    simp [UtxoAcc.take, runSupply]
  act_mul acc e f := by
    cases ran : runSupply acc.supply e.supplyOps with
    | none => simp [UtxoAcc.take, runSupply_append, ran]
    | some supply => simp [UtxoAcc.take, runSupply_append, ran, xorHash_assoc]

section Parts

variable (env : Env) (snapshot : Db) (height : Nat) (isConnect : Bool)

def coinbaseEffect (tx : Transaction) : Effect :=
  let key := (txHash env tx).toList
  if isConnect then
    ⟨[putCf .coinbase key (beBytes 8 height)], [(.coinbase, key, none)], zeroHash, []⟩
  else
    ⟨[deleteCf .coinbase key],
      ((get snapshot .coinbase key).map fun prev => (Family.coinbase, key, some prev)).toList,
      zeroHash, []⟩

def keyImageEffect (vin : TXInput) : Effect :=
  let key := vin.scriptSig.take 32
  if isConnect then
    ⟨[putCf .keyImages key (beBytes 8 height)], [(.keyImages, key, none)], zeroHash, []⟩
  else
    ⟨[deleteCf .keyImages key],
      ((get snapshot .keyImages key).map fun prev => (Family.keyImages, key, some prev)).toList,
      zeroHash, []⟩

/-- The effect of a spent coin; a coin that is not there is worth nothing. -/
def coinEffect (isAnonymous : Bool) (vin : TXInput) : Effect :=
  let cf := coinFamily isAnonymous
  let key := coinKey isAnonymous vin.txid vin.vout
  let prev := (get snapshot cf key).getD []
  let coin := storedCoin snapshot isAnonymous vin
  let element := (coin.map (hashUtxoEntry env vin.txid vin.vout)).getD zeroHash
  let value := (coin.map TXOutput.value).getD 0
  if isConnect then ⟨[deleteCf cf key], [(cf, key, some prev)], element, [.sub value]⟩
  else ⟨[putCf cf key prev], [(cf, key, none)], element, [.add value]⟩

def inputEffect (isAnonymous : Bool) (vin : TXInput) : Effect :=
  if isAnonymous then
    keyImageEffect snapshot height isConnect vin * coinEffect env snapshot isConnect isAnonymous vin
  else coinEffect env snapshot isConnect isAnonymous vin

def addrEffect (tx : Transaction) (out : TXOutput) (vout : UInt32) : Effect :=
  let key := addrKey (env.hash160 out.scriptPubkey) (txHash env tx) vout
  if isConnect then
    ⟨[putCf .addrIndex key (beBytes 8 out.value.toNat)], [(.addrIndex, key, none)], zeroHash, []⟩
  else
    ⟨[deleteCf .addrIndex key],
      ((get snapshot .addrIndex key).map fun prev => (Family.addrIndex, key, some prev)).toList,
      zeroHash, []⟩

def newCoinEffect (tx : Transaction) (out : TXOutput) (vout : UInt32) : Effect :=
  let cf := coinFamily tx.isAnonymous
  let key := coinKey tx.isAnonymous (txHash env tx) vout
  let element := hashUtxoEntry env (txHash env tx) vout out
  if isConnect then
    ⟨[putCf cf key (txOutputCodec.encode out)], [(cf, key, none)], element, [.add out.value]⟩
  else
    ⟨[deleteCf cf key],
      ((get snapshot cf key).map fun prev => (cf, key, some prev)).toList, element,
      [.sub out.value]⟩

def outputEffect (tx : Transaction) (entry : TXOutput × Nat) : Effect :=
  let vout := UInt32.ofNat entry.2
  if tx.isAnonymous then newCoinEffect env snapshot isConnect tx entry.1 vout
  else newCoinEffect env snapshot isConnect tx entry.1 vout *
    addrEffect env snapshot isConnect tx entry.1 vout

def txEffect (tx : Transaction) : Effect :=
  if isCoinbase tx then coinbaseEffect env snapshot height isConnect tx
  else (tx.inputs.map (inputEffect env snapshot height isConnect tx.isAnonymous)).prod *
    ((numberedOutputs isConnect tx).map (outputEffect env snapshot isConnect tx)).prod

def blockEffect (txs : List Transaction) : Effect :=
  (txs.map (txEffect env snapshot height isConnect)).prod

theorem writesTo_txEffect_of_other {family : Family} {tx : Transaction}
    (other : family ∉ [Family.utxo, .anonymous, .keyImages, .addrIndex])
    (ordinary : isCoinbase tx = false) :
    writesTo family (txEffect env snapshot height isConnect tx).writes = [] := by
  obtain ⟨noUtxo, noAnonymous, noImage, noAddress⟩ : Family.utxo ≠ family ∧
      .anonymous ≠ family ∧ .keyImages ≠ family ∧ .addrIndex ≠ family := by
    simpa [eq_comm] using other
  have inputs (isAnonymous : Bool) (vin : TXInput) :
      writesTo family (inputEffect env snapshot height isConnect isAnonymous vin).writes = [] := by
    cases isConnect <;> cases isAnonymous <;>
      simp [inputEffect, coinEffect, keyImageEffect, coinFamily, putCf, deleteCf, noUtxo,
        noAnonymous, noImage]
  have outputs (entry : TXOutput × Nat) :
      writesTo family (outputEffect env snapshot isConnect tx entry).writes = [] := by
    cases isConnect <;> cases anonymous : tx.isAnonymous <;>
      simp [outputEffect, newCoinEffect, addrEffect, anonymous, coinFamily, putCf, deleteCf,
        noUtxo, noAnonymous, noAddress]
  simp only [txEffect, ordinary, Bool.false_eq_true, if_false, Effect.mul_writes,
    Effect.prod_writes, writesTo_append, writesTo_flatMap, inputs, outputs]
  simp

/-- What an input must bring: a stored coin, and for an anonymous one a key image, a fresh one
when connecting. -/
def InputOk (isAnonymous : Bool) (vin : TXInput) : Prop :=
  (storedCoin snapshot isAnonymous vin).isSome ∧
    (isAnonymous = true → 32 ≤ vin.scriptSig.length ∧
      env.isKeyImage (vin.scriptSig.take 32) = true ∧
      (isConnect = true → get snapshot .keyImages (vin.scriptSig.take 32) = none))

def TxOk (tx : Transaction) : Prop :=
  isCoinbase tx = false → ∀ vin ∈ tx.inputs, InputOk env snapshot isConnect tx.isAnonymous vin

end Parts

section Specifications

variable (env : Env) (snapshot : Db) (height : Nat) (isConnect : Bool)

private theorem keyImageAction_eq_ok (acc result : UtxoAcc) (vin : TXInput) :
    keyImageAction env snapshot height isConnect acc vin = .ok result ↔
      (32 ≤ vin.scriptSig.length ∧ env.isKeyImage (vin.scriptSig.take 32) = true ∧
        (isConnect = true → get snapshot .keyImages (vin.scriptSig.take 32) = none)) ∧
      acc.take (keyImageEffect snapshot height isConnect vin) = some result := by
  cases isConnect <;>
    simp [-bind_pure_comp, keyImageAction, keyImageEffect, guard_eq_ok, UtxoAcc.take, runSupply,
      and_assoc]

private theorem coinAction_eq_ok (isAnonymous : Bool) (acc result : UtxoAcc) (vin : TXInput) :
    coinAction env snapshot isAnonymous isConnect acc vin = .ok result ↔
      (storedCoin snapshot isAnonymous vin).isSome ∧
        acc.take (coinEffect env snapshot isConnect isAnonymous vin) = some result := by
  unfold coinAction coinEffect storedCoin
  cases found : get snapshot (coinFamily isAnonymous) (coinKey isAnonymous vin.txid vin.vout) with
  | none => simp [bind_eq_ok, found]
  | some prev =>
      cases readable : txOutputCodec.read prev with
      | none => simp [bind_eq_ok, found, readable]
      | some out =>
          cases isConnect <;>
            simp [-bind_pure_comp, bind_eq_ok, found, readable, UtxoAcc.take, runSupply,
              SupplyOp.run]

private theorem inputAction_steps (isAnonymous : Bool) :
    Steps takeAction (inputAction env snapshot height isAnonymous isConnect)
      (InputOk env snapshot isConnect isAnonymous)
      (inputEffect env snapshot height isConnect isAnonymous) := by
  intro acc vin result
  cases isAnonymous with
  | false => simp [inputAction, inputEffect, InputOk, takeAction, coinAction_eq_ok]
  | true =>
      simp only [inputAction, inputEffect, InputOk, if_true, bind_eq_ok, keyImageAction_eq_ok,
        coinAction_eq_ok, takeAction.act_mul, Option.bind_eq_some_iff, forall_const]
      constructor
      · rintro ⟨mid, ⟨image, first⟩, coin, second⟩
        exact ⟨⟨coin, image⟩, mid, first, second⟩
      · rintro ⟨⟨coin, image⟩, mid, first, second⟩
        exact ⟨mid, ⟨image, first⟩, coin, second⟩

private theorem outputAction_steps (tx : Transaction) :
    Steps takeAction (outputAction env snapshot isConnect tx) (fun _ => True)
      (outputEffect env snapshot isConnect tx) := by
  intro acc entry result
  cases isConnect <;> cases anonymous : tx.isAnonymous <;>
    simp [-bind_pure_comp, outputAction, outputEffect, newCoinEffect, addrEffect, addrAction,
      takeAction, anonymous, bind_eq_ok, UtxoAcc.take, runSupply, SupplyOp.run]

private theorem handleUtxoAction_steps :
    Steps takeAction (handleUtxoAction env snapshot height isConnect)
      (TxOk env snapshot isConnect) (txEffect env snapshot height isConnect) := by
  intro acc tx result
  by_cases coinbase : isCoinbase tx = true
  · cases isConnect <;>
      simp [handleUtxoAction, txEffect, TxOk, coinbase, coinbaseAction, coinbaseEffect, takeAction,
        UtxoAcc.take, runSupply]
  · rw [Bool.not_eq_true] at coinbase
    have inputs := (inputAction_steps env snapshot height isConnect tx.isAnonymous).foldlM_eq_ok
    have outputs := (outputAction_steps env snapshot isConnect tx).foldlM_eq_ok
    simp only [handleUtxoAction, txEffect, TxOk, coinbase, Bool.false_eq_true, if_false, bind_eq_ok,
      inputs, outputs, takeAction.act_mul, Option.bind_eq_some_iff, forall_const, implies_true,
      true_and]
    constructor
    · rintro ⟨mid, ⟨admissible, first⟩, second⟩
      exact ⟨admissible, mid, first, second⟩
    · rintro ⟨admissible, mid, first, second⟩
      exact ⟨mid, ⟨admissible, first⟩, second⟩

def counterWrites (setHash : Hash) (supply : UInt64) : DbBatch :=
  [putCf .default utxoSetHashKey setHash.toList,
   putCf .default totalSupplyKey (beBytes 8 supply.toNat)]

theorem get_counterWrites (db : Db) (setHash : Hash) (supply : UInt64) :
    get (write db (counterWrites setHash supply)) .default utxoSetHashKey = some setHash.toList ∧
      get (write db (counterWrites setHash supply)) .default totalSupplyKey =
        some (beBytes 8 supply.toNat) := by
  have different : utxoSetHashKey ≠ totalSupplyKey := by decide
  simp [Data.get, write, counterWrites, putCf, applyWrite, Finmap.lookup_insert_of_ne _ different]

theorem applyUtxoChanges_eq_ok (setHash : Hash) (supply : UInt64) (block : Block) (batch : DbBatch)
    (acc : UtxoAcc) :
    applyUtxoChanges env snapshot setHash supply block height isConnect batch = .ok acc ↔
      (∀ tx ∈ block.txs, TxOk env snapshot isConnect tx) ∧
      runSupply supply (blockEffect env snapshot height isConnect block.txs).supplyOps =
        some acc.supply ∧
      acc.setHash = xorHash setHash (blockEffect env snapshot height isConnect block.txs).element ∧
      acc.rollbackOps = (blockEffect env snapshot height isConnect block.txs).undo ∧
      acc.batch = batch ++ (blockEffect env snapshot height isConnect block.txs).writes ++
        counterWrites acc.setHash acc.supply := by
  have loop := (handleUtxoAction_steps env snapshot height isConnect).foldlM_eq_ok block.txs
    ⟨batch, [], setHash, supply⟩
  simp only [applyUtxoChanges, bind_eq_ok, loop, pure_eq_ok, blockEffect]
  simp only [takeAction, UtxoAcc.take, Option.map_eq_some_iff]
  constructor
  · rintro ⟨_, ⟨admissible, result, ran, rfl⟩, rfl⟩
    exact ⟨admissible, ran, rfl, rfl, rfl⟩
  · rintro ⟨admissible, ran, sets, undo, writes⟩
    refine ⟨_, ⟨admissible, acc.supply, ran, rfl⟩, ?_⟩
    obtain ⟨accBatch, accUndo, accSet, accSupply⟩ := acc
    simp only at sets undo writes
    subst sets undo
    rw [writes]
    rfl

theorem applyUtxoChanges_of_run {setHash : Hash} {supply result : UInt64} {block : Block}
    {batch : DbBatch} (handled : ∀ tx ∈ block.txs, TxOk env snapshot isConnect tx)
    (ran : runSupply supply (blockEffect env snapshot height isConnect block.txs).supplyOps =
      some result) :
    ∃ acc, applyUtxoChanges env snapshot setHash supply block height isConnect batch = .ok acc ∧
      acc.supply = result ∧
      acc.setHash =
        xorHash setHash (blockEffect env snapshot height isConnect block.txs).element := by
  have recipe := applyUtxoChanges_eq_ok env snapshot height isConnect setHash supply block batch
    ⟨batch ++ (blockEffect env snapshot height isConnect block.txs).writes ++
        counterWrites
          (xorHash setHash (blockEffect env snapshot height isConnect block.txs).element) result,
      (blockEffect env snapshot height isConnect block.txs).undo,
      xorHash setHash (blockEffect env snapshot height isConnect block.txs).element, result⟩
  exact ⟨_, recipe.mpr ⟨handled, ran, rfl, rfl, rfl⟩, rfl, rfl⟩

end Specifications

end Lyrion.Node
