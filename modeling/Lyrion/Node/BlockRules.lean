/- GID: Lyrion/Node/BlockRules
   digest: Which outputs a block's checks see, what fee each transaction counts for, and the rules
     under which a block is accepted. -/

import Lyrion.Node.Conservation

set_option autoImplicit false
set_option relaxedAutoImplicit false

namespace Lyrion.Node

open Library.ByteCodec Library.KeyValue Data Utils Tx

variable {outputs : Map Outpoint TXOutput} {tx : Transaction} {vin : TXInput}
  {txs : List Transaction} {inputs : List TXInput}

section Collected

variable {db : Db} {isAnonymous : Bool}

def Agrees (db : Db) (isAnonymous : Bool) (outputs : Map Outpoint TXOutput) : Prop :=
  ∀ (vin : TXInput) out, outputs.lookup vin.outpoint = some out →
    storedCoin db isAnonymous vin = some out

/-- The map has all stored coins that the inputs refer to. -/
structure Collects (db : Db) (isAnonymous : Bool) (before : Map Outpoint TXOutput)
    (inputs : List TXInput) (outputs : Map Outpoint TXOutput) : Prop where
  agrees : Agrees db isAnonymous outputs
  kept : ∀ p ∈ before, p ∈ outputs
  found : ∀ vin ∈ inputs, outputs.lookup vin.outpoint = storedCoin db isAnonymous vin

private theorem storedCoin_congr {other : TXInput} (same : vin.outpoint = other.outpoint) :
    storedCoin db isAnonymous vin = storedCoin db isAnonymous other := by
  obtain ⟨txid, vout⟩ := Prod.mk.inj same
  rw [storedCoin, storedCoin, txid, vout]

theorem agrees_empty : Agrees db isAnonymous ∅ := by
  intro vin out found
  simp at found

private theorem Agrees.insert (agrees : Agrees db isAnonymous outputs) {out : TXOutput}
    (stored : storedCoin db isAnonymous vin = some out) :
    Agrees db isAnonymous (outputs.insert vin.outpoint out) := by
  intro other result found
  by_cases same : other.outpoint = vin.outpoint
  · rw [same, Finmap.lookup_insert] at found
    rw [storedCoin_congr same, stored, found]
  · rw [Finmap.lookup_insert_of_ne _ same] at found
    exact agrees other result found

private theorem Agrees.lookup_of_mem (agrees : Agrees db isAnonymous outputs)
    (member : vin.outpoint ∈ outputs) :
    outputs.lookup vin.outpoint = storedCoin db isAnonymous vin := by
  obtain ⟨out, found⟩ := Finmap.mem_iff.mp member
  rw [found, agrees vin out found]

private theorem Collects.trans {before middle after : Map Outpoint TXOutput} {more : List TXInput}
    (first : Collects db isAnonymous before inputs middle)
    (second : Collects db isAnonymous middle more after) :
    Collects db isAnonymous before (inputs ++ more) after where
  agrees := second.agrees
  kept p member := second.kept p (first.kept p member)
  found vin member := by
    rcases List.mem_append.mp member with early | late
    · cases stored : storedCoin db isAnonymous vin with
      | none =>
          cases found : after.lookup vin.outpoint with
          | none => rfl
          | some out => exact absurd (second.agrees vin out found) (by simp [stored])
      | some out =>
          have there := (first.found vin early).trans stored
          rw [← stored]
          exact second.agrees.lookup_of_mem (second.kept _ (Finmap.mem_iff.mpr ⟨out, there⟩))
    · exact second.found vin late

def Readable (db : Db) (isAnonymous : Bool) (inputs : List TXInput) : Prop :=
  ∀ vin ∈ inputs, ∀ value,
    get db (coinFamily isAnonymous) (coinKey isAnonymous vin.txid vin.vout) = some value →
      (txOutputCodec.read value).isSome

private theorem gatherStored_readable {unreadable : String} :
    (∃ result, gatherStored db isAnonymous unreadable inputs outputs = .ok result) ↔
      Readable db isAnonymous inputs := by
  induction inputs generalizing outputs with
  | nil => simp [gatherStored, Readable]
  | cons vin inputs ih =>
      unfold Readable at ih ⊢
      rw [List.forall_mem_cons, gatherStored]
      cases found : get db (coinFamily isAnonymous) (coinKey isAnonymous vin.txid vin.vout) with
      | none => simp [ih]
      | some value =>
          simp only [bind_eq_ok, orFail_eq_ok, Option.some.injEq, forall_eq']
          cases read : txOutputCodec.read value with
          | none => simp
          | some out => simp [ih]

private theorem gatherStored_collects {unreadable : String} {result : Map Outpoint TXOutput}
    (agrees : Agrees db isAnonymous outputs)
    (gathered : gatherStored db isAnonymous unreadable inputs outputs = .ok result) :
    Collects db isAnonymous outputs inputs result := by
  induction inputs generalizing outputs with
  | nil =>
      obtain rfl := Except.ok.inj gathered
      exact ⟨agrees, fun _ member => member, by simp⟩
  | cons vin inputs ih =>
      rw [gatherStored] at gathered
      cases found : get db (coinFamily isAnonymous) (coinKey isAnonymous vin.txid vin.vout) with
      | none =>
          rw [found] at gathered
          have missing : storedCoin db isAnonymous vin = none := by simp [storedCoin, found]
          have here : Collects db isAnonymous outputs [vin] outputs := by
            refine ⟨agrees, fun _ member => member, ?_⟩
            intro other member
            obtain rfl := List.mem_singleton.mp member
            rw [missing]
            cases there : outputs.lookup other.outpoint with
            | none => rfl
            | some out => exact absurd (agrees other out there) (by simp [missing])
          exact here.trans (ih agrees gathered)
      | some value =>
          simp only [found, bind_eq_ok, orFail_eq_ok] at gathered
          obtain ⟨out, read, rest⟩ := gathered
          have stored : storedCoin db isAnonymous vin = some out := by
            simp [storedCoin, found, read]
          have here : Collects db isAnonymous outputs [vin] (outputs.insert vin.outpoint out) := by
            refine ⟨agrees.insert stored, fun p member => Finmap.mem_insert.mpr (Or.inr member), ?_⟩
            intro other member
            obtain rfl := List.mem_singleton.mp member
            rw [Finmap.lookup_insert, stored]
          exact here.trans (ih (agrees.insert stored) rest)

def inputsOf (isAnonymous : Bool) (txs : List Transaction) : List TXInput :=
  (txs.filter fun tx => tx.isAnonymous = isAnonymous).flatMap Transaction.inputs

theorem mem_inputsOf (member : tx ∈ txs) (input : vin ∈ tx.inputs) :
    vin ∈ inputsOf tx.isAnonymous txs :=
  List.mem_flatMap.mpr ⟨tx, List.mem_filter.mpr ⟨member, by simp⟩, input⟩

private theorem inputsOf_cons_of_kind (kind : tx.isAnonymous = isAnonymous)
    (txs : List Transaction) :
    inputsOf isAnonymous (tx :: txs) = tx.inputs ++ inputsOf isAnonymous txs := by
  simp [inputsOf, kind]

private theorem inputsOf_cons_of_other (kind : ¬ tx.isAnonymous = isAnonymous)
    (txs : List Transaction) : inputsOf isAnonymous (tx :: txs) = inputsOf isAnonymous txs := by
  simp [inputsOf, kind]

theorem collectOutputs_collects {result : Map Outpoint TXOutput}
    (agrees : Agrees db isAnonymous outputs)
    (collected : collectOutputs db isAnonymous txs outputs = .ok result) :
    Collects db isAnonymous outputs (inputsOf isAnonymous txs) result := by
  induction txs generalizing outputs with
  | nil =>
      obtain rfl := Except.ok.inj collected
      exact ⟨agrees, fun _ member => member, by simp [inputsOf]⟩
  | cons tx txs ih =>
      rw [collectOutputs] at collected
      by_cases kind : tx.isAnonymous = isAnonymous
      · simp only [if_pos kind, bind_eq_ok] at collected
        obtain ⟨middle, gathered, rest⟩ := collected
        have first := gatherStored_collects agrees gathered
        rw [inputsOf_cons_of_kind kind]
        exact first.trans (ih first.agrees rest)
      · rw [if_neg kind] at collected
        rw [inputsOf_cons_of_other kind]
        exact ih agrees collected

theorem collectOutputs_readable :
    (∃ result, collectOutputs db isAnonymous txs outputs = .ok result) ↔
      Readable db isAnonymous (inputsOf isAnonymous txs) := by
  induction txs generalizing outputs with
  | nil => simp [collectOutputs, inputsOf, Readable]
  | cons tx txs ih =>
      rw [collectOutputs]
      by_cases kind : tx.isAnonymous = isAnonymous
      · have split : Readable db isAnonymous (inputsOf isAnonymous (tx :: txs)) ↔
            Readable db isAnonymous tx.inputs ∧
              Readable db isAnonymous (inputsOf isAnonymous txs) := by
          rw [inputsOf_cons_of_kind kind]
          exact List.forall_mem_append
        simp only [split, if_pos kind, bind_eq_ok]
        constructor
        · rintro ⟨result, middle, gathered, rest⟩
          exact ⟨gatherStored_readable.mp ⟨middle, gathered⟩, ih.mp ⟨result, rest⟩⟩
        · rintro ⟨here, later⟩
          obtain ⟨middle, gathered⟩ := gatherStored_readable.mpr here
          obtain ⟨result, rest⟩ := ih.mpr later
          exact ⟨result, middle, gathered, rest⟩
      · rw [if_neg kind, inputsOf_cons_of_other kind]
        exact ih

end Collected

section Fees

variable {db : Db}

/-- The fee that `Transaction::fee` counts over the stored coins: nothing where a sum overflows,
and nothing where the outputs exceed the inputs. -/
def storedFee (db : Db) (tx : Transaction) : Nat :=
  if spentValue db tx.isAnonymous tx.inputs < 2 ^ 64 ∧ createdValue tx.outputs < 2 ^ 64 then
    spentValue db tx.isAnonymous tx.inputs - createdValue tx.outputs
  else 0

private theorem toNat_saturatingSub (a b : UInt64) :
    (saturatingSub a b).toNat = a.toNat - b.toNat := by
  unfold saturatingSub
  split
  case isTrue covered => exact UInt64.toNat_sub_of_le a b (UInt64.le_iff_toNat_le.mpr covered)
  case isFalse short =>
    have zero : (0 : UInt64).toNat = 0 := rfl
    omega

private theorem checkedSum_of_lt {values : List UInt64}
    (small : (values.map UInt64.toNat).sum < 2 ^ 64) :
    ∃ total, checkedSum values = some total ∧ total.toNat = (values.map UInt64.toNat).sum := by
  have word := UInt64.toNat_ofNat_of_lt' small
  exact ⟨_, checkedSum_eq_some.mpr word.symm, word⟩

theorem toNat_fee
    (found : ∀ vin ∈ tx.inputs, outputs.lookup vin.outpoint = storedCoin db tx.isAnonymous vin) :
    (fee tx outputs).toNat = storedFee db tx := by
  have spent : ((tx.inputs.map fun vin =>
      ((outputs.lookup vin.outpoint).map TXOutput.value).getD 0).map UInt64.toNat).sum =
        spentValue db tx.isAnonymous tx.inputs := by
    rw [spentValue, List.map_map]
    congr 1
    apply List.map_congr_left
    intro vin member
    rw [Function.comp_apply, found vin member]
    cases storedCoin db tx.isAnonymous vin <;> rfl
  have created : ((tx.outputs.map TXOutput.value).map UInt64.toNat).sum =
      createdValue tx.outputs := by
    rw [createdValue, List.map_map]
    rfl
  rw [fee, storedFee]
  by_cases inputs : spentValue db tx.isAnonymous tx.inputs < 2 ^ 64
  · obtain ⟨inputSum, summed, inputSum_eq⟩ := checkedSum_of_lt (spent ▸ inputs)
    rw [summed]
    by_cases outputs : createdValue tx.outputs < 2 ^ 64
    · obtain ⟨outputSum, summed, outputSum_eq⟩ := checkedSum_of_lt (created ▸ outputs)
      rw [summed, if_pos ⟨inputs, outputs⟩]
      simp only [toNat_saturatingSub, inputSum_eq, outputSum_eq, spent, created]
    · rw [checkedSum_eq_none.mpr (created ▸ Nat.not_lt.mp outputs), if_neg fun both => outputs
        both.2]
      rfl
  · rw [checkedSum_eq_none.mpr (spent ▸ Nat.not_lt.mp inputs), if_neg fun both => inputs both.1]
    rfl

theorem totalFees_eq_some {utxos anonOutputs : Map Outpoint TXOutput}
    (transparent : collectOutputs db false txs ∅ = .ok utxos)
    (anonymous : collectOutputs db true txs ∅ = .ok anonOutputs) {fees : UInt64} :
    totalFees utxos anonOutputs txs = some fees ↔
      (txs.map (storedFee db)).sum = fees.toNat := by
  have coins (tx : Transaction) (member : tx ∈ txs) (vin : TXInput) (input : vin ∈ tx.inputs) :
      (if tx.isAnonymous then anonOutputs else utxos).lookup vin.outpoint =
        storedCoin db tx.isAnonymous vin := by
    have inside := mem_inputsOf member input
    cases kind : tx.isAnonymous with
    | false =>
        rw [kind] at inside
        exact (collectOutputs_collects agrees_empty transparent).found vin inside
    | true =>
        rw [kind] at inside
        exact (collectOutputs_collects agrees_empty anonymous).found vin inside
  have fees_eq : (txs.map fun tx =>
      (fee tx (if tx.isAnonymous then anonOutputs else utxos)).toNat) =
        txs.map (storedFee db) := by
    apply List.map_congr_left
    intro tx member
    exact toNat_fee (coins tx member)
  rw [totalFees, checkedSum_eq_some, List.map_map, ← fees_eq]
  rfl

theorem storedFee_of_rules {bestHeight height : Nat} (transparent : tx.isAnonymous = false)
    (rules : SpendRules db bestHeight height tx) :
    storedFee db tx + createdValue tx.outputs = spentValue db false tx.inputs ∧
      tx.size * minFeePerByte.toNat ≤ storedFee db tx := by
  have paid := rules.paid
  have bounded := rules.bounded
  have both : spentValue db tx.isAnonymous tx.inputs < 2 ^ 64 ∧
      createdValue tx.outputs < 2 ^ 64 := by
    rw [transparent]
    omega
  rw [storedFee, if_pos both, transparent]
  omega

end Fees

section Rules

variable {env : Env} {db : Db} {bestHeight : Nat} {nowMs : Option Nat} {block : Block}
  {height : Nat}

/-- The rules of `validate_block` for a block with this coinbase, these other transactions and this
fee total. -/
structure BlockRules (env : Env) (db : Db) (bestHeight : Nat) (nowMs : Option Nat) (block : Block)
    (height : Nat) (coinbase : Transaction) (rest : List Transaction) (fees : UInt64) : Prop where
  header : ∃ hash, checkHeader env db block height = .ok hash ∧
    checkContext env db nowMs block height hash = .ok ()
  txs : block.txs = coinbase :: rest
  shape : isCoinbase coinbase = true
  readable : ∀ isAnonymous, Readable db isAnonymous (inputsOf isAnonymous rest)
  valid : ∀ tx ∈ rest, validateTransaction env db bestHeight tx height = .ok ()
  total : (rest.map (storedFee db)).sum = fees.toNat
  amount : ∃ out, coinbase.outputs.head? = some out ∧
    (subsidy height).toNat + fees.toNat = out.value.toNat
  commitments : ∃ anonOutputs, collectOutputs db true rest ∅ = .ok anonOutputs ∧
    checkCommitments env anonOutputs fees (coinbase :: rest) = .ok ()

private theorem checkTransactions_eq_ok {coinbase : Transaction} {rest : List Transaction} :
    checkTransactions env db bestHeight coinbase rest height = .ok () ↔
      (∀ isAnonymous, Readable db isAnonymous (inputsOf isAnonymous rest)) ∧
      (∀ tx ∈ rest, validateTransaction env db bestHeight tx height = .ok ()) ∧
      ∃ fees : UInt64, (rest.map (storedFee db)).sum = fees.toNat ∧
        (∃ out, coinbase.outputs.head? = some out ∧
          (subsidy height).toNat + fees.toNat = out.value.toNat) ∧
        ∃ anonOutputs, collectOutputs db true rest ∅ = .ok anonOutputs ∧
          checkCommitments env anonOutputs fees (coinbase :: rest) = .ok () := by
  simp only [checkTransactions, fail_bind, guard_eq_ok, bind_eq_ok, exists_done, orFail_eq_ok,
    forM_eq_ok, not_not]
  constructor
  · rintro ⟨utxos, transparent, anonOutputs, anonymous, valid, fees, total, expected, sum, amount,
      balanced⟩
    refine ⟨?_, valid, fees, (totalFees_eq_some transparent anonymous).mp total, ?_, anonOutputs,
      anonymous, balanced⟩
    · rintro (_ | _)
      · exact collectOutputs_readable.mp ⟨utxos, transparent⟩
      · exact collectOutputs_readable.mp ⟨anonOutputs, anonymous⟩
    · obtain ⟨out, first, rfl⟩ := Option.map_eq_some_iff.mp amount
      exact ⟨out, first, checkedAdd_eq_some.mp sum⟩
  · rintro ⟨readable, valid, fees, total, ⟨out, first, sum⟩, anonOutputs, anonymous, balanced⟩
    obtain ⟨utxos, transparent⟩ := collectOutputs_readable.mpr (readable false)
    exact ⟨utxos, transparent, anonOutputs, anonymous, valid, fees,
      (totalFees_eq_some transparent anonymous).mpr total, out.value, checkedAdd_eq_some.mpr sum,
      by rw [first, Option.map_some], balanced⟩

theorem validateBlock_eq_ok :
    validateBlock env db bestHeight nowMs block height = .ok () ↔
      ∃ coinbase rest fees,
        BlockRules env db bestHeight nowMs block height coinbase rest fees := by
  simp only [validateBlock, bind_eq_ok]
  constructor
  · rintro ⟨hash, header, later⟩
    cases txs : block.txs with
    | nil => simp [txs] at later
    | cons coinbase rest =>
        simp only [txs, fail_bind, guard_eq_ok, bind_eq_ok, exists_done, Bool.not_eq_true',
          Bool.not_eq_false, checkTransactions_eq_ok] at later
        obtain ⟨shape, ⟨readable, valid, fees, total, amount, commitments⟩, context⟩ := later
        exact ⟨coinbase, rest, fees, ⟨hash, header, context⟩, txs, shape, readable, valid, total,
          amount, commitments⟩
  · rintro ⟨coinbase, rest, fees, rules⟩
    obtain ⟨hash, header, context⟩ := rules.header
    refine ⟨hash, header, ?_⟩
    simp only [rules.txs, fail_bind, guard_eq_ok, bind_eq_ok, exists_done, Bool.not_eq_true',
      Bool.not_eq_false, checkTransactions_eq_ok]
    exact ⟨rules.shape, ⟨rules.readable, rules.valid, fees, rules.total, rules.amount,
      rules.commitments⟩, context⟩

theorem BlockRules.spends {coinbase : Transaction} {rest : List Transaction} {fees : UInt64}
    (rules : BlockRules env db bestHeight nowMs block height coinbase rest fees)
    (member : tx ∈ rest) (ordinary : isCoinbase tx = false) :
    tx.isAnonymous = false ∧ SpendRules db bestHeight height tx := by
  have accepted := validateBlock_txs (validateBlock_eq_ok.mpr ⟨coinbase, rest, fees, rules⟩)
  refine accepted.shape ?_ ordinary
  rw [rules.txs]
  exact List.mem_cons_of_mem _ member

end Rules

end Lyrion.Node
