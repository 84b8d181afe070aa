/- GID: Lyrion/Node/DoubleSpend
   digest: Which blocks of valid transactions spend every outpoint at most once. -/

import Lyrion.Node.Effects
import Lyrion.Tx.Authorisation

set_option autoImplicit false
set_option relaxedAutoImplicit false

namespace Lyrion.Node

open Library.ByteCodec Library.KeyValue Data Utils Tx

def spends (tx : Transaction) : List (Bool × Outpoint) :=
  tx.inputs.map fun vin => (tx.isAnonymous, vin.outpoint)

def keyImages (tx : Transaction) : List Bytes := tx.inputs.map fun vin => vin.scriptSig.take 32

def ordinaryTxs (txs : List Transaction) : List Transaction := txs.filter fun tx => !isCoinbase tx

def anonymousTxs (txs : List Transaction) : List Transaction :=
  (ordinaryTxs txs).filter Transaction.isAnonymous

def blockSpends (block : Block) : List (Bool × Outpoint) := (ordinaryTxs block.txs).flatMap spends

def blockKeyImages (block : Block) : List Bytes := (anonymousTxs block.txs).flatMap keyImages

def NoDoubleSpend (block : Block) : Prop := (blockSpends block).Nodup ∧ (blockKeyImages block).Nodup

/-- No two of the block's ordinary transactions share an outpoint of one store, and a first
transaction that is no coinbase has no repetition in itself. -/
def SpendsApart (block : Block) : Prop :=
  (ordinaryTxs block.txs).Pairwise (fun a b => (spends a).Disjoint (spends b)) ∧
    ∀ first ∈ block.txs.head?, isCoinbase first = false →
      (spends first).Nodup ∧ (first.isAnonymous = true → (keyImages first).Nodup)

private theorem spends_nodup_iff (tx : Transaction) :
    (spends tx).Nodup ↔ (tx.inputs.map TXInput.outpoint).Nodup := by
  have pairs : spends tx = (tx.inputs.map TXInput.outpoint).map (Prod.mk tx.isAnonymous) := by
    simp [spends, Function.comp_def]
  rw [pairs, List.nodup_map_iff (Prod.mk_right_injective _)]

private theorem anonymousTxs_cons (first : Transaction) (rest : List Transaction)
    (transparent : ∀ tx ∈ ordinaryTxs rest, tx.isAnonymous = false) :
    anonymousTxs (first :: rest) =
      if isCoinbase first = false ∧ first.isAnonymous = true then [first] else [] := by
  have none_later : (ordinaryTxs rest).filter Transaction.isAnonymous = [] := by
    rw [List.filter_eq_nil_iff]
    intro tx member
    simp [transparent tx member]
  unfold anonymousTxs
  unfold ordinaryTxs at none_later ⊢
  cases coinbase : isCoinbase first <;> cases anonymous : first.isAnonymous <;>
    simp [coinbase, anonymous, none_later]

/-- Validation keeps each later transaction free of repetitions and out of the anonymous
store, so what is left open is the first transaction and what the transactions share. -/
theorem no_double_spend_iff (env : Env) (db : Db) (setHash : Hash) (supply : UInt64)
    (bestHeight height : Nat) (block : Block) (acc : UtxoAcc)
    (sized : ∀ tx ∈ block.txs, tx.size < 2 ^ 64)
    (valid : ∀ tx ∈ block.txs.tail, validateTransaction env db bestHeight tx height = .ok ())
    (_connected : applyUtxoChanges env db setHash supply block height true [] = .ok acc) :
    NoDoubleSpend block ↔ SpendsApart block := by
  unfold NoDoubleSpend SpendsApart blockSpends blockKeyImages
  cases txs : block.txs with
  | nil => simp [ordinaryTxs, anonymousTxs]
  | cons first rest =>
      rw [txs] at valid sized
      have later (tx : Transaction) (member : tx ∈ ordinaryTxs rest) :
          tx.isAnonymous = false ∧ SpendRules db bestHeight height tx := by
        obtain ⟨member, ordinary⟩ := List.mem_filter.mp member
        exact validateTransaction_shape (by simpa using ordinary)
          (sized tx (List.mem_cons_of_mem _ member)) (valid tx member)
      have images := anonymousTxs_cons first rest fun tx member => (later tx member).1
      have members : (∀ tx ∈ ordinaryTxs (first :: rest), (spends tx).Nodup) ↔
          (isCoinbase first = false → (spends first).Nodup) := by
        constructor
        · intro each ordinary
          exact each first (List.mem_filter.mpr ⟨List.mem_cons_self, by simp [ordinary]⟩)
        · intro alone tx member
          obtain ⟨member, ordinary⟩ := List.mem_filter.mp member
          rcases List.mem_cons.mp member with rfl | member
          · exact alone (by simpa using ordinary)
          · have rules := (later tx (List.mem_filter.mpr ⟨member, ordinary⟩)).2
            exact (spends_nodup_iff tx).mpr rules.distinct
      rw [List.nodup_flatMap, members, images]
      simp only [List.head?_cons, Option.mem_some_iff, forall_eq']
      by_cases ordinary : isCoinbase first = false
      · by_cases anonymous : first.isAnonymous = true
        · simp only [ordinary, anonymous, and_self, if_true, List.flatMap_cons, List.flatMap_nil,
            List.append_nil, forall_const]
          tauto
        · simp only [ordinary, anonymous, forall_const]
          simp [and_comm]
      · simp [ordinary]

def sampleBlock (txs : List Transaction) : Block :=
  ⟨genesisHeader sampleEnv [7] 0, genesisCoinbase sampleEnv [7] :: txs⟩

/-- Two transactions that differ in their unlocking scripts spend the same coin. -/
theorem twice_spent_coin_connects :
    (∀ tx ∈ (sampleBlock [sampleSpend [], sampleSpend [1]]).txs.tail,
        validateTransaction sampleEnv sampleCoinDb 0 tx 0 = .ok ()) ∧
      (applyUtxoChanges sampleEnv sampleCoinDb zeroHash 20000
        (sampleBlock [sampleSpend [], sampleSpend [1]]) 0 true []).isOk = true ∧
      ¬ NoDoubleSpend (sampleBlock [sampleSpend [], sampleSpend [1]]) := by
  refine ⟨by decide +kernel, by decide +kernel, ?_⟩
  intro single
  exact absurd single.1 (by decide +kernel)

theorem once_spent_coin_apart :
    (∀ tx ∈ (sampleBlock [sampleSpend []]).txs.tail,
        validateTransaction sampleEnv sampleCoinDb 0 tx 0 = .ok ()) ∧
      NoDoubleSpend (sampleBlock [sampleSpend []]) := by
  have valid : ∀ tx ∈ (sampleBlock [sampleSpend []]).txs.tail,
      validateTransaction sampleEnv sampleCoinDb 0 tx 0 = .ok () := by decide +kernel
  obtain ⟨acc, connected⟩ : ∃ acc, applyUtxoChanges sampleEnv sampleCoinDb zeroHash 20000
      (sampleBlock [sampleSpend []]) 0 true [] = .ok acc := exists_of_isOk (by decide +kernel)
  refine ⟨valid, ?_⟩
  apply (no_double_spend_iff sampleEnv sampleCoinDb zeroHash 20000 0 0 _ acc (by decide +kernel)
    valid connected).mpr
  refine ⟨?_, ?_⟩
  · exact List.pairwise_singleton _ _
  · intro first member ordinary
    obtain rfl := Option.some.inj member
    exact absurd ordinary (by decide +kernel)

end Lyrion.Node
