/- GID: Lyrion/Miner/Confirmation
   digest: What a block of the miner can confirm when it comes to block validation. -/

import Lyrion.Miner.Search

set_option autoImplicit false
set_option relaxedAutoImplicit false

namespace Lyrion.Miner

open Library.ByteCodec Data Utils Tx Node

private theorem storedFee_pos {db : Db} {bestHeight height : Nat} {tx : Transaction}
    (transparent : tx.isAnonymous = false) (rules : SpendRules db bestHeight height tx) :
    0 < storedFee db tx := by
  obtain ⟨-, least⟩ := storedFee_of_rules transparent rules
  have price : minFeePerByte.toNat = 10 := rfl
  have size := size_pos tx
  rw [price] at least
  omega

section Reward

variable {env : Env} {db : Db} {bestHeight height : Nat} {nowMs : Option Nat} {block : Block}
  {coinbase : Transaction} {rest : List Transaction} {fees : UInt64}

private theorem feeless_of_bare
    (rules : BlockRules env db bestHeight nowMs block height coinbase rest
      fees)
    (bare : coinbase.outputs.head?.map TXOutput.value = some (subsidy height)) :
    ∀ tx ∈ rest, storedFee db tx = 0 := by
  obtain ⟨out, first, amount⟩ := rules.amount
  have value : out.value = subsidy height := by
    rw [first] at bare
    exact Option.some.inj bare
  have total := rules.total
  have nothing : (rest.map (storedFee db)).sum = 0 := by
    rw [value] at amount
    omega
  intro tx member
  exact List.sum_eq_zero_iff.mp nothing _ (List.mem_map_of_mem member)

private theorem coinbases_of_bare (rules : BlockRules env db bestHeight nowMs block height coinbase
      rest fees)
    (bare : coinbase.outputs.head?.map TXOutput.value = some (subsidy height)) :
    ∀ tx ∈ rest, isCoinbase tx = true := by
  intro tx member
  by_contra spend
  obtain ⟨transparent, spending⟩ := rules.spends member (Bool.not_eq_true _ ▸ spend)
  have paid := storedFee_pos transparent spending
  rw [feeless_of_bare rules bare tx member] at paid
  exact absurd paid (Nat.lt_irrefl 0)

end Reward

/-- A block that the miner has found is valid at the height of its template only without a spend:
the coinbase leaves the fees out, validation adds them, and every spend under the rules pays one. -/
theorem found_block_confirms_nothing (env : Env) (choices : Choices) (c : Chain) (m : Mempool)
    (extra : Vector UInt8 8) (pubkey : Bytes) (customDest : Option Bytes) (before after : Nat)
    (currentTip : Hash) (events : List SearchEvent) (template : Template) (block : Block)
    (built : assemble env choices c m extra pubkey customDest = .ok template)
    (mined : minerRound env choices c m extra pubkey customDest (some before) (some after)
      currentTip events = .ok (some block))
    (db : Db) (bestHeight : Nat) (nowMs : Option Nat)
    (valid : validateBlock env db bestHeight nowMs block template.height = .ok ()) :
    ∀ tx ∈ template.selected, isCoinbase tx = true ∧ storedFee db tx = 0 := by
  obtain ⟨-, rfl⟩ := minerRound_eq_some built mined
  obtain ⟨-, -, -, -, -, reward, -⟩ := assemble_eq_ok built
  obtain ⟨coinbase, rest, fees, rules⟩ := validateBlock_eq_ok.mp valid
  obtain ⟨rfl, rfl⟩ : template.coinbase = coinbase ∧ template.selected = rest :=
    List.cons.inj rules.txs
  have bare : template.coinbase.outputs.head?.map TXOutput.value =
      some (subsidy template.height) := by
    rw [reward]
    rfl
  intro tx member
  exact ⟨coinbases_of_bare rules bare tx member, feeless_of_bare rules bare tx member⟩

theorem found_block_valid :
    ∃ template block, sampleAssembled sampleEnv = .ok template ∧
      sampleRound sampleEnv 2000000000100 2000000000900 = .ok (some block) ∧
      validateBlock sampleEnv Mempool.sampleFunded.db 0 (some 2000000001000) block
        template.height = .ok () ∧
      ∀ tx ∈ template.selected, isCoinbase tx = true ∧
        storedFee Mempool.sampleFunded.db tx = 0 := by
  have evaluated : ((sampleAssembled sampleEnv).bind fun template =>
      (sampleRound sampleEnv 2000000000100 2000000000900).bind fun found =>
        (orPanic "no block" found).bind fun block =>
          validateBlock sampleEnv Mempool.sampleFunded.db 0 (some 2000000001000) block
            template.height) = .ok () := by decide +kernel
  obtain ⟨template, built, later⟩ := bind_eq_ok.mp evaluated
  obtain ⟨found, round, later⟩ := bind_eq_ok.mp later
  obtain ⟨block, opened, valid⟩ := bind_eq_ok.mp later
  obtain rfl := orPanic_eq_ok.mp opened
  exact ⟨template, block, built, round, valid, found_block_confirms_nothing sampleEnv
    Mempool.sampleChoices Mempool.sampleFunded (Mempool.new 1000) (Vector.replicate 8 0) [7] none
    2000000000100 2000000000900 Mempool.sampleFunded.bestTip [.test 0 false] template block built
    round _ _ _ valid⟩

end Lyrion.Miner
