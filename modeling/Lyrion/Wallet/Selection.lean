/- GID: Lyrion/Wallet/Selection
   digest: The wallet's choice of coins and fee in a build with overflow checks. -/

import Lyrion.Checked
import Lyrion.Wallet.Fees

set_option autoImplicit false
set_option relaxedAutoImplicit false

namespace Lyrion.Wallet

open Data Utils Tx Node

namespace Guarded

/-! `create_tx` as before, with every sum, difference and product of words checked. -/

section Coins

variable (amount : UInt64)

def takeInputs : UInt64 → List Utxo → Result (List Utxo × UInt64)
  | inputSum, [] => .ok ([], inputSum)
  | inputSum, u :: rest => do
      let inputSum ← Checked.add inputSum u.value
      let goal ← Checked.add amount 100000
      if inputSum ≥ goal then pure ([u], inputSum)
      else do
        let taken ← takeInputs inputSum rest
        pure (u :: taken.1, taken.2)

def selectInputs (utxos : List Utxo) : Result (List Utxo × UInt64) :=
  takeInputs amount 0 (utxos.insertionSort fun u v => v.value ≤ u.value)

end Coins

section Fees

variable (amount feeRate inputSum : UInt64) (inputs : Nat)

def estimate (outputsCount : Nat) : Result UInt64 :=
  Checked.mul
    (UInt64.ofNat (overhead + inputs * dummySigSize + outputsCount * 34 + inputs * 4)) feeRate

def firstFee : Result UInt64 :=
  Checked.mul (UInt64.ofNat (inputs * dummySigSize + overhead + 34)) feeRate

def changeOf (fee : UInt64) : Result UInt64 := do
  let spare ← Checked.sub inputSum amount
  Checked.sub spare fee

def feeLoop : Nat → UInt64 → Result UInt64
  | 0, fee => .ok fee
  | rounds + 1, fee => do
      let change ← changeOf amount inputSum fee
      let newFee ← estimate feeRate inputs (if change > dust then 2 else 1)
      if close newFee fee then pure fee else feeLoop rounds newFee

def settledFee : Result UInt64 := do
  let fee ← firstFee feeRate inputs
  feeLoop amount feeRate inputSum inputs 20 fee

end Fees

/-- `create_tx` up to the addresses: the coins and the change. -/
def plan (utxos : List Utxo) (amount feeRate : UInt64) : Result (List Utxo × UInt64) := do
  let taken ← selectInputs amount utxos
  if taken.2 < amount then fail (.anyhow "Insufficient funds")
  let fee ← settledFee amount feeRate taken.2 taken.1.length
  let change ← changeOf amount taken.2 fee
  let cost ← Checked.add amount fee
  if taken.2 < cost then fail (.anyhow "Insufficient funds (fees included)")
  pure (taken.1, change)

variable {env : Env} (wallet : Wallet env)

def createTx (utxos : List Utxo) (recipient : String) (amount feeRate : UInt64)
    (changeAddr : Option String) : Result (Transaction × Hash) := do
  let planned ← plan utxos amount feeRate
  let toPkh ← wallet.addressToPubkeyHash recipient
  let rest ← changeOutput wallet planned.2 changeAddr
  let outputs := ⟨amount, p2pkhScriptFromPkh toPkh, none⟩ :: rest
  let tx ← planned.1.zipIdx.foldlM (signInput wallet) (unsignedTx planned.1 outputs)
  pure (tx, txHash env tx)

end Guarded

section Taking

variable {amount : UInt64}

private theorem spentBy_cons (u : Utxo) (coins : List Utxo) :
    spentBy (u :: coins) = u.value.toNat + spentBy coins := by
  simp [spentBy]

private theorem toNat_margin : (100000 : UInt64).toNat = 100000 := by decide

private theorem takeInputs_cons (goal : amount.toNat + 100000 < 2 ^ 64) (u : Utxo)
    (coins : List Utxo) {sum : UInt64} (small : sum.toNat + u.value.toNat < 2 ^ 64) :
    Guarded.takeInputs amount sum (u :: coins) =
      if sum + u.value ≥ amount + 100000 then .ok ([u], sum + u.value)
      else (do
        let taken ← Guarded.takeInputs amount (sum + u.value) coins
        pure (u :: taken.1, taken.2)) := by
  have goal' : Checked.add amount 100000 = .ok (amount + 100000) :=
    Checked.add_of_lt (by rw [toNat_margin]; exact goal)
  rw [Guarded.takeInputs, Checked.add_of_lt small, ok_bind, goal', ok_bind]
  rfl

private theorem takeInputs_cases (goal : amount.toNat + 100000 < 2 ^ 64) (coins : List Utxo)
    (sum : UInt64) (fits : sum.toNat + spentBy coins < 2 ^ 64) :
    Guarded.takeInputs amount sum coins = .ok (takeInputs amount sum coins,
        ((takeInputs amount sum coins).map Utxo.value).foldl (· + ·) sum) ∧
      takeInputs amount sum coins <+: coins ∧
      (takeInputs amount sum coins = coins ∨
        amount.toNat + 100000 ≤ sum.toNat + spentBy (takeInputs amount sum coins)) := by
  have margin : (amount + 100000).toNat = amount.toNat + 100000 := by
    rw [UInt64.toNat_add, toNat_margin, Nat.mod_eq_of_lt goal]
  induction coins generalizing sum with
  | nil => exact ⟨rfl, List.prefix_rfl, Or.inl rfl⟩
  | cons u coins ih =>
      rw [spentBy_cons] at fits
      have small : sum.toNat + u.value.toNat < 2 ^ 64 := by omega
      have added : (sum + u.value).toNat = sum.toNat + u.value.toNat := by
        rw [UInt64.toNat_add, Nat.mod_eq_of_lt small]
      rw [takeInputs_cons goal u coins small, takeInputs]
      by_cases reached : sum + u.value ≥ amount + 100000
      · rw [if_pos reached, if_pos reached]
        refine ⟨rfl, ?_, Or.inr ?_⟩
        · simp
        · have := UInt64.le_iff_toNat_le.mp reached
          rw [spentBy_cons]
          omega
      · rw [if_neg reached, if_neg reached]
        obtain ⟨taken, part, ends⟩ := ih (sum + u.value) (by omega)
        refine ⟨by rw [taken, ok_bind]; rfl, ?_, ?_⟩
        · exact List.cons_prefix_cons.mpr ⟨rfl, part⟩
        · rw [spentBy_cons]
          rcases ends with same | enough
          · exact Or.inl (by rw [same])
          · exact Or.inr (by omega)

private theorem raises_takeInputs (beyond : 2 ^ 64 ≤ amount.toNat + 100000) {coins : List Utxo}
    (some_coin : coins ≠ []) (sum : UInt64) :
    Raises Fault.isCrash (Guarded.takeInputs amount sum coins) := by
  obtain ⟨u, rest, rfl⟩ := List.exists_cons_of_ne_nil some_coin
  have goal : Raises Fault.isCrash (Checked.add amount 100000) :=
    Checked.raises_add (by rw [toNat_margin]; exact beyond)
  unfold Guarded.takeInputs
  by_cases small : sum.toNat + u.value.toNat < 2 ^ 64
  · exact raises_bind.mpr (Or.inr ⟨_, Checked.add_of_lt small, raises_bind.mpr (Or.inl goal)⟩)
  · exact raises_bind.mpr (Or.inl (Checked.raises_add (Nat.not_lt.mp small)))

variable {utxos : List Utxo}

private theorem spentBy_perm {coins coins' : List Utxo} (perm : coins.Perm coins') :
    spentBy coins = spentBy coins' :=
  (perm.map _).sum_eq

/-- What the selection has chosen, of coins whose values fit in a word. -/
structure Chosen (amount : UInt64) (utxos : List Utxo) : Prop where
  taken : Guarded.selectInputs amount utxos =
    .ok (selectInputs amount utxos, inputSum (selectInputs amount utxos))
  few : (selectInputs amount utxos).length ≤ utxos.length
  value : spentBy (selectInputs amount utxos) ≤ spentBy utxos
  ends : spentBy (selectInputs amount utxos) = spentBy utxos ∨
    amount.toNat + 100000 ≤ spentBy (selectInputs amount utxos)

theorem chosen (values : spentBy utxos < 2 ^ 64)
    (goal : utxos = [] ∨ amount.toNat + 100000 < 2 ^ 64) : Chosen amount utxos := by
  rcases goal with rfl | goal
  · exact ⟨rfl, le_rfl, le_rfl, Or.inl rfl⟩
  · have perm := List.perm_insertionSort (fun u v : Utxo => v.value ≤ u.value) utxos
    have fits : (0 : UInt64).toNat +
        spentBy (utxos.insertionSort fun u v => v.value ≤ u.value) < 2 ^ 64 := by
      rw [spentBy_perm perm, UInt64.toNat_zero, Nat.zero_add]
      exact values
    obtain ⟨taken, part, ends⟩ := takeInputs_cases goal _ 0 fits
    refine ⟨taken, ?_, ?_, ?_⟩
    · rw [← perm.length_eq]
      exact part.length_le
    · rw [← spentBy_perm perm]
      exact (part.sublist.map _).sum_le_sum fun _ _ => Nat.zero_le _
    · rw [← spentBy_perm perm]
      rcases ends with same | enough
      · exact Or.inl (congrArg spentBy same)
      · rw [UInt64.toNat_zero, Nat.zero_add] at enough
        exact Or.inr enough

end Taking

section Settling

variable {amount feeRate inputSum : UInt64} {inputs : Nat}

private theorem mul_of_fits (fits : (110 * inputs + 94) * feeRate.toNat < 2 ^ 62) {size : Nat}
    (small : size ≤ 110 * inputs + 94) :
    Checked.mul (UInt64.ofNat size) feeRate = .ok (UInt64.ofNat size * feeRate) := by
  refine Checked.mul_of_lt ?_
  calc (UInt64.ofNat size).toNat * feeRate.toNat
      ≤ (110 * inputs + 94) * feeRate.toNat :=
        Nat.mul_le_mul_right _ ((Nat.mod_le _ _).trans small)
    _ < 2 ^ 64 := fits.trans (by norm_num)

private theorem estimate_of_fits (fits : (110 * inputs + 94) * feeRate.toNat < 2 ^ 62)
    {outputs : Nat} (few : outputs ≤ 2) :
    Guarded.estimate feeRate inputs outputs = .ok (estimate feeRate inputs outputs) := by
  refine mul_of_fits fits ?_
  simp only [overhead, dummySigSize]
  omega

private theorem firstFee_of_fits (fits : (110 * inputs + 94) * feeRate.toNat < 2 ^ 62) :
    Guarded.firstFee feeRate inputs = .ok (firstFee feeRate inputs) := by
  refine mul_of_fits fits ?_
  simp only [overhead, dummySigSize]
  omega

private theorem toNat_spare {fee : UInt64} (covers : amount.toNat + fee.toNat ≤ inputSum.toNat) :
    (inputSum - amount - fee).toNat = inputSum.toNat - amount.toNat - fee.toNat := by
  have spare : (inputSum - amount).toNat = inputSum.toNat - amount.toNat :=
    UInt64.toNat_sub_of_le _ _ (UInt64.le_iff_toNat_le.mpr (by omega))
  rw [UInt64.toNat_sub_of_le _ _ (UInt64.le_iff_toNat_le.mpr (by omega)), spare]

private theorem changeOf_of_covers {fee : UInt64}
    (covers : amount.toNat + fee.toNat ≤ inputSum.toNat) :
    Guarded.changeOf amount inputSum fee = .ok (inputSum - amount - fee) := by
  have spare : (inputSum - amount).toNat = inputSum.toNat - amount.toNat :=
    UInt64.toNat_sub_of_le _ _ (UInt64.le_iff_toNat_le.mpr (by omega))
  rw [Guarded.changeOf, Checked.sub_of_le (by omega : amount.toNat ≤ inputSum.toNat)]
  exact Checked.sub_of_le (by omega)

private theorem raises_changeOf {fee : UInt64} (short : inputSum.toNat < amount.toNat + fee.toNat) :
    Raises Fault.isCrash (Guarded.changeOf amount inputSum fee) := by
  by_cases covered : amount.toNat ≤ inputSum.toNat
  · have spare : (inputSum - amount).toNat = inputSum.toNat - amount.toNat :=
      UInt64.toNat_sub_of_le _ _ (UInt64.le_iff_toNat_le.mpr covered)
    exact raises_bind.mpr (Or.inr ⟨_, Checked.sub_of_le covered, Checked.raises_sub (by omega)⟩)
  · exact raises_bind.mpr (Or.inl (Checked.raises_sub (by omega)))

private theorem feeLoop_of_covers (fits : (110 * inputs + 94) * feeRate.toNat < 2 ^ 62)
    {fee : UInt64} (covers : amount.toNat + fee.toNat ≤ inputSum.toNat) (rounds : Nat) :
    Guarded.feeLoop amount feeRate inputSum inputs (rounds + 1) fee =
      if close (estimate feeRate inputs (outputsCount (inputSum - amount) fee)) fee then .ok fee
      else Guarded.feeLoop amount feeRate inputSum inputs rounds
        (estimate feeRate inputs (outputsCount (inputSum - amount) fee)) := by
  have few := (outputsCount_mem (inputSum - amount) fee).2
  rw [Guarded.feeLoop, changeOf_of_covers covers]
  change (Guarded.estimate feeRate inputs (outputsCount (inputSum - amount) fee) >>= _) = _
  rw [estimate_of_fits fits few]
  rfl

private theorem raises_feeLoop {fee : UInt64} (short : inputSum.toNat < amount.toNat + fee.toNat)
    (rounds : Nat) :
    Raises Fault.isCrash (Guarded.feeLoop amount feeRate inputSum inputs (rounds + 1) fee) :=
  raises_bind.mpr (Or.inl (raises_changeOf short))

private theorem feeLoop_rule (fits : (110 * inputs + 94) * feeRate.toNat < 2 ^ 62)
    (Inv : UInt64 → Prop) (covers : ∀ fee, Inv fee → amount.toNat + fee.toNat ≤ inputSum.toNat)
    (next : ∀ fee, Inv fee →
      Inv (estimate feeRate inputs (outputsCount (inputSum - amount) fee)))
    (rounds : Nat) {fee : UInt64} (start : Inv fee) :
    Guarded.feeLoop amount feeRate inputSum inputs rounds fee =
        .ok (feeLoop feeRate (inputSum - amount) inputs rounds fee) ∧
      Inv (feeLoop feeRate (inputSum - amount) inputs rounds fee) := by
  induction rounds generalizing fee with
  | zero => exact ⟨rfl, start⟩
  | succ rounds ih =>
      rw [feeLoop_of_covers fits (covers fee start), feeLoop]
      split
      · exact ⟨rfl, start⟩
      · exact ih (next fee start)

private theorem outputsCount_of_covers {fee : UInt64}
    (covers : amount.toNat + fee.toNat ≤ inputSum.toNat) :
    outputsCount (inputSum - amount) fee =
      if amount.toNat + fee.toNat + 1000 < inputSum.toNat then 2 else 1 := by
  have change := toNat_spare covers
  have more : inputSum - amount - fee > dust ↔
      amount.toNat + fee.toNat + 1000 < inputSum.toNat := by
    rw [gt_iff_lt, UInt64.lt_iff_toNat_lt, change]
    change 1000 < _ ↔ _
    omega
  simp only [outputsCount, more]

/-- A fee the loop can settle on: the estimate for one output or for two. -/
def Settled (feeRate : UInt64) (inputs : Nat) (fee : UInt64) : Prop :=
  ∃ outputs ∈ Set.Icc 1 2, fee = estimate feeRate inputs outputs

private theorem settled_estimate {spare : UInt64} (fee : UInt64) :
    Settled feeRate inputs (estimate feeRate inputs (outputsCount spare fee)) :=
  ⟨_, outputsCount_mem spare fee, rfl⟩

/-- What the loop needs to have over: its first fee, and, unless that is close enough, the estimate
it leads to. -/
def Affordable (inputs rate spare : Nat) : Prop :=
  (106 * inputs + 60) * rate ≤ spare ∧
    if (106 * inputs + 60) * rate + 1000 < spare then (110 * inputs + 94) * rate ≤ spare
    else 4 * inputs * rate < 20 ∨ (110 * inputs + 60) * rate ≤ spare

instance decidableAffordable (inputs rate spare : Nat) :
    Decidable (Affordable inputs rate spare) :=
  inferInstanceAs (Decidable (_ ∧ ite _ _ _))

section Fee

variable (fits : (110 * inputs + 94) * feeRate.toNat < 2 ^ 62)
include fits

private theorem fees_toNat :
    (firstFee feeRate inputs).toNat = 106 * (inputs * feeRate.toNat) + 60 * feeRate.toNat ∧
      (estimate feeRate inputs 1).toNat =
        110 * (inputs * feeRate.toNat) + 60 * feeRate.toNat ∧
      (estimate feeRate inputs 2).toNat =
        110 * (inputs * feeRate.toNat) + 94 * feeRate.toNat ∧
      (estimate feeRate inputs 2).toNat < 2 ^ 62 := by
  have wide : (110 * inputs + 94) * feeRate.toNat < 2 ^ 64 := fits.trans (by norm_num)
  rw [toNat_firstFee wide, toNat_estimate (by norm_num) wide, toNat_estimate le_rfl wide]
  refine ⟨by ring, by ring, by ring, ?_⟩
  exact fits

private theorem feeLoop_two
    (covers : amount.toNat + (estimate feeRate inputs 2).toNat ≤ inputSum.toNat) (rounds : Nat)
    {fee : UInt64} (start : Settled feeRate inputs fee) :
    Guarded.feeLoop amount feeRate inputSum inputs rounds fee =
        .ok (feeLoop feeRate (inputSum - amount) inputs rounds fee) ∧
      amount.toNat + (feeLoop feeRate (inputSum - amount) inputs rounds fee).toNat ≤
        inputSum.toNat := by
  obtain ⟨-, one, two, -⟩ := fees_toNat fits
  have covered (fee : UInt64) (settled : Settled feeRate inputs fee) :
      amount.toNat + fee.toNat ≤ inputSum.toNat := by
    obtain ⟨outputs, ⟨least, most⟩, rfl⟩ := settled
    obtain rfl | rfl : outputs = 1 ∨ outputs = 2 := by omega
    · omega
    · exact covers
  obtain ⟨same, settled⟩ := feeLoop_rule fits (Settled feeRate inputs) covered
    (fun fee _ => settled_estimate fee) rounds start
  exact ⟨same, covered _ settled⟩

private theorem feeLoop_one
    (covers : amount.toNat + (estimate feeRate inputs 1).toNat ≤ inputSum.toNat)
    (little : inputSum.toNat ≤ amount.toNat + (estimate feeRate inputs 1).toNat + 1000)
    (rounds : Nat) :
    Guarded.feeLoop amount feeRate inputSum inputs rounds (estimate feeRate inputs 1) =
        .ok (feeLoop feeRate (inputSum - amount) inputs rounds (estimate feeRate inputs 1)) ∧
      amount.toNat + (feeLoop feeRate (inputSum - amount) inputs rounds
        (estimate feeRate inputs 1)).toNat ≤ inputSum.toNat := by
  have covered (fee : UInt64) (same : fee = estimate feeRate inputs 1) :
      amount.toNat + fee.toNat ≤ inputSum.toNat := same ▸ covers
  obtain ⟨same, stays⟩ := feeLoop_rule fits (fun fee => fee = estimate feeRate inputs 1) covered
    (fun fee same => by rw [same, outputsCount_of_covers covers, if_neg (by omega)]) rounds rfl
  exact ⟨same, covered _ stays⟩

private theorem affordable_iff (spare : Nat) :
    Affordable inputs feeRate.toNat spare ↔ (firstFee feeRate inputs).toNat ≤ spare ∧
      if (firstFee feeRate inputs).toNat + 1000 < spare then
        (estimate feeRate inputs 2).toNat ≤ spare
      else (estimate feeRate inputs 1).toNat < (firstFee feeRate inputs).toNat + 20 ∨
        (estimate feeRate inputs 1).toNat ≤ spare := by
  obtain ⟨first, one, two, -⟩ := fees_toNat fits
  have first' : (106 * inputs + 60) * feeRate.toNat = (firstFee feeRate inputs).toNat := by
    rw [first]
    ring
  have one' : (110 * inputs + 60) * feeRate.toNat = (estimate feeRate inputs 1).toNat := by
    rw [one]
    ring
  have two' : (110 * inputs + 94) * feeRate.toNat = (estimate feeRate inputs 2).toNat := by
    rw [two]
    ring
  have near : 4 * inputs * feeRate.toNat < 20 ↔
      (estimate feeRate inputs 1).toNat < (firstFee feeRate inputs).toNat + 20 := by
    rw [Nat.mul_assoc, one, first]
    omega
  rw [Affordable, first', one', two', near]

private theorem settledFee_of_affordable (funded : amount.toNat ≤ inputSum.toNat)
    (affordable : Affordable inputs feeRate.toNat (inputSum.toNat - amount.toNat)) :
    Guarded.settledFee amount feeRate inputSum inputs =
        .ok (settledFee feeRate (inputSum - amount) inputs) ∧
      amount.toNat + (settledFee feeRate (inputSum - amount) inputs).toNat ≤ inputSum.toNat := by
  obtain ⟨first, one, two, small⟩ := fees_toNat fits
  obtain ⟨starts, leads⟩ := (affordable_iff fits _).mp affordable
  have covers : amount.toNat + (firstFee feeRate inputs).toNat ≤ inputSum.toNat := by omega
  rw [Guarded.settledFee, firstFee_of_fits fits]
  change Guarded.feeLoop amount feeRate inputSum inputs 20 (firstFee feeRate inputs) = _ ∧ _
  rw [settledFee, feeLoop_of_covers fits covers, feeLoop]
  split
  · exact ⟨rfl, covers⟩
  · rename_i apart
    rw [outputsCount_of_covers covers] at apart ⊢
    by_cases more : amount.toNat + (firstFee feeRate inputs).toNat + 1000 < inputSum.toNat
    · rw [if_pos (by omega)] at leads
      rw [if_pos more]
      exact feeLoop_two fits (by omega) 19 ⟨2, by decide, rfl⟩
    · rw [if_neg (by omega)] at leads
      rw [if_neg more] at apart ⊢
      -- a first fee within 20 units of the estimate would have ended the loop
      have far := mt (close_iff (by omega) (by omega)).mpr apart
      exact feeLoop_one fits (by omega) (by omega) 19

private theorem raises_settledFee (funded : amount.toNat ≤ inputSum.toNat)
    (dear : ¬ Affordable inputs feeRate.toNat (inputSum.toNat - amount.toNat)) :
    Raises Fault.isCrash (Guarded.settledFee amount feeRate inputSum inputs) := by
  obtain ⟨first, one, two, small⟩ := fees_toNat fits
  rw [affordable_iff fits] at dear
  rw [Guarded.settledFee, firstFee_of_fits fits]
  change Raises _ (Guarded.feeLoop amount feeRate inputSum inputs 20 (firstFee feeRate inputs))
  by_cases covers : amount.toNat + (firstFee feeRate inputs).toNat ≤ inputSum.toNat
  · rw [feeLoop_of_covers fits covers, outputsCount_of_covers covers]
    by_cases more : amount.toNat + (firstFee feeRate inputs).toNat + 1000 < inputSum.toNat
    · rw [if_pos (by omega)] at dear
      rw [if_pos more, close_eq_false (by omega) (by omega), if_neg Bool.false_ne_true]
      exact raises_feeLoop (by omega) 18
    · rw [if_neg (by omega)] at dear
      rw [if_neg more, close_eq_false (by omega) (by omega), if_neg Bool.false_ne_true]
      exact raises_feeLoop (by omega) 18
  · exact raises_feeLoop (by omega) 19

end Fee

end Settling

section Planning

variable {utxos : List Utxo} {amount feeRate : UInt64}

/-- Where no operation leaves the range of a word: the goal of the selection fits, and the coins
chosen do not reach the amount or afford the fee. -/
def Covered (utxos : List Utxo) (amount feeRate : UInt64) : Prop :=
  (utxos = [] ∨ amount.toNat + 100000 < 2 ^ 64) ∧
    (spentBy (selectInputs amount utxos) < amount.toNat ∨
      Affordable (selectInputs amount utxos).length feeRate.toNat
        (spentBy (selectInputs amount utxos) - amount.toNat))

/-- The bounds on the coins and the rate, for the coins that are chosen. -/
structure Bounded (utxos : List Utxo) (amount feeRate : UInt64) : Prop where
  chosen : Chosen amount utxos
  sum : (inputSum (selectInputs amount utxos)).toNat = spentBy (selectInputs amount utxos)
  fits : (110 * (selectInputs amount utxos).length + 94) * feeRate.toNat < 2 ^ 62

private theorem bounded (values : spentBy utxos < 2 ^ 63)
    (rates : (utxos.length * 110 + 100) * feeRate.toNat < 2 ^ 62)
    (goal : utxos = [] ∨ amount.toNat + 100000 < 2 ^ 64) : Bounded utxos amount feeRate := by
  have chosen : Chosen amount utxos := chosen (by omega) goal
  refine ⟨chosen, toNat_inputSum (chosen.value.trans_lt (by omega)), ?_⟩
  refine (Nat.mul_le_mul_right _ ?_).trans_lt rates
  have := chosen.few
  omega

private theorem plan_of_short (bounded : Bounded utxos amount feeRate)
    (short : spentBy (selectInputs amount utxos) < amount.toNat) :
    Guarded.plan utxos amount feeRate = fail (.anyhow "Insufficient funds") := by
  have less : inputSum (selectInputs amount utxos) < amount := by
    rw [UInt64.lt_iff_toNat_lt, bounded.sum]
    exact short
  rw [Guarded.plan, bounded.chosen.taken, ok_bind, if_pos less]
  rfl

private theorem plan_of_funded (bounded : Bounded utxos amount feeRate)
    (funded : amount.toNat ≤ spentBy (selectInputs amount utxos)) :
    Guarded.plan utxos amount feeRate = (do
      let fee ← Guarded.settledFee amount feeRate (inputSum (selectInputs amount utxos))
        (selectInputs amount utxos).length
      let change ← Guarded.changeOf amount (inputSum (selectInputs amount utxos)) fee
      let cost ← Checked.add amount fee
      if inputSum (selectInputs amount utxos) < cost then
        fail (.anyhow "Insufficient funds (fees included)")
      pure (selectInputs amount utxos, change)) := by
  have enough : ¬ inputSum (selectInputs amount utxos) < amount := by
    rw [UInt64.lt_iff_toNat_lt, bounded.sum]
    omega
  rw [Guarded.plan, bounded.chosen.taken, ok_bind, if_neg enough]

private theorem plan_of_affordable (bounded : Bounded utxos amount feeRate)
    (funded : amount.toNat ≤ spentBy (selectInputs amount utxos))
    (affordable : Affordable (selectInputs amount utxos).length feeRate.toNat
      (spentBy (selectInputs amount utxos) - amount.toNat)) :
    Guarded.plan utxos amount feeRate = .ok (selectInputs amount utxos,
        inputSum (selectInputs amount utxos) - amount - createFee utxos amount feeRate) ∧
      ¬ inputSum (selectInputs amount utxos) < amount + createFee utxos amount feeRate := by
  rw [← bounded.sum] at funded affordable
  obtain ⟨settled, covers⟩ := settledFee_of_affordable bounded.fits funded affordable
  rw [← createFee] at settled covers
  have small := (inputSum (selectInputs amount utxos)).toNat_lt
  have cost : (amount + createFee utxos amount feeRate).toNat =
      amount.toNat + (createFee utxos amount feeRate).toNat := by
    rw [UInt64.toNat_add, Nat.mod_eq_of_lt (by omega)]
  have enough : ¬ inputSum (selectInputs amount utxos) <
      amount + createFee utxos amount feeRate := by
    rw [UInt64.lt_iff_toNat_lt, cost]
    omega
  refine ⟨?_, enough⟩
  rw [plan_of_funded bounded (bounded.sum ▸ funded), settled, ok_bind, changeOf_of_covers covers,
    ok_bind, Checked.add_of_lt (by omega), ok_bind, if_neg enough]
  rfl

/-- Where no operation leaves its range, the checks make no difference. -/
theorem createTx_of_covered {env : Env} (wallet : Wallet env) (recipient : String)
    (changeAddr : Option String) (values : spentBy utxos < 2 ^ 63)
    (rates : (utxos.length * 110 + 100) * feeRate.toNat < 2 ^ 62)
    (covered : Covered utxos amount feeRate) :
    Guarded.createTx wallet utxos recipient amount feeRate changeAddr =
      createTx wallet utxos recipient amount feeRate changeAddr := by
  have bounded : Bounded utxos amount feeRate := bounded values rates covered.1
  have order : inputSum (selectInputs amount utxos) < amount ↔
      spentBy (selectInputs amount utxos) < amount.toNat := by
    rw [UInt64.lt_iff_toNat_lt, bounded.sum]
  rw [Guarded.createTx, createTx]
  by_cases short : spentBy (selectInputs amount utxos) < amount.toNat
  · rw [plan_of_short bounded short, if_pos (order.mpr short)]
    rfl
  · obtain ⟨planned, enough⟩ := plan_of_affordable bounded (Nat.not_lt.mp short)
      (covered.2.resolve_left short)
    rw [planned, if_neg (mt order.mp short)]
    change _ = if inputSum (selectInputs amount utxos) < amount + createFee utxos amount feeRate
      then _ else _
    rw [if_neg enough]
    rfl

private theorem covered_of_not_raises (values : spentBy utxos < 2 ^ 63)
    (rates : (utxos.length * 110 + 100) * feeRate.toNat < 2 ^ 62)
    (fine : ¬ Raises Fault.isCrash (Guarded.plan utxos amount feeRate)) :
    Covered utxos amount feeRate := by
  by_cases goal : utxos = [] ∨ amount.toNat + 100000 < 2 ^ 64
  · refine ⟨goal, ?_⟩
    have bounded : Bounded utxos amount feeRate := bounded values rates goal
    by_contra dear
    obtain ⟨funded, dear⟩ := not_or.mp dear
    refine fine ?_
    rw [plan_of_funded bounded (Nat.not_lt.mp funded)]
    refine raises_bind.mpr (Or.inl (raises_settledFee bounded.fits ?_ ?_))
    · rw [bounded.sum]
      exact Nat.not_lt.mp funded
    · rw [bounded.sum]
      exact dear
  · obtain ⟨some_coin, beyond⟩ := not_or.mp goal
    refine absurd (raises_bind.mpr (Or.inl ?_)) fine
    refine raises_takeInputs (Nat.not_lt.mp beyond) ?_ 0
    intro empty
    have perm := List.perm_insertionSort (fun u v : Utxo => v.value ≤ u.value) utxos
    rw [empty] at perm
    exact some_coin perm.nil_eq.symm

/-- When the wallet's arithmetic stays within words, and what it then means that the funds are
reported as insufficient. -/
theorem selection_safe_iff (utxos : List Utxo) (amount feeRate : UInt64)
    (values : spentBy utxos < 2 ^ 63)
    (rates : (utxos.length * 110 + 100) * feeRate.toNat < 2 ^ 62) :
    (¬ Raises Fault.isCrash (Guarded.plan utxos amount feeRate) ↔
        Covered utxos amount feeRate) ∧
      (Covered utxos amount feeRate → ∀ e, Guarded.plan utxos amount feeRate = fail e →
        spentBy utxos < amount.toNat + (estimate feeRate utxos.length 2).toNat) := by
  have planned (covered : Covered utxos amount feeRate) :
      (Guarded.plan utxos amount feeRate = fail (.anyhow "Insufficient funds") ∧
        spentBy utxos < amount.toNat) ∨ ∃ plan, Guarded.plan utxos amount feeRate = .ok plan := by
    have bounded : Bounded utxos amount feeRate := bounded values rates covered.1
    by_cases short : spentBy (selectInputs amount utxos) < amount.toNat
    · refine Or.inl ⟨plan_of_short bounded short, ?_⟩
      rcases bounded.chosen.ends with all | enough
      · exact all ▸ short
      · omega
    · have affordable := covered.2.resolve_left short
      exact Or.inr ⟨_, (plan_of_affordable bounded (Nat.not_lt.mp short) affordable).1⟩
  refine ⟨⟨covered_of_not_raises values rates, ?_⟩, ?_⟩
  · intro covered
    rcases planned covered with ⟨failed, -⟩ | ⟨plan, done⟩
    · rw [failed]
      simp [Fault.isCrash]
    · rw [done]
      exact not_raises_ok plan
  · intro covered e failed
    rcases planned covered with ⟨-, less⟩ | ⟨plan, done⟩
    · omega
    · rw [done] at failed
      exact absurd failed (by simp [fail])

end Planning

theorem sample_selection_safe :
    ¬ Raises Fault.isCrash (Guarded.plan [sampleUtxo 200000] 100000 16) :=
  (selection_safe_iff [sampleUtxo 200000] 100000 16 (by decide +kernel) (by decide +kernel)).1.mpr
    ⟨Or.inr (by decide), Or.inr (by decide +kernel)⟩

/-- Three ways out of range: a coin that pays the amount but not the fee, an amount near the end of
the words, and a margin of 100 000 units that is less than the fee, with another coin at hand. In
the last case a build without checks reports insufficient funds. -/
theorem selection_out_of_range :
    (Guarded.plan [sampleUtxo 1000] 1000 1).map Prod.snd =
        .error (.panic "attempt to subtract with overflow") ∧
      (Guarded.plan [sampleUtxo 1000] 18446744073709551615 1).map Prod.snd =
        .error (.panic "attempt to add with overflow") ∧
      (Guarded.plan [sampleUtxo 300000, sampleUtxo 300000] 200000 1000).map Prod.snd =
        .error (.panic "attempt to subtract with overflow") ∧
      (createTx sampleWallet [sampleUtxo 300000, sampleUtxo 300000] "recipient" 200000 1000
        none).map Prod.snd = fail (.anyhow "Insufficient funds (fees included)") ∧
      (200000 : UInt64).toNat + (estimate 1000 2 2).toNat ≤
        spentBy [sampleUtxo 300000, sampleUtxo 300000] := by
  refine ⟨?_, ?_, ?_, ?_, ?_⟩ <;> decide +kernel

end Lyrion.Wallet
