/- GID: Lyrion/Mempool/Selection
   digest: The sizes of the selected transactions add up to no more than was asked for. -/

import Lyrion.Mempool

set_option autoImplicit false
set_option relaxedAutoImplicit false

namespace Lyrion.Mempool

open Library.KeyValue Data Utils Tx

variable {choices : Choices} {m : Mempool} {maxSize : Nat}

def totalSize (txs : List Transaction) : Nat := (txs.map Transaction.size).sum

private theorem collectPackage_size {fuel : Nat} {stack : List Hash} {package : Package}
    (counted : package.size = totalSize package.txs) :
    (m.collectPackage choices fuel stack package).size =
      totalSize (m.collectPackage choices fuel stack package).txs := by
  induction fuel generalizing stack package with
  | zero => cases stack <;> exact counted
  | succ fuel ih =>
      cases stack with
      | nil => exact counted
      | cons parent stack =>
          rw [collectPackage]
          split
          case isTrue => exact ih counted
          case isFalse =>
            cases m.txs.lookup parent with
            | none => exact ih counted
            | some entry =>
                refine ih ?_
                show package.size + entry.tx.size = totalSize (entry.tx :: package.txs)
                rw [counted, totalSize, totalSize, List.map_cons, List.sum_cons, Nat.add_comm]

/-- The counter of a selection is the size of what it holds, and is within the limit. -/
structure Fits (maxSize : Nat) (s : Selection) : Prop where
  counted : s.size = totalSize s.selected
  bounded : s.size ≤ maxSize

private theorem selectFrom_fits {s : Selection} (fits : Fits maxSize s) (txid : Hash) :
    ∃ s', m.selectFrom choices maxSize s txid = .ok s' ∧ Fits maxSize s' := by
  unfold selectFrom
  split
  case isTrue => exact ⟨s, rfl, fits⟩
  case isFalse =>
    cases m.txs.lookup txid with
    | none => exact ⟨s, rfl, fits⟩
    | some entry =>
        have size := @collectPackage_size choices m maxPackageDepth
          (choices.enumerate entry.dependsOn).reverse
          ⟨[entry.tx], entry.tx.size, [txid], ∅, s.visitedPackages⟩ (by simp [totalSize])
        simp only [Nat.not_lt.mpr fits.bounded, if_false]
        split
        case isTrue room =>
          refine ⟨_, rfl, ?_, ?_⟩
          · show s.size + _ = totalSize (s.selected ++ _)
            rw [totalSize, List.map_append, List.sum_append, fits.counted, size]
            rfl
          · have := fits.bounded
            show s.size + _ ≤ maxSize
            omega
        case isFalse => exact ⟨_, rfl, fits.counted, fits.bounded⟩

private theorem foldlM_selectFrom_fits {s : Selection} (fits : Fits maxSize s) (txids : List Hash) :
    ∃ s', txids.foldlM (m.selectFrom choices maxSize) s = .ok s' ∧ Fits maxSize s' := by
  induction txids generalizing s with
  | nil => exact ⟨s, rfl, fits⟩
  | cons txid txids ih =>
      obtain ⟨next, one, kept⟩ := selectFrom_fits fits txid
      rw [List.foldlM_cons, one]
      exact ih kept

private theorem selectRates_fits {s : Selection} (fits : Fits maxSize s) (rates : List UInt64) :
    ∃ s', m.selectRates choices maxSize rates s = .ok s' ∧ Fits maxSize s' := by
  induction rates generalizing s with
  | nil => exact ⟨s, rfl, fits⟩
  | cons rate rates ih =>
      rw [selectRates]
      split
      case isTrue => exact ⟨s, rfl, fits⟩
      case isFalse =>
        obtain ⟨next, one, kept⟩ := foldlM_selectFrom_fits fits
          (sorted hashLe ((m.feeIndex.lookup rate).getD ∅))
        rw [one]
        exact ih kept

theorem exists_selectTxs (m : Mempool) (choices : Choices) (maxSize : Nat) :
    ∃ txs, m.selectTxs choices maxSize = .ok txs ∧ totalSize txs ≤ maxSize := by
  obtain ⟨s, done, fits⟩ : ∃ s, m.selectRates choices maxSize (sorted (· ≥ ·) m.feeIndex.keys)
      ⟨[], 0, ∅, ∅⟩ = .ok s ∧ Fits maxSize s := selectRates_fits ⟨rfl, Nat.zero_le _⟩ _
  refine ⟨s.selected, ?_, fits.counted ▸ fits.bounded⟩
  rw [selectTxs, done]
  rfl

end Lyrion.Mempool
