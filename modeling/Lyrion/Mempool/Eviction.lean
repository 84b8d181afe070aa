/- GID: Lyrion/Mempool/Eviction
   digest: When an insertion returns, and that the pool is within its limits when it does. -/

import Lyrion.Mempool.Bookkeeping

set_option autoImplicit false
set_option relaxedAutoImplicit false

namespace Lyrion.Mempool

open Library.ByteCodec Library.KeyValue Data Utils Tx

variable {env : Env} {choices : Choices} {m m' : Mempool} {db : Db} {tx : Transaction}

def OverLimits (m : Mempool) : Prop := m.totalBytes.toNat > m.maxSize ∨ m.txs.keys.card > maxTxs

instance decidableOverLimits (m : Mempool) : Decidable m.OverLimits :=
  inferInstanceAs (Decidable (_ ∨ _))

/-- `insert` with the guard of `avg_fee`, that it holds from the update of the average to its end.
A round of eviction waits for that guard, and so does the removal of an orphaned entry. -/
def insertGuarded (env : Env) (choices : Choices) (db : Db) (tx : Transaction) (m : Mempool) :
    Option (Result Bool × Mempool) :=
  if txHash env tx ∈ m.txs then some (.ok false, m)
  else
    match m.checkInsert env choices db tx with
    | .error e => some (.error e, m)
    | .ok entry =>
        let stored := m.store choices (txHash env tx) entry
        if stored.OverLimits then none
        else if (choices.enumerate stored.txs.keys).any stored.isOrphaned then none
        else some (.ok true, stored)

def evictRounds (env : Env) (choices : Choices) : Nat → Nat → Mempool → Mempool
  | 0, _, m => m
  | n + 1, round, m =>
      evictRounds env choices n (round + 1) (m.evictLowFeePackage env choices round)

private theorem evictLoop_succ (env : Env) (choices : Choices) (fuel round : Nat) (m : Mempool) :
    m.evictLoop env choices (fuel + 1) round =
      if m.OverLimits then
        (m.evictLowFeePackage env choices round).evictLoop env choices fuel (round + 1)
      else some m :=
  rfl

private theorem evictLoop_eq_some {fuel round : Nat} :
    m.evictLoop env choices fuel round = some m' ↔
      ∃ n < fuel, evictRounds env choices n round m = m' ∧ ¬ m'.OverLimits ∧
        ∀ k < n, (evictRounds env choices k round m).OverLimits := by
  induction fuel generalizing m round with
  | zero => simp [evictLoop]
  | succ fuel ih =>
      rw [evictLoop_succ]
      by_cases large : m.OverLimits
      · rw [if_pos large, ih]
        constructor
        · rintro ⟨n, less, reached, small, earlier⟩
          refine ⟨n + 1, Nat.succ_lt_succ less, reached, small, fun k below => ?_⟩
          cases k with
          | zero => exact large
          | succ k => exact earlier k (Nat.lt_of_succ_lt_succ below)
        · rintro ⟨n, less, reached, small, earlier⟩
          cases n with
          | zero =>
              obtain rfl : m = m' := reached
              exact absurd large small
          | succ n =>
              refine ⟨n, Nat.lt_of_succ_lt_succ less, reached, small, fun k below => ?_⟩
              exact earlier (k + 1) (Nat.succ_lt_succ below)
      · rw [if_neg large]
        constructor
        · rintro ⟨⟩
          exact ⟨0, Nat.succ_pos fuel, rfl, large, fun k below => absurd below (Nat.not_lt_zero k)⟩
        · rintro ⟨n, -, reached, -, earlier⟩
          cases n with
          | zero => exact congrArg some reached
          | succ n => exact absurd (earlier 0 (Nat.succ_pos n)) large

private theorem evictLoop_isSome_iff (env : Env) (choices : Choices) (m : Mempool) :
    (m.evictLoop env choices (m.heap.length + 1) 0).isSome ↔
      ∃ n, ¬ (evictRounds env choices n 0 m).OverLimits := by
  -- The rounds for the whole heap are as many as can change anything.
  constructor
  · intro returns
    obtain ⟨m', done⟩ := Option.isSome_iff_exists.mp returns
    obtain ⟨n, -, rfl, small, -⟩ := evictLoop_eq_some.mp done
    exact ⟨n, small⟩
  · intro some_round
    by_contra unfinished
    rw [Option.not_isSome_iff_eq_none] at unfinished
    classical
    have first : m.evictLoop env choices (Nat.find some_round + 1) 0 =
        some (evictRounds env choices (Nat.find some_round) 0 m) :=
      evictLoop_eq_some.mpr ⟨_, Nat.lt_succ_self _, rfl, Nat.find_spec some_round,
        fun k below => not_not.mp (Nat.find_min some_round below)⟩
    rw [evictLoop_never_ends unfinished] at first
    exact absurd first (by simp)

private theorem removeAll_within (books : Balanced m) (small : ¬ m.OverLimits) (txids : List Hash) :
    ¬ (m.removeAll txids).OverLimits := by
  have left := removeAll_leftOf m txids
  have bytes : (m.removeAll txids).totalBytes.toNat ≤ m.totalBytes.toNat := by
    rw [(hereditary_balanced.removeAll books txids).bytes, books.bytes]
    exact total_mono entrySize fun txid entry => left.lookup
  have entries : (m.removeAll txids).txs.keys.card ≤ m.txs.keys.card :=
    Finset.card_le_card left.subset
  have limit := left.maxSize
  unfold OverLimits at small ⊢
  omega

/-- Where the guarded insertion returns, it does what the insertion without the guard does. -/
theorem insert_eq_of_guarded {result : Result Bool × Mempool}
    (returns : m.insertGuarded env choices db tx = some result) :
    m.insert env choices db tx = some result := by
  unfold insertGuarded at returns
  unfold Mempool.insert
  by_cases pooled : txHash env tx ∈ m.txs
  · simpa only [pooled, if_true] using returns
  · cases passed : m.checkInsert env choices db tx with
    | error e => simpa only [pooled, if_false, passed] using returns
    | ok entry =>
        simp only [pooled, if_false, passed] at returns ⊢
        generalize m.store choices (txHash env tx) entry = stored at returns ⊢
        split at returns
        case isTrue => exact absurd returns (by simp)
        case isFalse small =>
          split at returns
          case isTrue => exact absurd returns (by simp)
          case isFalse clean =>
            have nothing : (choices.enumerate stored.txs.keys).filter stored.isOrphaned = [] := by
              rw [List.filter_eq_nil_iff]
              intro txid member orphaned
              exact clean (List.any_eq_true.mpr ⟨txid, member, orphaned⟩)
            rw [evictLoop_succ, if_neg small, Option.map_some, removeOrphanedTxs, nothing]
            exact returns

private theorem exists_orphaned_iff (choices : Choices) (m : Mempool) :
    (choices.enumerate m.txs.keys).any m.isOrphaned = true ↔ ∃ txid, m.isOrphaned txid = true := by
  rw [List.any_eq_true]
  refine exists_congr fun txid => and_iff_right_of_imp fun orphaned => ?_
  rw [choices.mem_enumerate]
  by_contra absent
  have unknown : m.txs.lookup txid = none := notMem_pooled.mp absent
  simp [isOrphaned, unknown] at orphaned

private theorem within_of_not_overLimits (small : ¬ m.OverLimits) :
    m.totalBytes.toNat ≤ m.maxSize ∧ m.pooled.card ≤ maxTxs := by
  unfold OverLimits at small
  unfold pooled
  omega

theorem insertGuarded_isSome_iff (env : Env) (choices : Choices) (db : Db) (tx : Transaction)
    (m : Mempool) :
    (m.insertGuarded env choices db tx).isSome ↔
      ∀ entry, txHash env tx ∉ m.pooled → m.checkInsert env choices db tx = .ok entry →
        ¬ (m.store choices (txHash env tx) entry).OverLimits ∧
          ∀ txid, (m.store choices (txHash env tx) entry).isOrphaned txid = false := by
  unfold insertGuarded
  by_cases pooled : txHash env tx ∈ m.txs
  · simp [pooled, Mempool.pooled, Finmap.mem_keys]
  · cases passed : m.checkInsert env choices db tx with
    | error e => simp [pooled]
    | ok entry =>
        simp only [pooled, if_false, Mempool.pooled, Finmap.mem_keys, not_false_eq_true,
          Except.ok.injEq, forall_eq', true_imp_iff]
        split
        case isTrue large => simp [large]
        case isFalse small =>
          split
          case isTrue orphaned =>
            obtain ⟨txid, marked⟩ := (exists_orphaned_iff choices _).mp orphaned
            refine iff_of_false (by simp) fun clean => ?_
            exact absurd ((clean.2 txid).symm.trans marked) (by simp)
          case isFalse clean =>
            refine iff_of_true rfl ⟨small, fun txid => ?_⟩
            rw [← Bool.not_eq_true]
            exact fun marked => clean ((exists_orphaned_iff choices _).mpr ⟨txid, marked⟩)

private theorem insert_isSome_iff (env : Env) (choices : Choices) (db : Db) (tx : Transaction)
    (m : Mempool) :
    (m.insert env choices db tx).isSome ↔
      ∀ entry, txHash env tx ∉ m.pooled → m.checkInsert env choices db tx = .ok entry →
        ∃ n, ¬ (evictRounds env choices n 0
          (m.store choices (txHash env tx) entry)).OverLimits := by
  unfold Mempool.insert
  by_cases pooled : txHash env tx ∈ m.txs
  · simp [pooled, Mempool.pooled, Finmap.mem_keys]
  · cases passed : m.checkInsert env choices db tx with
    | error e => simp [pooled]
    | ok entry =>
        simp only [pooled, if_false, Mempool.pooled, Finmap.mem_keys, not_false_eq_true,
          Except.ok.injEq, forall_eq', true_imp_iff, Option.isSome_map]
        exact evictLoop_isSome_iff env choices _

theorem insertGuarded_eq_some {outcome : Result Bool}
    (returns : m.insertGuarded env choices db tx = some (outcome, m')) :
    (m' = m ∧ outcome ≠ .ok true) ∨
      (outcome = .ok true ∧ txHash env tx ∉ m.pooled ∧
        ∃ entry, m.checkInsert env choices db tx = .ok entry ∧
          m' = m.store choices (txHash env tx) entry ∧ ¬ m'.OverLimits) := by
  unfold insertGuarded at returns
  split at returns
  case isTrue =>
    obtain ⟨rfl, rfl⟩ := Prod.mk.inj (Option.some.inj returns)
    exact Or.inl ⟨rfl, by simp⟩
  case isFalse fresh =>
    split at returns
    · obtain ⟨rfl, rfl⟩ := Prod.mk.inj (Option.some.inj returns)
      exact Or.inl ⟨rfl, by simp⟩
    · rename_i entry passed
      simp only at returns
      split at returns
      case isTrue => exact absurd returns (by simp)
      case isFalse small =>
        split at returns
        · exact absurd returns (by simp)
        · obtain ⟨rfl, rfl⟩ := Prod.mk.inj (Option.some.inj returns)
          refine Or.inr ⟨rfl, ?_, entry, passed, rfl, small⟩
          exact fun pooled => fresh (Finmap.mem_keys.mp pooled)

private theorem insertGuarded_within
    (returns : m.insertGuarded env choices db tx = some (.ok true, m')) :
    ¬ m'.OverLimits := by
  rcases insertGuarded_eq_some returns with ⟨-, refused⟩ | ⟨-, -, entry, -, -, small⟩
  · exact absurd rfl refused
  · exact small

private theorem insert_within (books : Balanced m) (few : Few m)
    (returns : m.insert env choices db tx = some (.ok true, m')) : ¬ m'.OverLimits := by
  rcases insert_eq_some returns with
    ⟨-, refused⟩ | ⟨-, fresh, entry, evicted, passed, looped, rfl⟩
  · exact absurd rfl refused
  · obtain ⟨walked, inputSum, admitted⟩ := checkInsert_eq_ok passed
    obtain ⟨kept, -⟩ :=
      hereditary_balanced.evictLoop (store_books books few fresh admitted) looped
    obtain ⟨-, -, -, small, -⟩ := evictLoop_eq_some.mp looped
    exact removeAll_within kept small _

/-- An insertion that is refused returns at once. One that is admitted returns exactly when the pool
with the new entry is within its limits and has no orphaned entries; without the guard, when some
number of rounds brings it within its limits. If it returns `true`, the pool is within its
limits. -/
theorem insert_returns_iff (env : Env) (choices : Choices) (db : Db) (tx : Transaction)
    (m : Mempool) :
    ((m.insertGuarded env choices db tx).isSome ↔
        ∀ entry, txHash env tx ∉ m.pooled → m.checkInsert env choices db tx = .ok entry →
          ¬ (m.store choices (txHash env tx) entry).OverLimits ∧
            ∀ txid, (m.store choices (txHash env tx) entry).isOrphaned txid = false) ∧
      ((m.insert env choices db tx).isSome ↔
        ∀ entry, txHash env tx ∉ m.pooled → m.checkInsert env choices db tx = .ok entry →
          ∃ n, ¬ (evictRounds env choices n 0
            (m.store choices (txHash env tx) entry)).OverLimits) ∧
      (∀ m', m.insertGuarded env choices db tx = some (.ok true, m') →
        m'.totalBytes.toNat ≤ m'.maxSize ∧ m'.pooled.card ≤ maxTxs) ∧
      (Balanced m → Few m → ∀ m', m.insert env choices db tx = some (.ok true, m') →
        m'.totalBytes.toNat ≤ m'.maxSize ∧ m'.pooled.card ≤ maxTxs) := by
  refine ⟨insertGuarded_isSome_iff env choices db tx m, insert_isSome_iff env choices db tx m,
    ?_, ?_⟩
  · intro m' returns
    exact within_of_not_overLimits (insertGuarded_within returns)
  · intro books few m' returns
    exact within_of_not_overLimits (insert_within books few returns)

/-- The choices of a clock and tables as in `sampleChoices`, with a given average of the fee
rates. -/
def averagedChoices (average : UInt64) : Choices :=
  { sampleChoices with avgFee := fun _ => average }

/-- The only entry of a pool has the average rate, so it is not evicted from a pool that is too
small for it, and the insertion does not return, with the guard or without it. -/
theorem eviction_never_ends :
    ((new 60).checkInsert sampleEnv (averagedChoices 51) sampleCoinDb (sampleSpend [])).toOption.map
        (fun entry => (entry.tx.size, entry.feePerByte)) = some (98, 51) ∧
      (new 60).insertGuarded sampleEnv (averagedChoices 51) sampleCoinDb (sampleSpend []) = none ∧
      (new 60).insert sampleEnv (averagedChoices 51) sampleCoinDb (sampleSpend []) = none := by
  refine ⟨by decide +kernel, ?_, ?_⟩
  all_goals
    rw [← Option.map_eq_none_iff (f := Prod.fst)]
    decide +kernel

end Lyrion.Mempool
