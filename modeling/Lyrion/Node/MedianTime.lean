/- GID: Lyrion/Node/MedianTime
   digest: The median time of a stored chain, and that it never goes back where every block is
     later than the median before it. -/

import Lyrion.Library.OrderStatistics
import Lyrion.Node.Context

set_option autoImplicit false
set_option relaxedAutoImplicit false

namespace Lyrion.Node

open Library.ByteCodec Library.KeyValue Library.OrderStatistics Data Utils Tx

instance linearOrderUInt32 : LinearOrder UInt32 where
  le_refl := UInt32.le_refl
  le_trans _ _ _ := UInt32.le_trans
  le_antisymm _ _ := UInt32.le_antisymm
  le_total := UInt32.le_total
  lt_iff_le_not_ge := by
    intro a b
    rw [UInt32.le_iff_toNat_le, UInt32.le_iff_toNat_le, UInt32.lt_iff_toNat_lt]
    omega
  toDecidableLE := inferInstance
  toDecidableEq := inferInstance
  toDecidableLT := inferInstance

structure StoredChain (db : Db) (block : Nat → Block) (length : Nat) : Prop where
  blocks : ∀ i < length, StoredAt db i (block i)
  headers : ∀ i < length, loadHeader db i = .ok (block i).header

def timeOf (block : Nat → Block) (height : Nat) : UInt32 := (block height).header.timestamp

section Median

variable (time : Nat → UInt32)

def windowTimes (height : Nat) : List UInt32 := (medianWindow height).reverse.map time

def medianAt (height : Nat) : UInt32 := middle (windowTimes time height) 0

theorem length_windowTimes (height : Nat) :
    (windowTimes time height).length = height - (height - 10) + 1 := by
  simp [windowTimes, medianWindow]

theorem windowTimes_ne_nil (height : Nat) : windowTimes time height ≠ [] := by
  rw [← List.length_pos_iff, length_windowTimes]
  exact Nat.succ_pos _

private theorem windowTimes_grow {height : Nat} (early : height < 10) :
    windowTimes time (height + 1) = time (height + 1) :: windowTimes time height := by
  have start : height - 10 = 0 := by omega
  have next : height + 1 - 10 = 0 := by omega
  simp [windowTimes, medianWindow, start, next, List.range'_1_concat]

private theorem windowTimes_slide {height : Nat} (late : 10 ≤ height) :
    ∃ kept, windowTimes time height = kept ++ [time (height - 10)] ∧
      windowTimes time (height + 1) = time (height + 1) :: kept := by
  obtain ⟨start, rfl⟩ := Nat.exists_eq_add_of_le' late
  refine ⟨(List.range' (start + 1) 10).reverse.map time, ?_, ?_⟩
  · have window : medianWindow (start + 10) = start :: List.range' (start + 1) 10 := by
      rw [medianWindow, Nat.add_sub_cancel, Nat.add_sub_cancel_left, List.range'_succ]
    simp [windowTimes, window]
  · have window : medianWindow (start + 10 + 1) =
        List.range' (start + 1) 10 ++ [start + 10 + 1] := by
      rw [medianWindow, show start + 10 + 1 - 10 = start + 1 by omega,
        show start + 10 + 1 - (start + 1) + 1 = 10 + 1 by omega, List.range'_1_concat]
    simp [windowTimes, window]

variable {time}

private theorem medianAt_le_succ {height : Nat} (above : medianAt time height ≤ time (height + 1)) :
    medianAt time height ≤ medianAt time (height + 1) := by
  rcases Nat.lt_or_ge height 10 with early | late
  · rw [medianAt, medianAt, windowTimes_grow time early]
    exact middle_le_cons (windowTimes_ne_nil time height) above
  · obtain ⟨kept, before, after⟩ := windowTimes_slide time late
    rw [medianAt, before] at above
    rw [medianAt, medianAt, before, after]
    exact middle_le_slide above

theorem medianAt_mono {length : Nat}
    (rule : ∀ i, 0 < i → i < length → medianAt time (i - 1) < time i)
    {lower upper : Nat} (ordered : lower ≤ upper) (inside : upper < length) :
    medianAt time lower ≤ medianAt time upper := by
  induction upper, ordered using Nat.le_induction with
  | base => exact le_rfl
  | succ upper _ ih =>
      have next := rule (upper + 1) (Nat.succ_pos upper) inside
      exact (ih (Nat.lt_of_succ_lt inside)).trans (medianAt_le_succ next.le)

end Median

theorem getMedianTimestamp_of_stored {db : Db} {block : Nat → Block} {length : Nat}
    (chain : StoredChain db block length) {height : Nat} (inside : height < length) :
    getMedianTimestamp db height = .ok (medianAt (timeOf block) height) := by
  have found : ∀ i ∈ (medianWindow height).reverse, StoredAt db i (block i) := by
    intro i member
    have below := lt_of_mem_medianWindow (Nat.succ_pos height) (List.mem_reverse.mp member)
    exact chain.blocks i (by omega)
  have times := storedTimes_of_stored found
  unfold medianWindow at times
  simp only [getMedianTimestamp, times, medianAt, middle, nth, List.length_insertionSort]
  rfl

/-- Where every block after genesis is later than the median time at its parent's height, the median
time does not go back from any height to a later one. -/
theorem median_never_goes_back (db : Db) (block : Nat → Block) (length : Nat)
    (chain : StoredChain db block length)
    (rule : ∀ i, 0 < i → i < length → ∃ median, getMedianTimestamp db (i - 1) = .ok median ∧
      median < (block i).header.timestamp)
    (lower upper : Nat) (ordered : lower ≤ upper) (inside : upper < length) :
    ∃ before after, getMedianTimestamp db lower = .ok before ∧
      getMedianTimestamp db upper = .ok after ∧ before ≤ after := by
  refine ⟨_, _, getMedianTimestamp_of_stored chain (ordered.trans_lt inside),
    getMedianTimestamp_of_stored chain inside, medianAt_mono ?_ ordered inside⟩
  intro i positive below
  obtain ⟨median, found, later⟩ := rule i positive below
  have here := getMedianTimestamp_of_stored chain ((Nat.sub_le i 1).trans_lt below)
  obtain rfl := Except.ok.inj (here.symm.trans found)
  exact later

section Storing

variable (block : Nat → Block)

/-- A database with the first blocks of a chain, each under its height in 32 bytes for a hash. -/
def chainDb : Nat → Db
  | 0 => emptyDb
  | height + 1 =>
      write (chainDb height)
        [putCf .default (blockKey (beBytes 32 height)) (blockCodec.encode (block height)),
         putCf .default (heightKey height) (beBytes 32 height),
         putCf .default (headerKey height) (headerCodec.encode (block height).header)]

private theorem beBytes_ne (count : Nat) {i j : Nat} (inside : j < 256 ^ count) (below : i < j) :
    beBytes count i ≠ beBytes count j := by
  intro same
  exact below.ne (beBytes_injective (below.trans inside) inside same)

theorem get_chainDb {length : Nat} (bounded : length ≤ 2 ^ 64) {i : Nat} (inside : i < length) :
    get (chainDb block length) .default (blockKey (beBytes 32 i)) =
        some (blockCodec.encode (block i)) ∧
      get (chainDb block length) .default (heightKey i) = some (beBytes 32 i) ∧
      get (chainDb block length) .default (headerKey i) =
        some (headerCodec.encode (block i).header) := by
  induction length with
  | zero => omega
  | succ length ih =>
      rcases Nat.lt_or_eq_of_le (Nat.le_of_lt_succ inside) with earlier | rfl
      · obtain ⟨blocks, heights, headers⟩ := ih (by omega) earlier
        have short := beBytes_ne 8 (by omega) earlier
        have long := beBytes_ne 32 (by omega) earlier
        rw [chainDb, get_write_of_notMem, get_write_of_notMem, get_write_of_notMem]
        · exact ⟨blocks, heights, headers⟩
        all_goals
          simp [defaultKeys, putCf, blockKey, heightKey, headerKey, short, long, Write.key]
      · simp [chainDb, Data.get, write, putCf, lookup_applyWrite, Write.key, Write.left, blockKey,
          heightKey, headerKey]

theorem chainDb_stored {length : Nat} (bounded : length ≤ 2 ^ 64)
    (sized : ∀ i < length, (block i).size < 2 ^ 64) :
    StoredChain (chainDb block length) block length := by
  constructor
  · intro i inside
    obtain ⟨found, indexed, _⟩ := get_chainDb block bounded inside
    exact ⟨sized i inside, _, indexed, found⟩
  · intro i inside
    exact loadHeader_of_stored (get_chainDb block bounded inside).2.2

end Storing

def sampleUneven (height : Nat) : Block :=
  { sampleBlock [] with header := { (sampleBlock []).header with
    timestamp := [100, 200, 300, 250, 400, 410, 405, 420, 430, 440, 450, 408, 460].getD height 0 } }

theorem uneven_median_grows :
    timeOf sampleUneven 11 < timeOf sampleUneven 10 ∧
      ∃ before after, getMedianTimestamp (chainDb sampleUneven 13) 3 = .ok before ∧
        getMedianTimestamp (chainDb sampleUneven 13) 12 = .ok after ∧ before ≤ after := by
  have stored : StoredChain (chainDb sampleUneven 13) sampleUneven 13 :=
    chainDb_stored sampleUneven (by decide) (by decide +kernel)
  have times : ∀ i < 13, 0 < i →
      medianAt (timeOf sampleUneven) (i - 1) < timeOf sampleUneven i := by
    decide +kernel
  refine ⟨by decide +kernel, median_never_goes_back (chainDb sampleUneven 13) sampleUneven 13 stored
    ?_ 3 12 (by omega) (by omega)⟩
  intro i positive below
  exact ⟨_, getMedianTimestamp_of_stored stored (by omega), times i below positive⟩

end Lyrion.Node
