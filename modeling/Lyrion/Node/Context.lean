/- GID: Lyrion/Node/Context
   digest: Required bits and median time as functions of a block's ancestors, and when the lookups
     by height give them. -/

import Lyrion.Node.History

set_option autoImplicit false
set_option relaxedAutoImplicit false

namespace Lyrion.Node

open Library.ByteCodec Library.KeyValue Data Utils Tx

/-- The ancestors of a block at the given height: one for each height below, each the parent of
the next. -/
structure AncestorPath (env : Env) (height : Nat) where
  block : Nat → Block
  hash : Nat → Hash
  hashed : ∀ i < height, headerHash env (block i).header = .ok (hash i)
  linked : ∀ i, i + 1 < height → (block (i + 1)).header.prevHash = hash i
  sized : ∀ i < height, (block i).size < 2 ^ 64

def medianWindow (height : Nat) : List Nat :=
  List.range' (height - 10) (height - (height - 10) + 1)

def headerHeights (height : Nat) : List Nat :=
  if height % difficultyAdjustInterval ≠ 0 then [height - 1]
  else [height - difficultyAdjustInterval, height - 1]

theorem lt_of_mem_medianWindow {height i : Nat} (positive : 0 < height)
    (member : i ∈ medianWindow (height - 1)) : i < height := by
  rw [medianWindow, List.mem_range'_1] at member
  omega

def StoredAt (db : Db) (height : Nat) (block : Block) : Prop :=
  block.size < 2 ^ 64 ∧ ∃ hash, get db .default (heightKey height) = some hash ∧
    get db .default (blockKey hash) = some (blockCodec.encode block)

theorem storedTimes_of_stored {db : Db} {block : Nat → Block} {heights : List Nat}
    (stored : ∀ i ∈ heights, StoredAt db i (block i)) :
    storedTimes db heights = .ok (heights.map fun i => (block i).header.timestamp) := by
  induction heights with
  | nil => rfl
  | cons i heights ih =>
      obtain ⟨⟨sized, hash, indexed, found⟩, later⟩ := List.forall_mem_cons.mp stored
      have read : blockCodec.read (blockCodec.encode (block i)) = some (block i) :=
        blockCodec.read_encode _ sized
      simp only [storedTimes, indexed, Option.bind_some, found, ih later, read]
      rfl

section Path

variable {env : Env} {height : Nat} (path : AncestorPath env height)

def AncestorPath.median : UInt32 :=
  let times := (medianWindow (height - 1)).reverse.map fun i => (path.block i).header.timestamp
  let sorted := times.insertionSort (· ≤ ·)
  sorted.getD (sorted.length / 2) 0

def AncestorPath.nextBits : Result UInt32 :=
  let endHeader := (path.block (height - 1)).header
  if height % difficultyAdjustInterval ≠ 0 then .ok endHeader.bits
  else do
    let startHeader := (path.block (height - difficultyAdjustInterval)).header
    let actualTime := (endHeader.timestamp - startHeader.timestamp).toNat
    let oldTarget ← compactToTarget endHeader.bits
    let genesisTarget ← compactToTarget 0x1d00ffff
    if endHeader.timestamp ≤ path.median then pure (targetToCompact oldTarget)
    else pure (targetToCompact (retarget oldTarget actualTime genesisTarget))

def StoresPath (db : Db) : Prop :=
  ∀ i < height, get db .default (blockKey (path.hash i).toList) =
    some (blockCodec.encode (path.block i))

/-- The height index points to the ancestors where the context is looked up. -/
structure ActiveOn (db : Db) : Prop where
  headers : ∀ i ∈ headerHeights height,
    get db .default (headerKey i) = some (headerCodec.encode (path.block i).header)
  hashes : ∀ i ∈ medianWindow (height - 1),
    get db .default (heightKey i) = some (path.hash i).toList

variable {path} {db : Db}

private theorem getMedianTimestamp_of_path (positive : 0 < height) (stored : StoresPath path db)
    (active : ActiveOn path db) : getMedianTimestamp db (height - 1) = .ok path.median := by
  have found : ∀ i ∈ (medianWindow (height - 1)).reverse, StoredAt db i (path.block i) := by
    intro i member
    have inside := List.mem_reverse.mp member
    have below := lt_of_mem_medianWindow positive inside
    exact ⟨path.sized i below, _, active.hashes i inside, stored i below⟩
  have times := storedTimes_of_stored found
  unfold medianWindow at times
  simp only [getMedianTimestamp, times]
  rfl

private theorem headerAt_of_path (active : ActiveOn path db) {i : Nat}
    (member : i ∈ headerHeights height) : headerAt db i = .ok (path.block i).header := by
  rw [headerAt, loadHeader_of_stored (active.headers i member)]

theorem usizeSub_of_le {a b : Nat} (covered : b ≤ a) : usizeSub a b = a - b := if_pos covered

private theorem calculateNextBits_of_path (positive : 0 < height) (stored : StoresPath path db)
    (active : ActiveOn path db) : calculateNextBits db height = path.nextBits := by
  have last := usizeSub_of_le (Nat.succ_le_of_lt positive)
  rw [calculateNextBits, AncestorPath.nextBits]
  by_cases plain : height % difficultyAdjustInterval ≠ 0
  · have header := headerAt_of_path active (i := height - 1) (by simp [headerHeights, plain])
    rw [if_pos plain, if_pos plain, last, header]
    rfl
  · have period : height % difficultyAdjustInterval = 0 := not_not.mp plain
    have long : difficultyAdjustInterval ≤ height :=
      Nat.le_of_dvd positive (Nat.dvd_of_mod_eq_zero period)
    have first := headerAt_of_path active (i := height - difficultyAdjustInterval)
      (by simp [headerHeights, period])
    have header := headerAt_of_path active (i := height - 1) (by simp [headerHeights, period])
    rw [if_neg plain, if_neg plain, last, usizeSub_of_le long, first, header,
      getMedianTimestamp_of_path positive stored active]
    rfl

end Path

/-- Two states give a child of the same block the same context, if the index of both is on the
path to that block at the heights that are looked up. -/
theorem context_of_ancestors (env : Env) (height : Nat) (positive : 0 < height)
    (path : AncestorPath env height) (db other : Db) (stored : StoresPath path db)
    (alsoStored : StoresPath path other) (active : ActiveOn path db)
    (alsoActive : ActiveOn path other) :
    calculateNextBits db height = calculateNextBits other height ∧
      getMedianTimestamp db (height - 1) = getMedianTimestamp other (height - 1) := by
  constructor
  · rw [calculateNextBits_of_path positive stored active,
      calculateNextBits_of_path positive alsoStored alsoActive]
  · rw [getMedianTimestamp_of_path positive stored active,
      getMedianTimestamp_of_path positive alsoStored alsoActive]

def sampleLate (delay : UInt32) : Block :=
  ⟨{ (sampleRival 1).header with timestamp := genesisTimestamp + delay }, (sampleRival 1).txs⟩

/-- Both of two children are stored, and the index has the one with the given delay. -/
def sampleBranches (delay : UInt32) : Db :=
  write emptyDb
    [putCf .default (blockKey (sampleHash (sampleBlock [])).toList)
       (blockCodec.encode (sampleBlock [])),
     putCf .default (blockKey (sampleHash (sampleLate 1)).toList)
       (blockCodec.encode (sampleLate 1)),
     putCf .default (blockKey (sampleHash (sampleLate 2)).toList)
       (blockCodec.encode (sampleLate 2)),
     putCf .default (heightKey 0) (sampleHash (sampleBlock [])).toList,
     putCf .default (headerKey 0) (headerCodec.encode (sampleBlock []).header),
     putCf .default (heightKey 1) (sampleHash (sampleLate delay)).toList,
     putCf .default (headerKey 1) (headerCodec.encode (sampleLate delay).header)]

def samplePath : AncestorPath sampleEnv 2 where
  block i := if i = 0 then sampleBlock [] else sampleLate 1
  hash i := if i = 0 then sampleHash (sampleBlock []) else sampleHash (sampleLate 1)
  hashed := by decide +kernel
  linked i below := by
    obtain rfl : i = 0 := by omega
    rfl
  sized := by decide +kernel

/-- Two nodes that store both children disagree about the median time for a child of the first. -/
theorem active_branch_moves_median :
    StoresPath samplePath (sampleBranches 1) ∧ StoresPath samplePath (sampleBranches 2) ∧
      getMedianTimestamp (sampleBranches 1) 1 = .ok (genesisTimestamp + 1) ∧
      getMedianTimestamp (sampleBranches 2) 1 = .ok (genesisTimestamp + 2) := by
  refine ⟨?_, ?_, by decide +kernel, by decide +kernel⟩
  · unfold StoresPath
    decide +kernel
  · unfold StoresPath
    decide +kernel

/-- The first child's branch, on a node that has not seen the second child. -/
def sampleLone : Db :=
  write (sampleBranches 1) [deleteCf .default (blockKey (sampleHash (sampleLate 2)).toList)]

theorem active_path_same_context :
    calculateNextBits (sampleBranches 1) 2 = calculateNextBits sampleLone 2 ∧
      getMedianTimestamp (sampleBranches 1) 1 = getMedianTimestamp sampleLone 1 := by
  refine context_of_ancestors sampleEnv 2 (by decide) samplePath (sampleBranches 1) sampleLone
    ?_ ?_ ⟨?_, ?_⟩ ⟨?_, ?_⟩
  · unfold StoresPath
    decide +kernel
  · unfold StoresPath
    decide +kernel
  all_goals decide +kernel

end Lyrion.Node
