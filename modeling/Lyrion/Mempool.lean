/- GID: Lyrion/Mempool
   digest: The transaction pool: admission, cascading removal, eviction, expiry and selection. -/

import Lyrion.Tx

set_option autoImplicit false
set_option relaxedAutoImplicit false

namespace Lyrion

open Library.ByteCodec Library.KeyValue Data Utils Tx

structure MempoolEntry where
  tx : Transaction
  feePerByte : UInt64
  time : Nat
  dependsOn : Finset Hash
  fee : UInt64

/-- The tables of `Mempool`. The binary heaps are lists in no particular order. The last field is
not in the source: for each `fetch_sub` on `total_bytes`, the value it found and the amount. -/
structure Mempool where
  txs : Map Hash MempoolEntry
  heap : List MempoolEntry
  totalBytes : UInt64
  byParent : Map Hash (List Hash)
  feeIndex : Map UInt64 (Finset Hash)
  ttlHeap : List (Nat × Hash)
  maxSize : Nat
  expirationIndex : Map Nat (List Hash)
  keyImages : Map Bytes Hash
  subtractions : List (UInt64 × Nat)

def hashLe (a b : Hash) : Prop := u256FromBe a ≤ u256FromBe b

instance : DecidableRel hashLe := fun a b => Nat.decLe (u256FromBe a) (u256FromBe b)

instance : IsTrans Hash hashLe := ⟨fun _ _ _ first second => Nat.le_trans first second⟩

instance : Std.Antisymm hashLe :=
  ⟨fun _ _ first second => u256FromBe_injective (Nat.le_antisymm first second)⟩

instance : Std.Total hashLe := ⟨fun a b => Nat.le_total (u256FromBe a) (u256FromBe b)⟩

/-- What one operation finds that the pool does not fix: the clock, the average fee rate at each
round of eviction, and the orders in which hash tables and heaps are stored. -/
structure Choices where
  nowMs : Option Nat
  avgFee : Nat → UInt64
  enumerate : Finset Hash → List Hash
  nodup_enumerate : ∀ s, (enumerate s).Nodup
  mem_enumerate : ∀ s h, h ∈ enumerate s ↔ h ∈ s
  heapOrder : List MempoolEntry → List MempoolEntry
  heapOrder_perm : ∀ heap, (heapOrder heap).Perm heap
  ttlOrder : List (Nat × Hash) → List (Nat × Hash)
  ttlOrder_perm : ∀ heap, (ttlOrder heap).Perm heap

/-- `BinaryHeap::pop` on a stored order: an element that no other one is above. -/
def heapPop {α : Type} (above : α → α → Bool) : List α → Option (α × List α)
  | [] => none
  | x :: xs =>
      match heapPop above xs with
      | none => some (x, [])
      | some (top, rest) => if above top x then some (top, x :: rest) else some (x, xs)

/-- `MempoolEntry::cmp`: the lowest fee rate is on top, then the latest time. -/
def MempoolEntry.above (a b : MempoolEntry) : Bool :=
  a.feePerByte < b.feePerByte || (a.feePerByte = b.feePerByte && b.time < a.time)

def ttlAbove (a b : Nat × Hash) : Bool :=
  b.1 < a.1 || (a.1 = b.1 && u256FromBe b.2 < u256FromBe a.2)

def keyImagesOf (tx : Transaction) : List Bytes :=
  if tx.isAnonymous then
    (tx.inputs.filter fun vin => 32 ≤ vin.scriptSig.length).map fun vin => vin.scriptSig.take 32
  else []

namespace Mempool

def maxTxSize : Nat := 500000
def maxTxs : Nat := 50000

def new (maxSize : Nat) : Mempool where
  txs := ∅
  heap := []
  totalBytes := 0
  byParent := ∅
  feeIndex := ∅
  ttlHeap := []
  maxSize := maxSize
  expirationIndex := ∅
  keyImages := ∅
  subtractions := []

def updateMaxSize (m : Mempool) (newMax : Nat) : Mempool :=
  { m with maxSize := min newMax (256 * 1024 * 1024) }

/-! Removal. -/

def children (m : Mempool) (txid : Hash) : List Hash := (m.byParent.lookup txid).getD []

/-- The first half of `remove`: the entry, its key images, its bytes and its list of children. -/
def detach (m : Mempool) (txid : Hash) (entry : MempoolEntry) : Mempool :=
  { m with
    txs := m.txs.erase txid
    keyImages := applyWrites m.keyImages ((keyImagesOf entry.tx).map .delete)
    totalBytes := m.totalBytes - UInt64.ofNat entry.tx.size
    subtractions := (m.totalBytes, entry.tx.size) :: m.subtractions
    byParent := m.byParent.erase txid }

/-- The second half of `remove`, after the children: the fee index and the expiration index. -/
def unindex (m : Mempool) (txid : Hash) (entry : MempoolEntry) : Mempool :=
  { m with
    feeIndex := modify m.feeIndex entry.feePerByte fun set => set.erase txid
    expirationIndex := modify m.expirationIndex entry.time fun list => list.erase txid }

/-- `remove` with a bound on the depth of its recursion. -/
def removeWith : Nat → Mempool → Hash → Option Mempool
  | 0, _, _ => none
  | fuel + 1, m, txid =>
      match m.txs.lookup txid with
      | none => some m
      | some entry => do
          let m' ← (m.children txid).foldlM (removeWith fuel) (m.detach txid entry)
          pure (m'.unindex txid entry)

/-- `remove`: each level of the recursion takes an entry out, so this depth is enough. -/
def remove (m : Mempool) (txid : Hash) : Mempool :=
  (removeWith (m.txs.keys.card + 1) m txid).getD m

def removeAll (m : Mempool) (txids : List Hash) : Mempool := txids.foldl remove m

def isOrphaned (m : Mempool) (txid : Hash) : Bool :=
  match m.txs.lookup txid with
  | none => false
  | some entry => ¬ entry.dependsOn ⊆ m.txs.keys

def removeOrphanedTxs (choices : Choices) (m : Mempool) : Mempool :=
  m.removeAll ((choices.enumerate m.txs.keys).filter m.isOrphaned)

def popTtl (choices : Choices) (m : Mempool) : Mempool :=
  match heapPop ttlAbove (choices.ttlOrder m.ttlHeap) with
  | none => m
  | some (_, rest) => { m with ttlHeap := rest }

/-- `clean_expired` as far as the tables go. The average that each removal updates is not among
them, so a call that divides by zero there returns here. -/
def cleanExpired (choices : Choices) (expirationMs : Nat) (m : Mempool) : Result Unit × Mempool :=
  match choices.nowMs with
  | none => (fail .invalidTimestamp, m)
  | some now =>
      let expired (time : Nat) : Bool := expirationMs < now - time
      -- the scan of the heap stops at the first entry that has not expired
      let toRemove := ((choices.ttlOrder m.ttlHeap).takeWhile fun p => expired p.1).map Prod.snd
      let m := toRemove.foldl (fun m txid => (m.remove txid).popTtl choices) m
      let old := (sorted (· ≤ ·) m.expirationIndex.keys).filter expired
      (.ok (), { m with expirationIndex := applyWrites m.expirationIndex (old.map .delete) })

section Hashing

variable (env : Env) (choices : Choices)

/-- The popped entry leaves the heap even when its fee rate is not low enough to remove it. -/
def evictLowFeePackage (round : Nat) (m : Mempool) : Mempool :=
  match heapPop MempoolEntry.above (choices.heapOrder m.heap) with
  | none => m
  | some (low, heap) =>
      let m := { m with heap := heap }
      if low.feePerByte < choices.avgFee round / 2 then
        let m := m.remove (txHash env low.tx)
        m.removeAll (m.children (txHash env low.tx))
      else m

/-- The loop at the end of `insert`. With the heap empty a round changes nothing, so a loop that is
not over by then never is. -/
def evictLoop : Nat → Nat → Mempool → Option Mempool
  | 0, _, _ => none
  | fuel + 1, round, m =>
      if m.totalBytes.toNat > m.maxSize ∨ m.txs.keys.card > maxTxs then
        evictLoop fuel (round + 1) (m.evictLowFeePackage env choices round)
      else some m

/-! Admission. -/

def ancestors (m : Mempool) : Nat → List Hash → Finset Hash → Result (Finset Hash)
  | 0, _, _ => fail .packageDepthExceeded
  | _ + 1, [], dependsOn => .ok dependsOn
  | fuel + 1, parent :: stack, dependsOn =>
      if parent ∈ dependsOn then fail (.anyhow "Cycle detected in dependencies")
      else
        match m.txs.lookup parent with
        | none => ancestors m fuel stack (insert parent dependsOn)
        | some entry =>
            ancestors m fuel ((choices.enumerate entry.dependsOn).reverse ++ stack)
              (insert parent dependsOn)

def packageSize (m : Mempool) (size : Nat) (dependsOn : List Hash) : Result Nat :=
  dependsOn.foldlM (fun total dep =>
    let total := total + ((m.txs.lookup dep).map fun entry => entry.tx.size).getD 0
    if total > maxPackageSize then fail (.anyhow "Package size exceeded") else pure total) size

/-- The input loop: the sum of the stored inputs, and the pooled parents of the others. The outputs
it also collects are not read. -/
def gatherInputs (m : Mempool) (db : Db) (isAnonymous : Bool) :
    List TXInput → UInt64 → Finset Hash → Result (UInt64 × Finset Hash)
  | [], inputSum, dependsOn => .ok (inputSum, dependsOn)
  | vin :: rest, inputSum, dependsOn =>
      match get db (coinFamily isAnonymous) (coinKey isAnonymous vin.txid vin.vout) with
      | some value => do
          let output ← orFail (.anyhow "Deserialize output failed") (txOutputCodec.read value)
          let inputSum ← orFail .valueOverflow (checkedAdd inputSum output.value)
          gatherInputs m db isAnonymous rest inputSum dependsOn
      | none =>
          if vin.txid ∈ m.txs then
            gatherInputs m db isAnonymous rest inputSum (insert vin.txid dependsOn)
          else fail .missingUTXO

/-- The rule for replacing an entry. `insert` has returned before it where there is one. -/
def checkReplacement (m : Mempool) (txid : Hash) (size : Nat) (fee : UInt64) : Result Unit :=
  match m.txs.lookup txid with
  | none => pure ()
  | some old =>
      if fee < old.fee + minFeePerByte * 2 * UInt64.ofNat size then fail .insufficientFee
      else pure ()

def checkKeyImage (m : Mempool) (vin : TXInput) : Result Unit := do
  if vin.scriptSig.length < 32 then fail .invalidScript
  if vin.scriptSig.take 32 ∈ m.keyImages then fail .doubleSpend

/-- The checks of `insert`, up to the entry it builds. -/
def checkInsert (m : Mempool) (db : Db) (tx : Transaction) : Result MempoolEntry := do
  let size := tx.size
  if size = 0 ∨ size > maxTxSize then fail (.invalidTx "Invalid size")
  let stack := ((tx.inputs.map TXInput.txid).filter fun id => id ∈ m.txs).reverse
  let dependsOn ← m.ancestors choices maxPackageDepth stack ∅
  let _ ← m.packageSize size (choices.enumerate dependsOn)
  let (inputSum, dependsOn) ← m.gatherInputs db tx.isAnonymous tx.inputs 0 dependsOn
  let outputSum ← orFail .valueOverflow (checkedSum (tx.outputs.map TXOutput.value))
  let fee ← orFail .valueOverflow (checkedSub inputSum outputSum)
  let feePerByte := fee / UInt64.ofNat size
  m.checkReplacement (txHash env tx) size fee
  if tx.isAnonymous then tx.inputs.forM m.checkKeyImage
  let time ← orFail .invalidTimestamp choices.nowMs
  pure { tx, feePerByte, time, dependsOn, fee }

def store (m : Mempool) (txid : Hash) (entry : MempoolEntry) : Mempool :=
  { m with
    keyImages := applyWrites m.keyImages ((keyImagesOf entry.tx).map fun image => .put image txid)
    txs := m.txs.insert txid entry
    heap := entry :: m.heap
    ttlHeap := (entry.time, txid) :: m.ttlHeap
    expirationIndex := upsert m.expirationIndex entry.time [] fun list => list ++ [txid]
    totalBytes := m.totalBytes + UInt64.ofNat entry.tx.size
    byParent := (choices.enumerate entry.dependsOn).foldl
      (fun byParent dep => upsert byParent dep [] fun list => list ++ [txid]) m.byParent
    feeIndex := upsert m.feeIndex entry.feePerByte ∅ fun set => insert txid set }

/-- `insert`, `none` where it never returns. The guard of `avg_fee` that the source still holds
while it evicts is left out. -/
def insert (db : Db) (tx : Transaction) (m : Mempool) : Option (Result Bool × Mempool) :=
  if txHash env tx ∈ m.txs then some (.ok false, m)
  else
    match m.checkInsert env choices db tx with
    | .error e => some (.error e, m)
    | .ok entry =>
        let stored := m.store choices (txHash env tx) entry
        (stored.evictLoop env choices (stored.heap.length + 1) 0).map fun m =>
          (.ok true, m.removeOrphanedTxs choices)

end Hashing

/-! Selection. -/

structure Selection where
  selected : List Transaction
  size : Nat
  included : Finset Hash
  visitedPackages : Finset Hash

structure Package where
  txs : List Transaction
  size : Nat
  toInclude : List Hash
  visited : Finset Hash
  visitedPackages : Finset Hash

section Selecting

variable (choices : Choices) (m : Mempool)

def collectPackage : Nat → List Hash → Package → Package
  | _, [], package => package
  | 0, _ :: _, package => package
  | fuel + 1, parent :: stack, package =>
      if parent ∈ package.visited then collectPackage fuel stack package
      else
        let package := { package with
          visited := {parent} ∪ package.visited
          visitedPackages := {parent} ∪ package.visitedPackages }
        match m.txs.lookup parent with
        | none => collectPackage fuel stack package
        | some entry =>
            collectPackage fuel ((choices.enumerate entry.dependsOn).reverse ++ stack)
              { package with
                txs := entry.tx :: package.txs
                size := package.size + entry.tx.size
                toInclude := package.toInclude ++ [parent] }

/-- One id of the fee index. A package that does not fit leaves its ancestors marked. -/
def selectFrom (maxSize : Nat) (s : Selection) (txid : Hash) : Result Selection :=
  if txid ∈ s.included ∨ txid ∈ s.visitedPackages then .ok s
  else
    match m.txs.lookup txid with
    | none => .ok s
    | some entry =>
        let package := m.collectPackage choices maxPackageDepth
          (choices.enumerate entry.dependsOn).reverse
          ⟨[entry.tx], entry.tx.size, [txid], ∅, s.visitedPackages⟩
        let s := { s with visitedPackages := package.visitedPackages }
        if s.size > maxSize then .error (.panic "attempt to subtract with overflow")
        else if package.size ≤ maxSize - s.size ∧ package.size ≤ maxPackageSize then
          .ok { s with
            selected := s.selected ++ package.txs
            size := s.size + package.size
            included := s.included ∪ package.toInclude.toFinset }
        else .ok s

def selectRates (maxSize : Nat) : List UInt64 → Selection → Result Selection
  | [], s => .ok s
  | rate :: rates, s =>
      if s.size ≥ maxSize then .ok s
      else do
        let s ← (sorted hashLe ((m.feeIndex.lookup rate).getD ∅)).foldlM
          (m.selectFrom choices maxSize) s
        selectRates maxSize rates s

def selectTxs (maxSize : Nat) : Result (List Transaction) := do
  let s ← m.selectRates choices maxSize (sorted (· ≥ ·) m.feeIndex.keys) ⟨[], 0, ∅, ∅⟩
  pure s.selected

end Selecting

/-! Runs. -/

inductive Operation
  | insert (choices : Choices) (db : Db) (tx : Transaction)
  | remove (txid : Hash)
  | evictLowFeePackage (choices : Choices)
  | removeOrphanedTxs (choices : Choices)
  | cleanExpired (choices : Choices) (expirationMs : Nat)
  | updateMaxSize (newMax : Nat)

variable (env : Env)

def step (m : Mempool) : Operation → Option Mempool
  | .insert choices db tx => (m.insert env choices db tx).map Prod.snd
  | .remove txid => some (m.remove txid)
  | .evictLowFeePackage choices => some (m.evictLowFeePackage env choices 0)
  | .removeOrphanedTxs choices => some (m.removeOrphanedTxs choices)
  | .cleanExpired choices expirationMs => some (m.cleanExpired choices expirationMs).2
  | .updateMaxSize newMax => some (m.updateMaxSize newMax)

def run (m : Mempool) (operations : List Operation) : Option Mempool :=
  operations.foldlM (step env) m

end Mempool

end Lyrion
