/- GID: Lyrion/Node/Load
   digest: Loading a node back from its database: journal recovery, the height scan, the supply
     checks, and why no node that was running comes back. -/

import Lyrion.Node.ForkChoice

set_option autoImplicit false
set_option relaxedAutoImplicit false

namespace Lyrion.Node

open Library.ByteCodec Library.KeyValue Library.Runs Data Utils Tx

/-- `copy_from_slice` into an array of 32 bytes, which panics on any other length. -/
def copyHash (bs : Bytes) : Result Hash :=
  orPanic "copy_from_slice" (hashOfBytes bs)

def loadCurrentHeight (db : Db) : Result Nat := do
  let bytes ← orFail (.anyhow "Missing height") (get db .default bestHeightKey)
  if bytes.length ≠ 4 then fail (.anyhow "try_into")
  pure (ofBeBytes bytes)

def loadCurrentTip (db : Db) : Result Hash := do
  let tip ← orFail (.anyhow "Missing tip") (get db .default tipKey)
  copyHash tip

/-- The keys under `reorg:pending:`, in the order in which the database walks them. -/
def pendingKeys (db : Db) : List Bytes :=
  ((((db .default).keys.filter fun k => reorgPrefix.isPrefixOf k).image (List.map UInt8.toNat)).sort
    (· ≤ ·)).map (List.map UInt8.ofNat)

section Recovery

/-! `recover_pending_reorgs` calls a free `build_block_ops` that takes no chain. It is modelled as
the method, with the set hash and the supply that the method reads from memory left open. -/

variable (env : Env) (setHash : Hash) (supply : UInt64)

def recoverDisconnects (db : Db) : Nat → Nat → DbBatch → Result (Nat × DbBatch)
  | 0, height, batch => .ok (height, batch)
  | depth + 1, height, batch => do
      let blk ← loadBlockFromDb db height
      let batch ← buildBlockOps env db setHash supply blk height .disconnect batch
      recoverDisconnects db depth (usizeSub height 1) batch

/-- One pending journal: finished if the tip is still the one it was written for. -/
def recoverReorg (db : Db) (key value : Bytes) : Result Db := do
  let journal ← orFail (.anyhow "bincode") (reorgJournalCodec.read value)
  let currentHeight ← loadCurrentHeight db
  let currentTip ← loadCurrentTip db
  if currentHeight = journal.oldTipHeight.toNat ∧ currentTip = journal.oldTipHash then do
    let (height, batch) ←
      recoverDisconnects env setHash supply db journal.disconnectDepth.toNat currentHeight []
    let batch ← buildBlockOps env db setHash supply journal.newBlock ((height + 1) % 2 ^ 64)
      .connect batch
    pure (write (write db batch) [deleteCf .default key])
  else pure (write db [deleteCf .default key])

def recoverPendingReorgs (db : Db) : Result Db :=
  (pendingKeys db).foldlM
    (fun current key => recoverReorg env setHash supply current key
      ((get db .default key).getD [])) db

end Recovery

/-- The header at a height: from the whole block, which memory then keeps, or, below the pruning
height, on its own. -/
def loadBody (db : Db) (pruneStart height : Nat) (state : ChainState) :
    Result (BlockHeader × ChainState) :=
  if height ≥ pruneStart then do
    let full ← loadBlockFromDb db height
    let pushed := state.timestamps ++ [full.header.timestamp]
    pure (full.header, { state with
      blocks := state.blocks.insert height full
      timestamps := if pushed.length > 11 then pushed.tail else pushed })
  else do
    let header ← loadHeader db height
    pure (header, state)

def loadHeight (db : Db) (pruneStart height : Nat) (s : ChainState × Nat) :
    Result (ChainState × Nat) := do
  let hashBytes ← orFail (.anyhow "Missing hash") (get db .default (heightKey height))
  let hash ← copyHash hashBytes
  let (header, state) ← loadBody db pruneStart height s.1
  let target ← compactToTarget header.bits
  let work := s.2 + blockWork target
  pure ({ state with
    heightToHash := state.heightToHash.insert height hash
    hashToHeight := state.hashToHeight.insert hash height
    cumulativeWork := state.cumulativeWork.insert height work }, work)

/-- Why `compute_cf_supply` stopped. Where an entry is unreadable and the sum overflows as well,
the source reports whichever comes first in key order. -/
def scanError (cf : Map Bytes Bytes) : ChainError :=
  if cf.all fun _ value => (txOutputCodec.read value).isSome then .valueOverflow
  else .anyhow "Deserialize failed in supply validation"

def scanSupply (cf : Map Bytes Bytes) : Result UInt64 :=
  orFail (scanError cf) (computeCfSupply cf)

def validateSupplyFull (c : Chain) : Result Unit := do
  let utxoSupply ← scanSupply (c.db .utxo)
  let anonSupply ← scanSupply (c.db .anonymous)
  let calculatedSupply ← orFail .valueOverflow
    (checkedSum ((List.range (c.bestHeight + 1)).map subsidy))
  if utxoSupply + anonSupply ≠ calculatedSupply then fail .supplyMismatch
  pure ()

/-- The emission schedule up to a height, in 128 bits, which 32-bit heights cannot fill. -/
def calculatedSupply (bestHeight : Nat) : Nat :=
  ((List.range (bestHeight + 1)).map fun height => (subsidy height).toNat).sum

/-- `validate_supply_smart`: the stored counters against the schedule, taken over on success. -/
def validateSupplySmart (c : Chain) : Result Chain :=
  match get c.db .default utxoSetHashKey, get c.db .default totalSupplyKey with
  | some hashBytes, some supplyBytes => do
      let hash ← copyHash hashBytes
      if supplyBytes.length ≠ 8 then fail (.anyhow "try_into")
      let supply := UInt64.ofNat (ofBeBytes supplyBytes)
      if calculatedSupply c.bestHeight ≠ supply.toNat then fail .supplyMismatch
      pure { c with state := { c.state with totalSupply := supply, utxoSetHash := hash } }
  | _, _ => do
      validateSupplyFull c
      pure c

def loadFromDb (env : Env) (setHash : Hash) (supply : UInt64) (db : Db) : Result Chain := do
  let db ← recoverPendingReorgs env setHash supply db
  let tip ← orFail (.anyhow "Missing tip") (get db .default tipKey)
  let bestTip ← copyHash tip
  let heightBytes ← orFail (.anyhow "Missing height") (get db .default bestHeightKey)
  if heightBytes.length ≠ 4 then fail (.anyhow "Invalid height bytes")
  let bestHeight := ofBeBytes heightBytes
  let genesisHashBytes ← orFail (.anyhow "Missing genesis_hash") (get db .default genesisHashKey)
  let genesisHash ← copyHash genesisHashBytes
  let (state, cumWork) ← (List.range (bestHeight + 1)).foldlM
    (fun s height => loadHeight db (bestHeight - pruneDepth) height s) (emptyState, 0)
  let c : Chain := ⟨db, state, bestTip, bestHeight, [], genesisHash, false, false, 0, []⟩
  if state.cumulativeWork.lookup bestHeight ≠ some cumWork then
    fail (.invalidBlock "Chain work mismatch")
  validateState c
  validateSupplySmart c

def CountersStored (db : Db) : Prop := ∀ k, CounterKey k → ∃ value, get db .default k = some value

section Counters

variable {env : Env} {world : World}

theorem CountersStored.of_same {db after : Db} (stored : CountersStored db)
    (same : ∀ k, CounterKey k → get after .default k = get db .default k) :
    CountersStored after := by
  intro k counter
  rw [same k counter]
  exact stored k counter

private theorem CountersStored.journalPut {db : Db} (stored : CountersStored db)
    (id journal : Bytes) :
    CountersStored (write db [putCf .default (reorgKey id) journal]) :=
  stored.of_same fun _ counter => get_journalPut (counter.ne_reorgKey id)

theorem CountersStored.journalDelete {db : Db} (stored : CountersStored db) (id : Bytes) :
    CountersStored (write db [deleteCf .default (reorgKey id)]) :=
  stored.of_same fun _ counter => get_journalDelete (counter.ne_reorgKey id)

theorem CountersStored.saveOps {db : Db} (stored : CountersStored db) (height : Nat)
    (block : Block) (hash : Hash) : CountersStored (write db (saveOps height block hash)) := by
  refine stored.of_same fun k counter => get_write_of_notMem ?_
  rw [defaultKeys_saveOps]
  rcases counter with rfl | rfl
  · simp [utxoSetHashKey, blockKey, heightKey, tipKey, bestHeightKey]
  · simp [totalSupplyKey, blockKey, heightKey, tipKey, bestHeightKey]

private theorem countersStored_write {base : Db} {batch : DbBatch} {setHash : Hash}
    {supply : UInt64} (first others : List (Write Bytes Bytes))
    (writes : writesTo .default batch = first ++ [.put utxoSetHashKey setHash.toList,
      .put totalSupplyKey (beBytes 8 supply.toNat)] ++ others)
    (apart : ∀ w ∈ others, ¬ CounterKey w.key) : CountersStored (write base batch) := by
  intro k counter
  have untouched (m : Map Bytes Bytes) : (applyWrites m others).lookup k = m.lookup k := by
    apply lookup_applyWrites_of_untouched
    rintro w member rfl
    exact apart w member counter
  have different : utxoSetHashKey ≠ totalSupplyKey := by decide
  simp only [Data.get, write, writes, applyWrites_append, untouched]
  rcases counter with rfl | rfl
  · simp [applyWrite, Finmap.lookup_insert_of_ne _ different]
  · simp [applyWrite]

theorem buildBlockOps_counters {db : Db} {setHash : Hash} {supply : UInt64} {block : Block}
    {height : Nat} {action : BlockAction} {batch result : DbBatch}
    (built : buildBlockOps env db setHash supply block height action batch = .ok result)
    (base : Db) : CountersStored (write base result) := by
  obtain ⟨-, acc, -, rfl⟩ := (buildBlockOps_eq_ok ..).mp built
  have writes := writesTo_append .default (acc.batch ++ indexOps env action block height)
    (counterWrites acc.setHash acc.supply)
  rw [writesTo_default_counterWrites] at writes
  exact countersStored_write _ [] (writes.trans (List.append_nil _).symm) (by simp)

theorem actionBatch_counters (block : Block) (c : Chain) (height : Nat) (action : BlockAction)
    {setHash : Hash} {supply : UInt64} {batch : DbBatch} {acc : UtxoAcc}
    (handled : applyUtxoChanges env c.db setHash supply block height (action = .connect) batch =
      .ok acc) (base : Db) :
    CountersStored (write base (actionBatch env block c height action acc)) := by
  refine countersStored_write _ _ ((actionBatch_default handled).trans (List.append_assoc ..)) ?_
  intro w member
  cases action with
  | connect =>
      simp only [headerWrites, List.mem_append, List.mem_singleton] at member
      rcases member with rfl | rfl
      · simp [CounterKey, Write.key, headerKey, utxoSetHashKey, totalSupplyKey]
      · simp [CounterKey, Write.key, stateTotalSupplyKey, utxoSetHashKey, totalSupplyKey]
  | disconnect =>
      simp only [headerWrites, List.nil_append, List.mem_singleton] at member
      subst member
      simp [CounterKey, Write.key, stateTotalSupplyKey, utxoSetHashKey, totalSupplyKey]

theorem countersStored_keeps (env : Env) (world : World) :
    Keeps env world (fun c => CountersStored c.db) fun _ => True := by
  apply keeps_of_phases fun _ c => CountersStored c.db
  · exact fun _ _ _ stored => stored
  · exact fun _ _ stored _ => stored
  · exact fun _ _ stored => stored
  · intro o block hash prevHeight c stored
    have cases := reorganise_cases env o block c prevHeight
    generalize reorganise env o block prevHeight c = result at cases
    cases cases with
    | stopped e => exact stored
    | journalled e id journal => exact stored.journalPut id journal
    | written e id journal batch built =>
        simp only [reorgBatch, bind_eq_ok] at built
        obtain ⟨first, -, connects⟩ := built
        exact buildBlockOps_counters connects _
    | done id journal batch built =>
        simp only [reorgBatch, bind_eq_ok] at built
        obtain ⟨first, -, connects⟩ := built
        exact (buildBlockOps_counters connects _).journalDelete id
  · intro o block hash height work c stored
    have cases := applyBlockAction_cases env o block c height .connect false work []
    generalize applyBlockAction env o block height .connect false work [] c = result at cases
    cases cases with
    | locked e closed => exact stored
    | failed e => exact stored
    | rolledBack e acc handled unwritten =>
        refine stored.of_same fun k _ => ?_
        simp only [Data.get, rollbackBatch_default handled]
    | frozen e => exact stored
    | applied r hash hashed acc handled blocks pending =>
        exact actionBatch_counters block c height .connect handled c.db
  · exact fun block hash height c stored => stored.saveOps height block hash

private theorem countersStored_run {db : Db} {genesis : Block} {c : Chain}
    (started : (Chain.new env world db genesis).1 = .ok c) (blocks : List Block) :
    CountersStored (runBlocks env world c blocks).db := by
  obtain ⟨root, acc, -, handled, same⟩ := new_eq_ok started
  have start : Holds (fun c => CountersStored c.db) (fun _ => True) c := by
    refine ⟨?_, fun _ _ => trivial⟩
    rw [same]
    exact actionBatch_counters genesis (blank db root) 0 .connect
      (by simpa only [blank, decide_true] using handled) db
  exact (run_invariant _ (Holds (fun c => CountersStored c.db) fun _ => True) start
    (fun _ _ _ _ kept => (countersStored_keeps env world).holds_addBlock kept trivial)
    blocks [] (List.append_nil blocks).symm).1

end Counters

section Recovered

variable {env : Env} {setHash : Hash} {supply : UInt64}

theorem mem_pendingKeys {db : Db} {key : Bytes} :
    key ∈ pendingKeys db ↔ ∃ id, key = reorgKey id ∧ get db .default key ≠ none := by
  have back (k : Bytes) : (k.map UInt8.toNat).map UInt8.ofNat = k := by
    simp [List.map_map, Function.comp_def]
  simp only [pendingKeys, List.mem_map, Finset.mem_sort, Finset.mem_image, Finset.mem_filter,
    List.isPrefixOf_iff_prefix, Finmap.mem_keys]
  constructor
  · rintro ⟨_, ⟨k, ⟨stored, id, rfl⟩, rfl⟩, rfl⟩
    rw [back]
    exact ⟨id, rfl, fun missing => Finmap.lookup_eq_none.mp missing stored⟩
  · rintro ⟨id, rfl, stored⟩
    refine ⟨_, ⟨reorgKey id, ⟨?_, id, rfl⟩, rfl⟩, back _⟩
    by_contra missing
    exact stored (Finmap.lookup_eq_none.mpr missing)

private theorem CountersStored.recoverReorg {db after : Db} {key value : Bytes}
    (stored : CountersStored db) (pending : ∃ id, key = reorgKey id)
    (recovered : Node.recoverReorg env setHash supply db key value = .ok after) :
    CountersStored after := by
  obtain ⟨id, rfl⟩ := pending
  simp only [Node.recoverReorg, bind_eq_ok] at recovered
  obtain ⟨journal, -, height, -, tip, -, rest⟩ := recovered
  split at rest
  · simp only [bind_eq_ok, pure_eq_ok] at rest
    obtain ⟨⟨below, first⟩, -, batch, connects, rfl⟩ := rest
    exact (buildBlockOps_counters connects db).journalDelete id
  · obtain rfl := pure_eq_ok.mp rest
    exact stored.journalDelete id

private theorem CountersStored.recoverPendingReorgs {db after : Db} (stored : CountersStored db)
    (recovered : Node.recoverPendingReorgs env setHash supply db = .ok after) :
    CountersStored after :=
  foldlM_invariant CountersStored stored
    (fun _ _ _ member kept round =>
      kept.recoverReorg ((mem_pendingKeys.mp member).imp fun _ => And.left) round) recovered

private theorem validateSupplySmart_fails {c loaded : Chain} (stored : CountersStored c.db)
    (unset : c.state.totalSupply = 0) (passes : validateState c = .ok ()) :
    validateSupplySmart c ≠ .ok loaded := by
  -- Memory still has supply 0 when the stored counter is compared with it, and the schedule never
  -- has.
  obtain ⟨hashBytes, hashed⟩ := stored utxoSetHashKey (Or.inl rfl)
  obtain ⟨supplyBytes, supplied⟩ := stored totalSupplyKey (Or.inr rfl)
  simp only [validateState, supplied, unset, guard_eq_ok, not_not] at passes
  obtain ⟨-, zero, -⟩ := passes
  intro done
  simp only [validateSupplySmart, hashed, supplied, fail_bind, guard_eq_ok, bind_eq_ok, not_not,
    zero] at done
  obtain ⟨_, -, -, schedule, -⟩ := done
  have genesis : (subsidy 0).toNat ≤ calculatedSupply c.bestHeight := by
    simp only [calculatedSupply, List.range_succ_eq_map, List.map_cons, List.sum_cons]
    exact Nat.le_add_right ..
  have positive : 0 < (subsidy 0).toNat := by decide
  rw [schedule] at genesis
  exact absurd (Nat.lt_of_lt_of_le positive genesis) (by simp)

private theorem loadHeight_supply {db : Db} {pruneStart height : Nat} {s s' : ChainState × Nat}
    (scanned : loadHeight db pruneStart height s = .ok s') :
    s'.1.totalSupply = s.1.totalSupply := by
  simp only [loadHeight, bind_eq_ok, pure_eq_ok] at scanned
  obtain ⟨_, -, _, -, ⟨header, state⟩, read, target, -, rfl⟩ := scanned
  unfold loadBody at read
  split at read
  · simp only [bind_eq_ok, pure_eq_ok, Prod.mk.injEq] at read
    obtain ⟨full, -, -, rfl⟩ := read
    rfl
  · simp only [bind_eq_ok, pure_eq_ok, Prod.mk.injEq] at read
    obtain ⟨_, -, -, rfl⟩ := read
    rfl

theorem loadFromDb_fails {db : Db} (stored : CountersStored db) (loaded : Chain) :
    loadFromDb env setHash supply db ≠ .ok loaded := by
  intro done
  simp only [loadFromDb, bind_eq_ok, fail_bind, guard_eq_ok] at done
  obtain ⟨db', recovered, _, -, _, -, heightBytes, -, -, _, -, _, -, ⟨state, work⟩, scanned, -, _,
    passes, smart⟩ := done
  have unset : state.totalSupply = 0 :=
    foldlM_invariant (fun s : ChainState × Nat => s.1.totalSupply = 0) rfl
      (fun _ _ _ _ kept round => (loadHeight_supply round).trans kept) scanned
  exact validateSupplySmart_fails (stored.recoverPendingReorgs recovered) unset passes smart

end Recovered

structure SameMemory (c loaded : Chain) : Prop where
  bestTip : loaded.bestTip = c.bestTip
  bestHeight : loaded.bestHeight = c.bestHeight
  heightToHash : loaded.state.heightToHash = c.state.heightToHash
  hashToHeight : loaded.state.hashToHeight = c.state.hashToHeight
  cumulativeWork : loaded.state.cumulativeWork = c.state.cumulativeWork
  utxoSetHash : loaded.state.utxoSetHash = c.state.utxoSetHash
  totalSupply : loaded.state.totalSupply = c.state.totalSupply

/-- The database the node leaves behind, with the entry that `InitDb` stores. -/
def storedDb (c : Chain) : Db := write c.db [putCf .default genesisHashKey c.genesisHash.toList]

def RestartTransparent (env : Env) (setHash : Hash) (supply : UInt64) (c : Chain) : Prop :=
  ∃ loaded, loadFromDb env setHash supply (storedDb c) = .ok loaded ∧ SameMemory c loaded

/-- No node comes back, whatever blocks it was given: start-up stores both counters, they stay, and
then the supply checks of the load contradict each other. -/
theorem restart_never_transparent (env : Env) (world : World) (setHash : Hash) (supply : UInt64)
    (db : Db) (genesis : Block) (c : Chain) (blocks : List Block)
    (started : (Chain.new env world db genesis).1 = .ok c) :
    ¬ RestartTransparent env setHash supply (runBlocks env world c blocks) := by
  rintro ⟨loaded, done, -⟩
  refine loadFromDb_fails ?_ loaded done
  refine (countersStored_run started blocks).of_same fun k counter => get_write_of_notMem ?_
  rcases counter with rfl | rfl
  · simp [defaultKeys, putCf, Write.key, utxoSetHashKey, genesisHashKey]
  · simp [defaultKeys, putCf, Write.key, totalSupplyKey, genesisHashKey]

/-- After one saved block the scan already stops at the genesis block, which `Chain::new` does not
save. -/
theorem genesis_hash_missing :
    (Chain.new sampleEnv sampleWorld emptyDb (sampleBlock [])).1 = .ok (sampleStart []) ∧
      (loadFromDb sampleEnv zeroHash 0
        (storedDb (runBlocks sampleEnv sampleWorld (sampleStart []) [sampleRival 1]))).map
          (fun _ => ()) = fail (.anyhow "Missing hash") ∧
      ¬ RestartTransparent sampleEnv zeroHash 0
        (runBlocks sampleEnv sampleWorld (sampleStart []) [sampleRival 1]) := by
  have failed : (loadFromDb sampleEnv zeroHash 0
      (storedDb (runBlocks sampleEnv sampleWorld (sampleStart []) [sampleRival 1]))).map
        (fun _ => ()) = fail (.anyhow "Missing hash") := by
    decide +kernel
  refine ⟨sampleStart_started (by decide +kernel), failed, ?_⟩
  rintro ⟨loaded, done, -⟩
  rw [done] at failed
  exact absurd failed (by simp [Except.map, fail])

theorem started_node_not_loaded :
    ¬ RestartTransparent sampleEnv zeroHash 0
      (runBlocks sampleEnv sampleWorld (sampleStart []) [sampleRival 1, sampleRival 2]) :=
  restart_never_transparent sampleEnv sampleWorld zeroHash 0 emptyDb (sampleBlock [])
    (sampleStart []) [sampleRival 1, sampleRival 2] (sampleStart_started (by decide +kernel))

end Lyrion.Node
