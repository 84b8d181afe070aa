/- GID: Lyrion/Node/Reorg
   digest: When a reorganisation leaves the stores that replaying the new chain would build. -/

import Lyrion.Node.Replay
import Lyrion.Node.SideBlock

set_option autoImplicit false
set_option relaxedAutoImplicit false

namespace Lyrion.Node

open Library.ByteCodec Library.KeyValue Data Utils Tx

def chainWork (chain : List Block) : Nat := (chain.map fun block => headerWork block.header).sum

/-- The indexes in memory and in the database hold each block of the chain, which is listed from
its newest block down, at its height. -/
def Indexed (env : Env) (c : Chain) : List Block → Prop
  | [] => True
  | block :: older =>
      (∃ hash, headerHash env block.header = .ok hash ∧
        c.state.heightToHash.lookup older.length = some hash ∧
        c.state.hashToHeight.lookup hash = some older.length ∧
        loadBlockFromDb c.db older.length = .ok block ∧
        c.state.cumulativeWork.lookup older.length = some (chainWork (block :: older)) ∧
        ∀ parent ∈ older.head?, headerHash env parent.header = .ok block.header.prevHash) ∧
      Indexed env c older

/-- The node is on the given chain: its stores are a replay of it and its indexes describe it. -/
structure Describes (env : Env) (c : Chain) (chain : List Block) : Prop where
  length : chain.length = c.bestHeight + 1
  stores : ∃ db, Replay env chain db c.state.utxoSetHash ∧ SameStores c.db db
  setHash : get c.db .default utxoSetHashKey = some c.state.utxoSetHash.toList
  indexed : Indexed env c chain
  only : ∀ hash i, c.state.hashToHeight.lookup hash = some i →
    c.state.heightToHash.lookup i = some hash ∧ i ≤ c.bestHeight
  tip : c.state.heightToHash.lookup c.bestHeight = some c.bestTip
  tipStored : TipStored c

structure Working (o : Outside) : Prop where
  clock : o.journalMs.isSome
  journalPut : o.journalPut = true
  reorgWrite : o.reorgWrite = true
  journalDelete : o.journalDelete = true
  saveWrite : o.saveWrite = true

/-- A valid block on top of `older`, which is at most `REORG_MAX_DEPTH` blocks below the tip, with
more work than the tip has. -/
structure Winning (env : Env) (nowMs : Option Nat) (c : Chain) (newer older : List Block)
    (block : Block) (hash : Hash) : Prop where
  hashed : headerHash env block.header = .ok hash
  parent : ∃ parent ∈ older.head?, headerHash env parent.header = .ok block.header.prevHash
  depth : newer.length ≤ reorgMaxDepth
  valid : validateBlock env c.db c.bestHeight nowMs block older.length = .ok ()
  more : ∃ target, compactToTarget block.header.bits = .ok target ∧
    currentWork c < newWork c (older.length - 1) target

def Replayed (db : Db) (setHash : Hash) (r : Result Bool × Chain) : Prop :=
  r.1 = .ok true ∧ SameStores r.2.db db ∧
    get r.2.db .default utxoSetHashKey = some setHash.toList

/-- What makes a reorganisation from `newer` on top of `older` to `block` harmless. -/
structure Reorganisable (env : Env) (c : Chain) (newer older : List Block) (block : Block)
    (hash : Hash) : Prop where
  unknown : hash ∉ c.state.hashToHeight
  coinbases : ∀ gone ∈ newer, AllCoinbase gone
  ids : ∀ gone ∈ newer, ∀ k ∈ coinbaseIds env gone.txs,
    k ∈ coinbaseIds env block.txs ∨ ∀ kept ∈ older, k ∉ coinbaseIds env kept.txs
  supply : ∃ result, runSupply c.state.totalSupply
      (blockEffect env c.db older.length true block.txs).supplyOps = some result ∧
    (older.length % 1000 = 0 → result = c.state.totalSupply)

variable {env : Env} {world : World}

section Batches

variable {db : Db} {setHash : Hash} {supply : UInt64} {prevHeight : Nat}

def StoredAbove (env : Env) (db : Db) (prevHeight : Nat) : List Block → Prop
  | [] => True
  | block :: rest =>
      loadBlockFromDb db (prevHeight + rest.length + 1) = .ok block ∧
        (∃ hash, headerHash env block.header = .ok hash) ∧ StoredAbove env db prevHeight rest

private theorem Indexed.storedAbove {c : Chain} {newer older : List Block}
    (indexed : Indexed env c (newer ++ older)) (size : older.length = prevHeight + 1) :
    StoredAbove env c.db prevHeight newer := by
  induction newer with
  | nil => trivial
  | cons block newer ih =>
      obtain ⟨⟨hash, hashed, -, -, loaded, -⟩, below⟩ := indexed
      have height : prevHeight + newer.length + 1 = (newer ++ older).length := by
        rw [List.length_append, size]
        omega
      refine ⟨?_, ⟨hash, hashed⟩, ih below⟩
      rw [height]
      exact loaded

private theorem writesTo_indexOps {family : Family} (member : family ∈ replayStores)
    (action : BlockAction) (block : Block) (height : Nat) : writesTo family
    (indexOps env action block height) = [] := by
  have coinFree : family ≠ .default ∧ family ≠ .txIndex := by
    revert family
    decide
  apply List.eq_nil_iff_forall_not_mem.mpr
  intro w inside
  rw [mem_writesTo] at inside
  cases action with
  | connect =>
      simp only [indexOps, connectIndexOps, putCf, List.mem_cons, List.mem_map,
        Prod.mk.injEq] at inside
      rcases inside with ⟨same, -⟩ | ⟨_, -, same, -⟩
      · exact coinFree.1 same
      · exact coinFree.2 same.symm
  | disconnect =>
      simp only [indexOps, disconnectIndexOps, deleteCf, List.mem_map, Prod.mk.injEq] at inside
      obtain ⟨_, -, same, -⟩ := inside
      exact coinFree.2 same.symm

private theorem buildBlockOps_store {block : Block} {height : Nat} {action : BlockAction}
    {batch result : DbBatch}
    (built : buildBlockOps env db setHash supply block height action batch = .ok result)
    {family : Family} (member : family ∈ replayStores) :
    writesTo family result = writesTo family batch ++
      writesTo family (blockEffect env db height (action = .connect) block.txs).writes := by
  obtain ⟨-, acc, applied, rfl⟩ := (buildBlockOps_eq_ok ..).mp built
  obtain ⟨-, -, -, -, writes⟩ := (applyUtxoChanges_eq_ok ..).mp applied
  have store := mem_coinStores_of_replayStores member
  simp only [writes, writesTo_append, writesTo_indexOps member, writesTo_counterWrites store,
    List.append_nil]

variable (setHash supply) in
private theorem disconnectOps_coinbases {newer : List Block}
    (stored : StoredAbove env db prevHeight newer) (coinbases : ∀ block ∈ newer, AllCoinbase block)
    (batch : DbBatch) :
    ∃ result, disconnectOps env db setHash supply prevHeight newer.length batch = .ok result ∧
      (∀ family ∈ replayStores, family ≠ .coinbase →
        writesTo family result = writesTo family batch) ∧
      ∃ deletes, writesTo .coinbase result = writesTo .coinbase batch ++ deletes ∧
        deletes.map Write.key = newer.flatMap (fun block => coinbaseIds env block.txs) ∧
        ∀ w ∈ deletes, w.left = none := by
  induction newer generalizing batch with
  | nil => exact ⟨batch, rfl, fun _ _ _ => rfl, [], by simp⟩
  | cons block newer ih =>
      obtain ⟨loaded, ⟨hash, hashed⟩, below⟩ := stored
      obtain ⟨here, later⟩ := List.forall_mem_cons.mp coinbases
      obtain ⟨acc, applied, -⟩ := here.applies env db setHash supply (prevHeight + newer.length + 1)
        false batch
      obtain ⟨next, built⟩ : ∃ next, buildBlockOps env db setHash supply block
          (prevHeight + newer.length + 1) .disconnect batch = .ok next :=
        ⟨_, (buildBlockOps_eq_ok ..).mpr ⟨⟨hash, hashed⟩, acc, applied, rfl⟩⟩
      obtain ⟨result, rest, others, deletes, coinbase, keys, deleting⟩ := ih below later next
      obtain ⟨ids, removing⟩ := blockEffect_coinbase env db (prevHeight + newer.length + 1) false
        block.txs
      refine ⟨result, ?_, ?_, writesTo .coinbase (blockEffect env db
        (prevHeight + newer.length + 1) false block.txs).writes ++ deletes, ?_, ?_, ?_⟩
      · simp only [List.length_cons, disconnectOps, bind_eq_ok]
        exact ⟨block, loaded, next, built, rest⟩
      · intro family member other
        rw [others family member other, buildBlockOps_store built member]
        simp [here.writesTo_other other]
      · rw [coinbase, buildBlockOps_store built (by decide), List.append_assoc]
        rfl
      · rw [List.map_append, ids, keys, List.flatMap_cons]
      · intro w member
        rcases List.mem_append.mp member with inside | inside
        · exact (removing w inside).mpr rfl
        · exact deleting w inside

private theorem disconnectOps_handled {newer : List Block}
    (stored : StoredAbove env db prevHeight newer) {batch result : DbBatch}
    (built : disconnectOps env db setHash supply prevHeight newer.length batch = .ok result) :
    ∀ block ∈ newer, ∀ tx ∈ block.txs, TxOk env db false tx := by
  induction newer generalizing batch with
  | nil => simp
  | cons block newer ih =>
      obtain ⟨loaded, -, below⟩ := stored
      simp only [List.length_cons, disconnectOps, bind_eq_ok] at built
      obtain ⟨blk, found, next, ops, rest⟩ := built
      obtain rfl := Except.ok.inj (loaded.symm.trans found)
      obtain ⟨-, acc, applied, -⟩ := (buildBlockOps_eq_ok ..).mp ops
      obtain ⟨handled, -⟩ := (applyUtxoChanges_eq_ok ..).mp applied
      exact List.forall_mem_cons.mpr ⟨by simpa using handled, ih below rest⟩

end Batches

section Step

variable {block : Block} {c : Chain} {prevHeight target : Nat} {hash : Hash}

def journalled (c : Chain) (id journal : Bytes) : Db :=
  write c.db [putCf .default (reorgKey id) journal]

private theorem loadBlockFromDb_journalled (c : Chain) (id journal : Bytes) (height : Nat) :
    loadBlockFromDb (journalled c id journal) height = loadBlockFromDb c.db height := by
  have heights : get (journalled c id journal) .default (heightKey height) =
      get c.db .default (heightKey height) :=
    get_journalPut (by simp [heightKey, reorgKey, reorgPrefix])
  have blocks (h : Bytes) : get (journalled c id journal) .default (blockKey h) =
      get c.db .default (blockKey h) :=
    get_journalPut (by simp [blockKey, reorgKey, reorgPrefix])
  simp only [loadBlockFromDb, heights, blocks]

theorem reorgBatch_journalled (c : Chain) (id journal : Bytes) (setHash : Hash) (supply : UInt64)
    (prevHeight depth : Nat) (block : Block) :
    reorgBatch env (journalled c id journal) setHash supply prevHeight depth block =
      reorgBatch env c.db setHash supply prevHeight depth block := by
  have actions : applyUtxoChanges env (journalled c id journal) = applyUtxoChanges env c.db := by
    apply applyUtxoChanges_congr
    intro family notDefault
    apply write_of_no_writes
    simpa [putCf] using notDefault.symm
  have builds : buildBlockOps env (journalled c id journal) = buildBlockOps env c.db := by
    funext setHash supply block height action batch
    simp only [buildBlockOps, actions]
  have disconnects (batch : DbBatch) :
      disconnectOps env (journalled c id journal) setHash supply prevHeight depth batch =
        disconnectOps env c.db setHash supply prevHeight depth batch := by
    induction depth generalizing batch with
    | zero => rfl
    | succ depth ih => simp only [disconnectOps, loadBlockFromDb_journalled, builds, ih]
  simp only [reorgBatch, disconnects, builds]

private theorem ne_default_of_replayStores {family : Family} (member : family ∈ replayStores) :
    family ≠ .default := by
  revert family
  decide

private theorem journalled_same (c : Chain) (id journal : Bytes) :
    SameStores (journalled c id journal) c.db := by
  intro family member
  apply write_of_no_writes
  simpa [putCf] using (ne_default_of_replayStores member).symm

def reorganised (c : Chain) (block : Block) (hash : Hash) (prevHeight : Nat) (id journal : Bytes)
    (batch : DbBatch) : Chain :=
  { c with
    db := write (write (write (journalled c id journal) batch) [deleteCf .default (reorgKey id)])
      (saveOps (prevHeight + 1) block hash)
    bestHeight := prevHeight + 1
    saved := (prevHeight + 1, block) :: c.saved }

private theorem connectNew_heavier {o : Outside} (working : Working o)
    (hashed : headerHash env block.header = .ok hash)
    (valid : validateBlock env c.db c.bestHeight o.nowMs block (prevHeight + 1) = .ok ())
    (compact : compactToTarget block.header.bits = .ok target)
    (more : currentWork c < newWork c prevHeight target)
    (depth : c.bestHeight - prevHeight ≤ reorgMaxDepth) :
    ∃ id journal,
      (∀ e, reorgBatch env c.db c.state.utxoSetHash c.state.totalSupply
          prevHeight (c.bestHeight - prevHeight) block = .error e →
        connectNew env o block prevHeight c =
          (.error e, { c with db := journalled c id journal })) ∧
      ∀ batch, reorgBatch env c.db c.state.utxoSetHash c.state.totalSupply
          prevHeight (c.bestHeight - prevHeight) block = .ok batch →
        connectNew env o block prevHeight c = (.ok (.accepted (prevHeight + 1) true),
          reorganised c block hash prevHeight id journal batch) := by
  obtain ⟨clock, journalPut, reorgWrite, journalDelete, saveWrite⟩ := working
  obtain ⟨now, clock⟩ := Option.isSome_iff_exists.mp clock
  have notDeep : ¬ c.bestHeight - prevHeight > reorgMaxDepth := Nat.not_lt.mpr depth
  unfold newWork currentWork at more
  have notClose (old new : Nat) (gained : old < new) : ¬ new ≤ old * 99 / 100 := by omega
  refine ⟨journalIdOf now, reorgJournalCodec.encode ⟨journalIdOf now, UInt64.ofNat c.bestHeight,
    c.bestTip, UInt64.ofNat (usizeSub c.bestHeight prevHeight), block⟩, ?_, ?_⟩
  · intro e failed
    simp only [connectNew, Locking.connectNew, valid, compact, gt_iff_lt, more, if_true, notDeep,
      if_false, pure_aside, notClose _ _ more, reorganise, clock, journalPut, Bool.not_true,
      Bool.false_eq_true]
    rw [← reorgBatch_journalled c (journalIdOf now)] at failed
    unfold journalled at failed
    rw [failed]
    rfl
  · intro batch built
    simp only [connectNew, Locking.connectNew, valid, compact, gt_iff_lt, more, if_true, notDeep,
      if_false, pure_aside, notClose _ _ more, reorganise, clock, journalPut, Bool.not_true,
      Bool.false_eq_true]
    rw [← reorgBatch_journalled c (journalIdOf now)] at built
    unfold journalled at built
    rw [built]
    simp only [reorgWrite, journalDelete, Bool.not_true, Bool.false_eq_true, if_false, finish,
      saveBlock, hashed, saveWrite, reorganised, journalled]

theorem connectNew_accepted_iff {o : Outside} (hashed : headerHash env block.header = .ok hash)
    (valid : validateBlock env c.db c.bestHeight o.nowMs block (prevHeight + 1) = .ok ())
    (compact : compactToTarget block.header.bits = .ok target)
    (more : currentWork c < newWork c prevHeight target) :
    (∃ height reorg, (connectNew env o block prevHeight c).1 = .ok (.accepted height reorg)) ↔
      c.bestHeight - prevHeight ≤ reorgMaxDepth ∧ Working o ∧
        ∃ batch, reorgBatch env c.db c.state.utxoSetHash c.state.totalSupply prevHeight
          (c.bestHeight - prevHeight) block = .ok batch := by
  constructor
  · rintro ⟨height, reorg, accepted⟩
    have heavier := more
    unfold newWork currentWork at heavier
    simp only [connectNew, Locking.connectNew, valid, compact, gt_iff_lt, heavier, if_true,
      pure_aside] at accepted
    split at accepted
    · exact absurd accepted (by simp [fail])
    · rename_i depth
      split at accepted
      · exact absurd accepted (by simp [fail])
      · refine ⟨Nat.not_lt.mp depth, ?_⟩
        unfold reorganise at accepted
        split at accepted
        · exact absurd accepted (by simp [fail, finish])
        · rename_i now clock
          cases put : o.journalPut with
          | false => exact absurd accepted (by simp [put, fail, finish])
          | true =>
              simp only [put, Bool.not_true, Bool.false_eq_true, if_false] at accepted
              split at accepted
              · exact absurd accepted (by simp [finish])
              · rename_i batch built
                have built := (reorgBatch_journalled c (journalIdOf now) _ _ _ _ _ block).symm.trans
                  built
                cases written : o.reorgWrite with
                | false => exact absurd accepted (by simp [written, fail, finish])
                | true =>
                    cases deleted : o.journalDelete with
                    | false => exact absurd accepted (by simp [written, deleted, fail, finish])
                    | true =>
                        cases saved : o.saveWrite with
                        | false =>
                            exact absurd accepted
                              (by simp [written, deleted, saved, fail, finish, saveBlock, hashed])
                        | true =>
                            exact ⟨⟨by rw [clock]; rfl, put, written, deleted, saved⟩, batch, built⟩
  · rintro ⟨depth, working, batch, built⟩
    obtain ⟨id, journal, -, succeeds⟩ := connectNew_heavier working hashed valid compact more depth
    exact ⟨_, _, by rw [succeeds batch built]⟩

theorem addBlock_heavier (working : Working (world.outside c.tick))
    (settled : ∀ x ∈ c.orphanBlocks, Settled env c.state x.block)
    (hashed : headerHash env block.header = .ok hash) (unknown : hash ∉ c.state.hashToHeight)
    (parent : c.state.hashToHeight.lookup block.header.prevHash = some prevHeight)
    (valid : validateBlock env c.db c.bestHeight (world.outside c.tick).nowMs block
      (prevHeight + 1) = .ok ())
    (compact : compactToTarget block.header.bits = .ok target)
    (more : currentWork c < newWork c prevHeight target)
    (depth : c.bestHeight - prevHeight ≤ reorgMaxDepth) :
    ∃ id journal,
      (∀ e, reorgBatch env c.db c.state.utxoSetHash c.state.totalSupply prevHeight
          (c.bestHeight - prevHeight) block = .error e →
        addBlock env world block c =
          (.error e, { c with tick := c.tick + 1, db := journalled c id journal })) ∧
      ∀ batch, reorgBatch env c.db c.state.utxoSetHash c.state.totalSupply prevHeight
          (c.bestHeight - prevHeight) block = .ok batch →
        ∃ tick pool, (∀ x ∈ pool, Settled env c.state x.block) ∧
          addBlock env world block c =
            (if (prevHeight + 1) % 1000 = 0 then
              (validateState (reorganised c block hash prevHeight id journal batch)).map
                fun _ => true
            else .ok true,
            { reorganised c block hash prevHeight id journal batch with
              tick := tick, orphanBlocks := pool }) := by
  obtain ⟨id, journal, fails, succeeds⟩ := connectNew_heavier (c := { c with tick := c.tick + 1 })
    working hashed valid compact more depth
  have submitted : submit env world block c = connectNew env (world.outside c.tick) block prevHeight
      { c with tick := c.tick + 1 } := by
    simp only [submit, Locking.submit, hashed, unknown, if_false, parent]
    rfl
  refine ⟨id, journal, ?_, ?_⟩
  · intro e failed
    simp only [addBlock, addBlockWith_eq, submitted, fails e failed]
    rfl
  · intro batch built
    obtain ⟨tick, pool, looped, kept⟩ := processOrphans_settled world (c.orphanBlocks.length + 1)
      (reorganised { c with tick := c.tick + 1 } block hash prevHeight id journal batch) settled
    refine ⟨tick, pool, kept, ?_⟩
    simp only [addBlock, addBlockWith_eq, submitted, succeeds batch built, looped]
    split <;> rfl

end Step

section Outcome

variable {block : Block} {c : Chain} {prevHeight : Nat} {hash : Hash} {id journal : Bytes}
  {batch : DbBatch}

private theorem reorganised_store {family : Family} (member : family ∈ replayStores) :
    (reorganised c block hash prevHeight id journal batch).db family =
      applyWrites (c.db family) (writesTo family batch) := by
  have other := (ne_default_of_replayStores member).symm
  have saved : ∀ op ∈ saveOps (prevHeight + 1) block hash, op.1 ≠ family := by
    simpa [saveOps, putCf] using other
  have deleted : ∀ op ∈ [deleteCf .default (reorgKey id)], op.1 ≠ family := by
    simpa [deleteCf] using other
  simp only [reorganised]
  rw [write_of_no_writes _ _ _ saved, write_of_no_writes _ _ _ deleted, write,
    journalled_same c id journal family member]

private theorem get_reorganised {k : Bytes} (counter : CounterKey k) :
    get (reorganised c block hash prevHeight id journal batch).db .default k =
      get (write (journalled c id journal) batch) .default k := by
  have unsaved : k ∉ defaultKeys (saveOps (prevHeight + 1) block hash) := by
    rw [defaultKeys_saveOps]
    rcases counter with rfl | rfl <;>
      simp [utxoSetHashKey, totalSupplyKey, blockKey, heightKey, tipKey, bestHeightKey]
  exact (get_write_of_notMem unsaved).trans (get_journalDelete (counter.ne_reorgKey id))

theorem get_reorganised_of_other {depth : Nat}
    (built : reorgBatch env c.db c.state.utxoSetHash c.state.totalSupply prevHeight depth block =
      .ok batch) {k : Bytes} (noCounter : ¬ CounterKey k)
    (noHeader : k ≠ headerKey (prevHeight + 1)) (noJournal : k ≠ reorgKey id)
    (unsaved : k ∉ defaultKeys (saveOps (prevHeight + 1) block hash)) :
    get (reorganised c block hash prevHeight id journal batch).db .default k =
      get c.db .default k := by
  calc get (reorganised c block hash prevHeight id journal batch).db .default k
    _ = get (write (journalled c id journal) batch) .default k :=
        (get_write_of_notMem unsaved).trans (get_journalDelete noJournal)
    _ = get c.db .default k :=
        ((reorgBatch_default built).get_of_other _ noCounter noHeader).trans
          (get_journalPut noJournal)

private theorem reorgBatch_counters {db : Db} {setHash : Hash} {supply : UInt64} {depth : Nat}
    (built : reorgBatch env db setHash supply prevHeight depth block = .ok batch) (base : Db) :
    ∃ result, runSupply supply (blockEffect env db (prevHeight + 1) true block.txs).supplyOps =
        some result ∧
      get (write base batch) .default utxoSetHashKey = some (xorHash setHash
        (blockEffect env db (prevHeight + 1) true block.txs).element).toList ∧
      get (write base batch) .default totalSupplyKey = some (beBytes 8 result.toNat) := by
  simp only [reorgBatch, bind_eq_ok] at built
  obtain ⟨first, -, connects⟩ := built
  obtain ⟨-, acc, applied, rfl⟩ := (buildBlockOps_eq_ok ..).mp connects
  simp only [decide_true] at applied
  obtain ⟨-, ran, sets, -⟩ := (applyUtxoChanges_eq_ok ..).mp applied
  refine ⟨acc.supply, ran, ?_⟩
  rw [write_append, ← sets]
  exact get_counterWrites _ acc.setHash acc.supply

private theorem reorgBatch_stores {db : Db} {setHash : Hash} {supply : UInt64} {newer : List Block}
    (stored : StoredAbove env db prevHeight newer)
    (coinbases : ∀ gone ∈ newer, AllCoinbase gone)
    (built : reorgBatch env db setHash supply prevHeight newer.length block = .ok batch) :
    (∀ family ∈ replayStores, family ≠ .coinbase → writesTo family batch =
        writesTo family (blockEffect env db (prevHeight + 1) true block.txs).writes) ∧
      ∃ deletes, writesTo .coinbase batch = deletes ++
          writesTo .coinbase (blockEffect env db (prevHeight + 1) true block.txs).writes ∧
        deletes.map Write.key = newer.flatMap (fun gone => coinbaseIds env gone.txs) ∧
        ∀ w ∈ deletes, w.left = none := by
  obtain ⟨first, disconnects, others, deletes, coinbase, keys, removing⟩ :=
    disconnectOps_coinbases setHash supply stored coinbases []
  simp only [reorgBatch, disconnects, bind_eq_ok, Except.ok.injEq, exists_eq_left'] at built
  refine ⟨?_, deletes, ?_, keys, removing⟩
  · intro family member other
    rw [buildBlockOps_store built member, others family member other]
    simp
  · rw [buildBlockOps_store built (by decide), coinbase]
    simp

private theorem validateState_of_stored {supply : UInt64}
    (stored : get c.db .default totalSupplyKey = some (beBytes 8 supply.toNat)) :
    validateState c = .ok () ↔ supply = c.state.totalSupply := by
  have back : UInt64.ofNat (ofBeBytes (beBytes 8 supply.toNat)) = supply := by
    rw [ofBeBytes_beBytes 8 _ (by simpa using supply.toNat_lt), UInt64.ofNat_toNat]
  simp [validateState, stored, back]

variable (hash id journal) in
private theorem reorganised_counters {depth : Nat}
    (built : reorgBatch env c.db c.state.utxoSetHash c.state.totalSupply
      prevHeight depth block = .ok batch) :
    ∃ result, runSupply c.state.totalSupply
        (blockEffect env c.db (prevHeight + 1) true block.txs).supplyOps = some result ∧
      get (reorganised c block hash prevHeight id journal batch).db .default utxoSetHashKey =
        some (xorHash c.state.utxoSetHash
          (blockEffect env c.db (prevHeight + 1) true block.txs).element).toList ∧
      (validateState (reorganised c block hash prevHeight id journal batch) = .ok () ↔
        result = c.state.totalSupply) := by
  obtain ⟨result, ran, sets, supplied⟩ := reorgBatch_counters built (journalled c id journal)
  refine ⟨result, ran, ?_, validateState_of_stored ?_⟩
  · rw [get_reorganised (Or.inl rfl), sets]
  · rw [get_reorganised (Or.inr rfl), supplied]

end Outcome

section Main

variable {c : Chain} {newer older : List Block} {block : Block} {hash setHash : Hash} {db : Db}
  {prevHeight : Nat} {id journal : Bytes} {batch : DbBatch}

private theorem Describes.below (describes : Describes env c (newer ++ older))
    (coinbases : ∀ gone ∈ newer, AllCoinbase gone) (before : Replay env older db setHash) :
    c.state.utxoSetHash = setHash ∧ SameCoins c.db db ∧
      ∀ k, (∀ gone ∈ newer, k ∉ coinbaseIds env gone.txs) →
        (c.db .coinbase).lookup k = (db .coinbase).lookup k := by
  obtain ⟨whole, replay, same⟩ := describes.stores
  obtain ⟨base, below, coins, ids⟩ := replay.below_coinbases coinbases
  obtain ⟨rfl, unique⟩ := below.unique before
  obtain ⟨utxo, anonymous, keyImages⟩ := same.coins
  obtain ⟨utxo', anonymous', keyImages'⟩ := coins
  obtain ⟨utxo'', anonymous'', keyImages''⟩ := unique.coins
  refine ⟨rfl, ⟨?_, ?_, ?_⟩, ?_⟩
  · rw [utxo, utxo', utxo'']
  · rw [anonymous, anonymous', anonymous'']
  · rw [keyImages, keyImages', keyImages'']
  · intro k outside
    rw [same .coinbase (by decide), ids k outside, unique .coinbase (by decide)]

variable (hash id journal) in
private theorem reorganised_same_iff (describes : Describes env c (newer ++ older))
    (size : older.length = prevHeight + 1) (coinbases : ∀ gone ∈ newer, AllCoinbase gone)
    {supply : UInt64} {acc : UtxoAcc} (before : Replay env older db setHash)
    (connected : applyUtxoChanges env db setHash supply block older.length true [] = .ok acc)
    (built : reorgBatch env c.db c.state.utxoSetHash c.state.totalSupply
      prevHeight newer.length block = .ok batch) :
    SameStores (reorganised c block hash prevHeight id journal batch).db (write db acc.batch) ↔
      ∀ gone ∈ newer, ∀ k ∈ coinbaseIds env gone.txs,
        k ∈ coinbaseIds env block.txs ∨ ∀ kept ∈ older, k ∉ coinbaseIds env kept.txs := by
  obtain ⟨-, coins, ids⟩ := describes.below coinbases before
  have stored := describes.indexed.storedAbove size
  obtain ⟨others, deletes, coinbase, keys, removing⟩ := reorgBatch_stores stored coinbases built
  rw [coins.blockEffect, ← size] at others coinbase
  obtain ⟨putKeys, -⟩ := blockEffect_coinbase env db older.length true block.txs
  have outside (k : Bytes) (untouched : ∀ w ∈ deletes, w.key ≠ k) :
      (c.db .coinbase).lookup k = (db .coinbase).lookup k := by
    refine ids k ?_
    intro gone member inside
    have listed : k ∈ deletes.map Write.key := by
      rw [keys]
      exact List.mem_flatMap.mpr ⟨gone, member, inside⟩
    obtain ⟨w, written, hits⟩ := List.mem_map.mp listed
    exact untouched w written hits
  have again (k : Bytes) : k ∈ coinbaseIds env block.txs ↔ ∃ w ∈ writesTo .coinbase
      (blockEffect env db older.length true block.txs).writes, w.key = k := by
    rw [← putKeys, List.mem_map]
  calc SameStores (reorganised c block hash prevHeight id journal batch).db (write db acc.batch)
    _ ↔ (reorganised c block hash prevHeight id journal batch).db .coinbase =
          write db acc.batch .coinbase := by
        refine ⟨fun same => same .coinbase (by decide), fun same family member => ?_⟩
        by_cases other : family = .coinbase
        · rw [other, same]
        · rw [reorganised_store member, connect_store connected member, others family member other,
            coins.store member other]
    _ ↔ ∀ w ∈ deletes, (∃ u ∈ writesTo .coinbase
          (blockEffect env db older.length true block.txs).writes, u.key = w.key) ∨
            (db .coinbase).lookup w.key = none := by
        rw [reorganised_store (by decide), connect_store connected (by decide), coinbase,
          applyWrites_append]
        exact applyWrites_deletes_eq_iff _ _ _ _ removing outside
    _ ↔ ∀ k ∈ deletes.map Write.key, k ∈ coinbaseIds env block.txs ∨
          ∀ kept ∈ older, k ∉ coinbaseIds env kept.txs := by
        simp only [List.forall_mem_map, again, ← before.coinbase_eq_none_iff]
    _ ↔ _ := by rw [keys, List.forall_mem_flatMap]

private theorem Indexed.drop {c : Chain} {newer older : List Block}
    (indexed : Indexed env c (newer ++ older)) : Indexed env c older := by
  induction newer with
  | nil => exact indexed
  | cons block newer ih => exact ih indexed.2

private theorem addBlock_winning (describes : Describes env c (newer ++ older))
    (settled : ∀ x ∈ c.orphanBlocks, Settled env c.state x.block)
    (working : Working (world.outside c.tick))
    (winning : Winning env (world.outside c.tick).nowMs c newer older block hash)
    (unknown : hash ∉ c.state.hashToHeight) :
    ∃ prevHeight id journal, older.length = prevHeight + 1 ∧
      (∀ e, reorgBatch env c.db c.state.utxoSetHash c.state.totalSupply
          prevHeight newer.length block = .error e → (addBlock env world block c).1 = .error e) ∧
      ∀ batch, reorgBatch env c.db c.state.utxoSetHash c.state.totalSupply
          prevHeight newer.length block = .ok batch →
        (addBlock env world block c).1 =
            (if older.length % 1000 = 0 then
              (validateState (reorganised c block hash prevHeight id journal batch)).map
                fun _ => true
            else .ok true) ∧
          (addBlock env world block c).2.db =
            (reorganised c block hash prevHeight id journal batch).db := by
  obtain ⟨hashed, ⟨parent, first, above⟩, depth, valid, target, compact, more⟩ := winning
  cases older with
  | nil => simp at first
  | cons head rest =>
      obtain rfl : head = parent := by simpa using first
      obtain ⟨⟨parentHash, parentHashed, -, found, -⟩, -⟩ := describes.indexed.drop
      obtain rfl := Except.ok.inj (parentHashed.symm.trans above)
      have height : c.bestHeight - rest.length = newer.length := by
        have length := describes.length
        rw [List.length_append, List.length_cons] at length
        omega
      obtain ⟨id, journal, fails, succeeds⟩ := addBlock_heavier working settled hashed unknown found
        valid compact more (height.trans_le depth)
      rw [height] at fails succeeds
      refine ⟨rest.length, id, journal, rfl, ?_, ?_⟩
      · intro e failed
        rw [fails e failed]
      · intro batch built
        obtain ⟨tick, pool, -, course⟩ := succeeds batch built
        rw [course]
        exact ⟨rfl, rfl⟩

private theorem Reorganisable.built (harmless : Reorganisable env c newer older block hash)
    (describes : Describes env c (newer ++ older)) (size : older.length = prevHeight + 1)
    (hashed : headerHash env block.header = .ok hash) {supply : UInt64} {acc : UtxoAcc}
    (before : Replay env older db setHash)
    (connected : applyUtxoChanges env db setHash supply block older.length true [] = .ok acc) :
    ∃ batch, reorgBatch env c.db c.state.utxoSetHash c.state.totalSupply
      prevHeight newer.length block = .ok batch := by
  obtain ⟨-, coins, -⟩ := describes.below harmless.coinbases before
  obtain ⟨result, ran, -⟩ := harmless.supply
  obtain ⟨handled, -⟩ := (applyUtxoChanges_eq_ok ..).mp connected
  have stored := describes.indexed.storedAbove size
  obtain ⟨first, disconnects, -⟩ := disconnectOps_coinbases c.state.utxoSetHash c.state.totalSupply
    stored harmless.coinbases []
  rw [size] at ran
  obtain ⟨acc', connects, -⟩ : ∃ acc', applyUtxoChanges env c.db c.state.utxoSetHash
      c.state.totalSupply block (prevHeight + 1) true first = .ok acc' ∧ _ :=
    applyUtxoChanges_of_run env _ _ true (fun tx member => coins.txOk (handled tx member)) ran
  obtain ⟨batch, built⟩ : ∃ batch, buildBlockOps env c.db c.state.utxoSetHash c.state.totalSupply
      block (prevHeight + 1) .connect first = .ok batch :=
    ⟨_, (buildBlockOps_eq_ok ..).mpr ⟨⟨hash, hashed⟩, acc', connects, rfl⟩⟩
  refine ⟨batch, ?_⟩
  simp only [reorgBatch, bind_eq_ok]
  exact ⟨first, disconnects, built⟩

private theorem Describes.coinbases_of_built (describes : Describes env c (newer ++ older))
    (size : older.length = prevHeight + 1) (fresh : FreshOutpoints env (newer ++ older))
    (spending : ∀ gone ∈ newer, ∀ tx ∈ gone.txs, isCoinbase tx = false → tx.inputs ≠ [])
    (built : reorgBatch env c.db c.state.utxoSetHash c.state.totalSupply
      prevHeight newer.length block = .ok batch) : ∀ gone ∈ newer, AllCoinbase gone := by
  -- A spent coin is not in the database that the disconnects read, and no other block created it
  -- again.
  intro gone member tx inside
  by_contra ordinary
  rw [Bool.not_eq_true] at ordinary
  obtain ⟨vin, input⟩ := List.exists_mem_of_ne_nil _ (spending gone member tx inside ordinary)
  have stored := describes.indexed.storedAbove size
  simp only [reorgBatch, bind_eq_ok] at built
  obtain ⟨first, disconnects, -⟩ := built
  have present := (disconnectOps_handled stored disconnects gone member tx inside ordinary vin
    input).1
  obtain ⟨whole, replay, same⟩ := describes.stores
  have spent := (replay.outpoints tx.isAnonymous (fresh _) _).2
    ⟨gone, List.mem_append_left _ member, tx, inside, ordinary, rfl, vin, input, rfl⟩
  have coins := coinFamily_mem_replayStores tx.isAnonymous
  refine lookup_ne_none_of_storedCoin present ?_
  rw [same _ coins]
  exact spent.2

/-- The heavier path of `add_block` against a replay of the new chain. It reads one database for
all the blocks it takes back, so a spent coin is missing there and the set hash is not taken
back; what is left is blocks of coinbases. -/
theorem reorganisation_replays (env : Env) (world : World) (c : Chain) (newer older : List Block)
    (block : Block) (hash setHash : Hash) (db : Db) (describes : Describes env c (newer ++ older))
    (settled : ∀ x ∈ c.orphanBlocks, Settled env c.state x.block)
    (working : Working (world.outside c.tick))
    (winning : Winning env (world.outside c.tick).nowMs c newer older block hash)
    (replay : Replay env (block :: older) db setHash) :
    (Reorganisable env c newer older block hash →
        Replayed db setHash (addBlock env world block c)) ∧
      (FreshOutpoints env (newer ++ older) →
        (∀ gone ∈ newer, ∀ tx ∈ gone.txs, isCoinbase tx = false → tx.inputs ≠ []) →
        Replayed db setHash (addBlock env world block c) →
        Reorganisable env c newer older block hash) := by
  cases replay with
  | connect before _ supply acc connected =>
      refine ⟨?_, ?_⟩
      · intro harmless
        obtain ⟨prevHeight, id, journal, size, -, succeeds⟩ :=
          addBlock_winning describes settled working winning harmless.unknown
        obtain ⟨batch, built⟩ := harmless.built describes size winning.hashed before connected
        obtain ⟨returned, stored⟩ := succeeds batch built
        obtain ⟨sameSet, coins, -⟩ := describes.below harmless.coinbases before
        obtain ⟨result, ran, sets, balanced⟩ := reorganised_counters hash id journal built
        obtain ⟨_, ran', level⟩ := harmless.supply
        rw [size, ran, Option.some.injEq] at ran'
        subst ran'
        obtain ⟨-, -, sets', -⟩ := (applyUtxoChanges_eq_ok ..).mp connected
        refine ⟨?_, ?_, ?_⟩
        · rw [returned]
          split
          · rename_i round
            rw [balanced.mpr (level round)]
            rfl
          · rfl
        · rw [stored]
          exact (reorganised_same_iff hash id journal describes size harmless.coinbases before
            connected built).mpr harmless.ids
        · rw [stored, sets, sets', sameSet, coins.blockEffect, size]
      · intro fresh spending replayed
        have unknown : hash ∉ c.state.hashToHeight := by
          intro there
          have known : addBlock env world block c = (.ok false, { c with tick := c.tick + 1 }) := by
            simp [addBlock, addBlockWith_eq, submit, Locking.submit, winning.hashed, there]
          simpa [known] using replayed.1
        obtain ⟨prevHeight, id, journal, size, fails, succeeds⟩ :=
          addBlock_winning describes settled working winning unknown
        obtain ⟨batch, built⟩ : ∃ batch, reorgBatch env c.db
            c.state.utxoSetHash c.state.totalSupply prevHeight newer.length block = .ok batch := by
          cases built : reorgBatch env c.db c.state.utxoSetHash
              c.state.totalSupply prevHeight newer.length block with
          | error e => exact absurd ((fails e built).symm.trans replayed.1) (by simp)
          | ok batch => exact ⟨batch, rfl⟩
        obtain ⟨returned, stored⟩ := succeeds batch built
        obtain ⟨result, ran, -, balanced⟩ := reorganised_counters hash id journal built
        have coinbases := describes.coinbases_of_built size fresh spending built
        refine ⟨unknown, coinbases, ?_, result, size ▸ ran, ?_⟩
        · refine (reorganised_same_iff hash id journal describes size coinbases before connected
            built).mp ?_
          rw [← stored]
          exact replayed.2.1
        · intro round
          rw [if_pos round, replayed.1] at returned
          cases checked : validateState (reorganised c block hash prevHeight id journal batch) with
          | error e => simp [checked, Except.map] at returned
          | ok done => exact balanced.mp checked

end Main

def sampleMint : Transaction where
  version := 1
  isAnonymous := false
  inputs := []
  outputs := [sampleCoin]
  lockTime := 0
  rangeProofs := []

def sampleRoot : Block := sampleBlock [sampleMint]

/-- A light block at height 1, which may spend the coin of the first one. -/
def sampleLight (spends : Bool) : Block :=
  ⟨{ (sampleRival 1).header with bits := 0x1e00ffff }, (sampleRival 1).txs ++
    if spends then
      [{ sampleSpend [] with inputs := [⟨txHash sampleEnv sampleMint, 0, [], maxU32⟩] }]
    else []⟩

def sampleHeavy : Block :=
  ⟨{ (sampleRival 2).header with timestamp := genesisTimestamp + 1 }, (sampleRival 2).txs⟩

def sampleStores (chain : List Block) : Db × Hash :=
  (replayChain sampleEnv chain).getD (emptyDb, zeroHash)

def sampleNode (spends : Bool) : Chain where
  db := write (sampleStores [sampleLight spends, sampleRoot]).1
    [putCf .default (headerKey 0) (headerCodec.encode sampleRoot.header),
     putCf .default (blockKey (sampleHash sampleRoot).toList) (blockCodec.encode sampleRoot),
     putCf .default (heightKey 0) (sampleHash sampleRoot).toList,
     putCf .default (blockKey (sampleHash (sampleLight spends)).toList)
       (blockCodec.encode (sampleLight spends)),
     putCf .default (heightKey 1) (sampleHash (sampleLight spends)).toList,
     putCf .default tipKey (sampleHash (sampleLight spends)).toList,
     putCf .default bestHeightKey (beBytes 4 1)]
  state :=
    { blocks := ∅
      heightToHash := ((∅ : Map Nat Hash).insert 0 (sampleHash sampleRoot)).insert 1
        (sampleHash (sampleLight spends))
      hashToHeight := ((∅ : Map Hash Nat).insert (sampleHash sampleRoot) 0).insert
        (sampleHash (sampleLight spends)) 1
      cumulativeWork := ((∅ : Map Nat Nat).insert 0 (chainWork [sampleRoot])).insert 1
        (chainWork [sampleLight spends, sampleRoot])
      timestamps := []
      utxoSetHash := (sampleStores [sampleLight spends, sampleRoot]).2
      totalSupply := 20000 }
  bestTip := sampleHash (sampleLight spends)
  bestHeight := 1
  orphanBlocks := []
  genesisHash := sampleHash sampleRoot
  batchPending := false
  readOnlyMode := false
  tick := 0
  saved := []

private theorem sampleStores_replay (chain : List Block)
    (done : (replayChain sampleEnv chain).isSome) :
    Replay sampleEnv chain (sampleStores chain).1 (sampleStores chain).2 := by
  obtain ⟨⟨db, setHash⟩, replayed⟩ := Option.isSome_iff_exists.mp done
  have stores : sampleStores chain = (db, setHash) := by simp [sampleStores, replayed]
  rw [stores]
  exact replay_of_replayChain replayed

private theorem sampleNode_describes (spends : Bool) :
    Describes sampleEnv (sampleNode spends) ([sampleLight spends] ++ [sampleRoot]) where
  length := rfl
  stores := by
    refine ⟨_, sampleStores_replay [sampleLight spends, sampleRoot] ?_, ?_⟩
    · cases spends <;> decide +kernel
    · intro family member
      apply write_of_no_writes
      simpa [putCf] using (ne_default_of_replayStores member).symm
  setHash := by cases spends <;> decide +kernel
  indexed := by
    refine ⟨⟨sampleHash (sampleLight spends), ?_⟩, ⟨sampleHash sampleRoot, ?_⟩, trivial⟩
    · cases spends <;> decide +kernel
    · cases spends <;> decide +kernel
  only := by
    intro hash i found
    by_cases top : hash = sampleHash (sampleLight spends)
    · subst top
      obtain rfl : 1 = i := by simpa [sampleNode] using found
      simp [sampleNode]
    · by_cases root : hash = sampleHash sampleRoot
      · subst root
        obtain rfl : 0 = i := by
          simpa [sampleNode, Finmap.lookup_insert_of_ne _ top] using found
        simp [sampleNode, Finmap.lookup_insert_of_ne]
      · simp [sampleNode, Finmap.lookup_insert_of_ne, top, root] at found
  tip := by simp [sampleNode]
  tipStored := by
    constructor
    · cases spends <;> decide +kernel
    · cases spends <;> decide +kernel

theorem sampleWorld_working (tick : Nat) : Working (sampleWorld.outside tick) :=
  ⟨rfl, rfl, rfl, rfl, rfl⟩

private theorem sampleHeavy_winning (spends : Bool) :
    Winning sampleEnv (some 2000000000000) (sampleNode spends) [sampleLight spends] [sampleRoot]
      sampleHeavy (sampleHash sampleHeavy) where
  hashed := by decide +kernel
  parent := ⟨sampleRoot, rfl, by decide +kernel⟩
  depth := by cases spends <;> decide
  valid := by cases spends <;> decide +kernel
  more := ⟨0xffff * 2 ^ 208, by decide +kernel, by cases spends <;> decide +kernel⟩

theorem sampleHeavy_refused :
    (addBlock sampleEnv sampleWorld sampleHeavy (sampleNode true)).1 = fail .missingUTXO := by
  decide +kernel

/-- A block that has spent a coin cannot be left: the coin is gone from the database. -/
theorem spending_block_not_left :
    Describes sampleEnv (sampleNode true) ([sampleLight true] ++ [sampleRoot]) ∧
      (sampleNode true).orphanBlocks = [] ∧
      Working (sampleWorld.outside (sampleNode true).tick) ∧
      Winning sampleEnv (some 2000000000000) (sampleNode true) [sampleLight true] [sampleRoot]
        sampleHeavy (sampleHash sampleHeavy) ∧
      ∃ db setHash, Replay sampleEnv [sampleHeavy, sampleRoot] db setHash ∧
        ¬ Replayed db setHash (addBlock sampleEnv sampleWorld sampleHeavy (sampleNode true)) := by
  refine ⟨sampleNode_describes true, rfl, sampleWorld_working _, sampleHeavy_winning true, _, _,
    sampleStores_replay _ (by decide +kernel), ?_⟩
  rintro ⟨returned, -⟩
  exact absurd (sampleHeavy_refused.symm.trans returned) (by simp)

theorem coinbase_block_left :
    ∃ db setHash, Replay sampleEnv [sampleHeavy, sampleRoot] db setHash ∧
      Replayed db setHash (addBlock sampleEnv sampleWorld sampleHeavy (sampleNode false)) := by
  have replay := sampleStores_replay [sampleHeavy, sampleRoot] (by decide +kernel)
  refine ⟨_, _, replay, ?_⟩
  refine (reorganisation_replays sampleEnv sampleWorld (sampleNode false) [sampleLight false]
    [sampleRoot] sampleHeavy (sampleHash sampleHeavy) _ _ (sampleNode_describes false)
    (by simp [sampleNode]) (sampleWorld_working _) (sampleHeavy_winning false) replay).1 ?_
  refine ⟨by decide +kernel, ?_, ?_, 20000, by decide +kernel, by decide⟩
  · simp only [AllCoinbase]
    decide +kernel
  · decide +kernel

end Lyrion.Node
