/- GID: Lyrion/Node/SideBlock
   digest: What a block that does not win leaves of the active chain. -/

import Lyrion.Node.Frames
import Lyrion.Node.Undo

set_option autoImplicit false
set_option relaxedAutoImplicit false

namespace Lyrion.Node

open Library.ByteCodec Library.KeyValue Data Utils Tx

/-- The in-memory indexes describe one chain up to the best height. -/
structure IndexConsistent (c : Chain) : Prop where
  tip : c.state.heightToHash.lookup c.bestHeight = some c.bestTip
  inverse : ∀ i ≤ c.bestHeight, ∀ hash,
    c.state.heightToHash.lookup i = some hash ↔ c.state.hashToHeight.lookup hash = some i
  linked : ∀ i < c.bestHeight, ∀ block, c.state.blocks.lookup (i + 1) = some block →
    c.state.heightToHash.lookup i = some block.header.prevHash
  work : ∀ i < c.bestHeight, ∀ block target, c.state.blocks.lookup (i + 1) = some block →
    compactToTarget block.header.bits = .ok target →
      c.state.cumulativeWork.lookup (i + 1) =
        (c.state.cumulativeWork.lookup i).map fun below => below + blockWork target

structure TipStored (c : Chain) : Prop where
  tip : get c.db .default tipKey = some c.bestTip.toList
  height : get c.db .default bestHeightKey = some (beBytes 4 c.bestHeight)

/-- The active chain and the coins are as they were. -/
structure Unchanged (before after : Chain) : Prop where
  stores : ∀ family ∈ coinStores, after.db family = before.db family
  heights : ∀ i ≤ before.bestHeight,
    get after.db .default (heightKey i) = get before.db .default (heightKey i) ∧
    get after.db .default (headerKey i) = get before.db .default (headerKey i) ∧
    after.state.heightToHash.lookup i = before.state.heightToHash.lookup i
  bestTip : after.bestTip = before.bestTip
  bestHeight : after.bestHeight = before.bestHeight
  entries : ∀ k ∈ [tipKey, bestHeightKey, utxoSetHashKey, totalSupplyKey],
    get after.db .default k = get before.db .default k
  utxoSetHash : after.state.utxoSetHash = before.state.utxoSetHash
  totalSupply : after.state.totalSupply = before.state.totalSupply

def Connectable (env : Env) (c : Chain) (block : Block) (height : Nat) : Prop :=
  (∀ tx ∈ block.txs, TxOk env c.db true tx) ∧
    (runSupply c.state.totalSupply (blockEffect env c.db height true block.txs).supplyOps).isSome

variable {env : Env} {world : World}

private theorem connectable_iff (c : Chain) (block : Block) (height : Nat) :
    Connectable env c block height ↔
      ∃ acc, applyUtxoChanges env c.db c.state.utxoSetHash c.state.totalSupply block height true
        [] = .ok acc := by
  constructor
  · rintro ⟨handled, ran⟩
    obtain ⟨result, ran⟩ := Option.isSome_iff_exists.mp ran
    obtain ⟨acc, connected, -⟩ := applyUtxoChanges_of_run env c.db height true handled ran
    exact ⟨acc, connected⟩
  · rintro ⟨acc, connected⟩
    obtain ⟨handled, ran, -⟩ := (applyUtxoChanges_eq_ok ..).mp connected
    exact ⟨handled, by simp [ran]⟩

def TipLost (tip : Hash) (c : Chain) : Prop :=
  tip ∈ c.state.hashToHeight ∧ get c.db .default tipKey ≠ some tip.toList

theorem tip_ne_headerKey (height : Nat) : tipKey ≠ headerKey height := by
  simp [tipKey, headerKey]

private theorem reorganise_tip (env : Env) (o : Outside) (block : Block) (prevHeight : Nat)
    (c : Chain) :
    (reorganise env o block prevHeight c).2.state = c.state ∧
      get (reorganise env o block prevHeight c).2.db .default tipKey =
        get c.db .default tipKey := by
  have cases := reorganise_cases env o block c prevHeight
  generalize reorganise env o block prevHeight c = result at cases
  cases cases with
  | stopped e => exact ⟨rfl, rfl⟩
  | journalled e id journal => exact ⟨rfl, get_journalPut (IndexKey.tip.ne_reorgKey id)⟩
  | written e id journal batch built =>
      refine ⟨rfl, ?_⟩
      rw [(reorgBatch_default built).get_of_other _ IndexKey.tip.not_counter (tip_ne_headerKey _),
        get_journalPut (IndexKey.tip.ne_reorgKey id)]
  | done id journal batch built =>
      refine ⟨rfl, ?_⟩
      rw [get_journalDelete (IndexKey.tip.ne_reorgKey id),
        (reorgBatch_default built).get_of_other _ IndexKey.tip.not_counter (tip_ne_headerKey _),
        get_journalPut (IndexKey.tip.ne_reorgKey id)]

private theorem side_tip (env : Env) (o : Outside) (block : Block) (height work : Nat) (c : Chain) :
    (∀ hash ∈ c.state.hashToHeight, hash ∈
      (applyBlockAction env o block height .connect false work [] c).2.state.hashToHeight) ∧
      get (applyBlockAction env o block height .connect false work [] c).2.db .default tipKey =
        get c.db .default tipKey := by
  have cases := applyBlockAction_cases env o block c height .connect false work []
  generalize applyBlockAction env o block height .connect false work [] c = result at cases
  cases cases with
  | locked e closed => exact ⟨fun _ inside => inside, rfl⟩
  | failed e => exact ⟨fun _ inside => inside, rfl⟩
  | rolledBack e acc connected unwritten =>
      refine ⟨fun _ inside => inside, ?_⟩
      simp only [Data.get, rollbackBatch_default connected]
  | frozen e => exact ⟨fun _ inside => inside, rfl⟩
  | applied r hash hashed acc connected blocks pending =>
      refine ⟨fun other inside => ?_, ?_⟩
      · simp only [ChainState.applyChanges, Finmap.mem_insert]
        exact Or.inr inside
      · apply get_write_of_notMem
        rw [defaultKeys, actionBatch_default connected]
        simp [headerWrites, Write.key, tipKey, utxoSetHashKey, totalSupplyKey, headerKey,
          stateTotalSupplyKey]

private theorem tipLost_keeps (env : Env) (world : World) (tip : Hash) :
    Keeps env world (TipLost tip) fun _ => True := by
  -- Whatever is saved later is new to the index.
  apply keeps_of_phases fun hash c => TipLost tip c ∧ hash ≠ tip
  · exact fun _ _ _ lost => lost
  · exact fun hash c lost fresh => ⟨lost, fun same => fresh (same ▸ lost.1)⟩
  · exact fun _ _ lost => lost.1
  · rintro o block hash prevHeight c ⟨lost, other⟩
    obtain ⟨state, entry⟩ := reorganise_tip env o block prevHeight c
    refine ⟨⟨?_, ?_⟩, other⟩
    · rw [state]
      exact lost.1
    · rw [entry]
      exact lost.2
  · rintro o block hash height work c ⟨lost, other⟩
    obtain ⟨indexed, entry⟩ := side_tip env o block height work c
    refine ⟨⟨indexed tip lost.1, ?_⟩, other⟩
    rw [entry]
    exact lost.2
  · rintro block hash height c ⟨lost, other⟩
    refine ⟨lost.1, ?_⟩
    simpa only [get_saveOps_tip, ne_eq, Option.some.injEq, Vector.toList_inj] using other

section Lighter

variable {block : Block} {c : Chain} {prevHeight target : Nat} {hash : Hash}

theorem addBlock_of_failed {e : Fault} {after : Chain}
    (failed : submit env world block c = (.error e, after)) :
    addBlock env world block c = (.error e, after) := by
  simp [addBlock, addBlockWith_eq, failed]

private theorem addBlock_of_accepted {height : Nat} {reorg : Bool} {after : Chain}
    (accepted : submit env world block c = (.ok (.accepted height reorg), after)) :
    (addBlock env world block c).2 =
      (processOrphans env world (c.orphanBlocks.length + 2) after).2 := by
  simp only [addBlock, addBlockWith_eq, accepted]
  generalize processOrphans env world (c.orphanBlocks.length + 2) after = result
  obtain ⟨e | done, c⟩ := result
  · rfl
  · simp only
    split <;> rfl

variable (hashed : headerHash env block.header = .ok hash) (fresh : hash ∉ c.state.hashToHeight)
  (parent : c.state.hashToHeight.lookup block.header.prevHash = some prevHeight)
  (valid : validateBlock env c.db c.bestHeight (world.outside c.tick).nowMs block
    (prevHeight + 1) = .ok ())
  (compact : compactToTarget block.header.bits = .ok target)
  (less : newWork c prevHeight target ≤ currentWork c)

include hashed fresh parent valid compact less

private theorem submit_lighter :
    submit env world block c =
      finish env (world.outside c.tick) block (prevHeight + 1) false
        ((applyBlockAction env (world.outside c.tick) block (prevHeight + 1) .connect false
            (blockWork target) [] { c with tick := c.tick + 1 }).1.map fun _ => (),
          (applyBlockAction env (world.outside c.tick) block (prevHeight + 1) .connect false
            (blockWork target) [] { c with tick := c.tick + 1 }).2) := by
  have notMore : ¬ newWork c prevHeight target > currentWork c := Nat.not_lt.mpr less
  unfold newWork currentWork at notMore
  simp only [submit, Locking.submit, hashed, fresh, if_false, parent,
    Locking.connectNew, valid, compact, notMore, pure_aside, bind_aside, applyBlockAction_aside]

private theorem submit_connectable (written : (world.outside c.tick).actionWrite = true)
    (saved : (world.outside c.tick).saveWrite = true) (notPending : ¬ c.batchPending = true)
    (notFrozen : ¬ c.readOnlyMode = true) (connectable : Connectable env c block (prevHeight + 1))
    {tip : Hash} (indexed : tip ∈ c.state.hashToHeight) :
    ∃ after, submit env world block c = (.ok (.accepted (prevHeight + 1) false), after) ∧
      TipLost tip after := by
  obtain ⟨acc, connected⟩ := (connectable_iff c block (prevHeight + 1)).mp connectable
  have submitted := submit_lighter hashed fresh parent valid compact less
  simp only [applyBlockAction, Locking.applyBlockAction, notPending, notFrozen, Bool.false_eq_true,
    if_false, hashed, lock_aside, pure_aside, bind_aside, false_and, decide_true, connected,
    written, saved, Bool.not_true, and_false, Except.map, finish, saveBlock] at submitted
  refine ⟨_, submitted, ?_, ?_⟩
  · simp only [ChainState.applyChanges, Finmap.mem_insert]
    exact Or.inr indexed
  · simp only [get_saveOps_tip, ne_eq, Option.some.injEq, Vector.toList_inj]
    exact fun tipped => fresh (tipped ▸ indexed)

private theorem submit_closed
    (closed : c.batchPending = true ∨ c.readOnlyMode = true ∨
      ¬ Connectable env c block (prevHeight + 1)) :
    ∃ e pending, submit env world block c =
      (.error e, { c with tick := c.tick + 1, batchPending := pending }) := by
  have submitted := submit_lighter hashed fresh parent valid compact less
  unfold applyBlockAction Locking.applyBlockAction at submitted
  simp only [lock_aside, pure_aside, bind_aside] at submitted
  by_cases pending : c.batchPending = true
  · rw [if_pos pending] at submitted
    exact ⟨_, c.batchPending, submitted⟩
  · rw [if_neg pending] at submitted
    by_cases frozen : c.readOnlyMode = true
    · rw [if_pos ⟨frozen, trivial⟩] at submitted
      exact ⟨_, c.batchPending, submitted⟩
    · rw [if_neg fun h => frozen h.1] at submitted
      have stuck : ¬ Connectable env c block (prevHeight + 1) := by tauto
      rw [connectable_iff] at stuck
      simp only [hashed, decide_true] at submitted
      cases connected : applyUtxoChanges env c.db c.state.utxoSetHash c.state.totalSupply block
          (prevHeight + 1) true [] with
      | error e =>
          simp only [connected] at submitted
          exact ⟨_, true, submitted⟩
      | ok acc => exact absurd ⟨acc, connected⟩ stuck

end Lighter

theorem Unchanged.of_flags (c : Chain) (tick : Nat) (pending : Bool) :
    Unchanged c { c with tick := tick, batchPending := pending } :=
  ⟨fun _ _ => rfl, fun _ _ => ⟨rfl, rfl, rfl⟩, rfl, rfl, fun _ _ => rfl, rfl, rfl⟩

theorem lighter_block_aside_iff (env : Env) (world : World) (c : Chain) (block : Block)
    (hash : Hash) (prevHeight target : Nat) (consistent : IndexConsistent c) (stored : TipStored c)
    (hashed : headerHash env block.header = .ok hash)
    (parent : c.state.hashToHeight.lookup block.header.prevHash = some prevHeight)
    (valid : validateBlock env c.db c.bestHeight (world.outside c.tick).nowMs block
      (prevHeight + 1) = .ok ())
    (compact : compactToTarget block.header.bits = .ok target)
    (less : newWork c prevHeight target ≤ currentWork c)
    (written : (world.outside c.tick).actionWrite = true)
    (saved : (world.outside c.tick).saveWrite = true) :
    Unchanged c (addBlock env world block c).2 ↔
      hash ∈ c.state.hashToHeight ∨ c.batchPending = true ∨ c.readOnlyMode = true ∨
        ¬ Connectable env c block (prevHeight + 1) := by
  constructor
  · intro same
    by_contra open_
    simp only [not_or, not_not] at open_
    obtain ⟨fresh, notPending, notFrozen, connectable⟩ := open_
    have indexed : c.bestTip ∈ c.state.hashToHeight :=
      Finmap.mem_iff.mpr ⟨_, (consistent.inverse _ le_rfl _).mp consistent.tip⟩
    obtain ⟨after, accepted, lost⟩ := submit_connectable hashed fresh parent valid compact less
      written saved notPending notFrozen connectable indexed
    have ended := (tipLost_keeps env world c.bestTip).holds_processOrphans
      (c.orphanBlocks.length + 2) after ⟨lost, fun _ _ => trivial⟩
    rw [← addBlock_of_accepted accepted] at ended
    exact ended.1.2 ((same.entries tipKey (by simp)).trans stored.tip)
  · intro closed
    by_cases fresh : hash ∈ c.state.hashToHeight
    · have ended : addBlock env world block c = (.ok false, { c with tick := c.tick + 1 }) := by
        simp [addBlock, addBlockWith_eq, submit, Locking.submit, hashed, fresh]
      rw [ended]
      exact Unchanged.of_flags c _ _
    · obtain ⟨e, pending, failed⟩ := submit_closed hashed fresh parent valid compact less
        (closed.resolve_left fresh)
      rw [addBlock_of_failed failed]
      exact Unchanged.of_flags c _ _

def sampleWorld : World where
  outside _ := ⟨some 2000000000000, some 2000000000000, 0, true, true, true, true, true, true⟩
  drainOrder _ pool := pool
  drain_perm _ pool := List.Perm.refl pool

def sampleHash (block : Block) : Hash :=
  (sampleEnv.powHash (headerCodec.encode block.header)).getD zeroHash

def sampleRival (nonce : UInt64) : Block :=
  sampleChild (sampleHash (sampleBlock [])) 10000000000 nonce

def sampleFork (pending : Bool) : Chain where
  db := write (sampleHeaderDb 1)
    [putCf .default tipKey (sampleHash (sampleRival 1)).toList,
     putCf .default bestHeightKey (beBytes 4 1)]
  state :=
    { blocks := (∅ : Map Nat Block).insert 1 (sampleRival 1)
      heightToHash := ((∅ : Map Nat Hash).insert 0 (sampleHash (sampleBlock []))).insert 1
        (sampleHash (sampleRival 1))
      hashToHeight := ((∅ : Map Hash Nat).insert (sampleHash (sampleBlock [])) 0).insert
        (sampleHash (sampleRival 1)) 1
      cumulativeWork := ((∅ : Map Nat Nat).insert 0 4295032833).insert 1 8590065666
      timestamps := []
      utxoSetHash := zeroHash
      totalSupply := 0 }
  bestTip := sampleHash (sampleRival 1)
  bestHeight := 1
  orphanBlocks := []
  genesisHash := sampleHash (sampleBlock [])
  batchPending := pending
  readOnlyMode := false
  tick := 0
  saved := []

theorem sampleFork_consistent (pending : Bool) : IndexConsistent (sampleFork pending) where
  tip := by simp [sampleFork]
  inverse := by
    have different : sampleHash (sampleBlock []) ≠ sampleHash (sampleRival 1) := by decide +kernel
    intro i bound hash
    by_cases first : hash = sampleHash (sampleRival 1)
    · subst first
      rcases Nat.le_one_iff_eq_zero_or_eq_one.mp bound with rfl | rfl
      · simp [sampleFork, Finmap.lookup_insert_of_ne, different]
      · simp [sampleFork]
    · by_cases root : hash = sampleHash (sampleBlock [])
      · subst root
        rcases Nat.le_one_iff_eq_zero_or_eq_one.mp bound with rfl | rfl
        · simp [sampleFork, Finmap.lookup_insert_of_ne, different]
        · simp [sampleFork, Finmap.lookup_insert_of_ne, different, different.symm]
      · rcases Nat.le_one_iff_eq_zero_or_eq_one.mp bound with rfl | rfl
        · simp [sampleFork, Finmap.lookup_insert_of_ne, first, root, Ne.symm root]
        · simp [sampleFork, Finmap.lookup_insert_of_ne, first, root, Ne.symm first]
  linked := by
    intro i bound block found
    obtain rfl : i = 0 := by simpa [sampleFork] using bound
    obtain rfl : sampleRival 1 = block := by simpa [sampleFork] using found
    cases pending <;> decide +kernel
  work := by
    intro i bound block target found compact
    obtain rfl : i = 0 := by simpa [sampleFork] using bound
    obtain rfl : sampleRival 1 = block := by simpa [sampleFork] using found
    have easy : compactToTarget (sampleRival 1).header.bits = .ok (0xffff * 2 ^ 208) := by
      decide +kernel
    obtain rfl := Except.ok.inj (easy.symm.trans compact)
    cases pending <;> decide +kernel

theorem sampleFork_stored (pending : Bool) : TipStored (sampleFork pending) where
  tip := by cases pending <;> decide +kernel
  height := by cases pending <;> decide +kernel

end Lyrion.Node
