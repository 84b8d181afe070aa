/- GID: Lyrion/Node/History
   digest: Start-up, and every state that submitting blocks can reach from it. -/

import Lyrion.Node.Reorg

set_option autoImplicit false
set_option relaxedAutoImplicit false

namespace Lyrion.Node

open Library.ByteCodec Library.KeyValue Library.Runs Data Utils Tx

/-- The journal clock and all writes work at every step. -/
structure Reliable (world : World) : Prop where
  working : ∀ tick, Working (world.outside tick)
  actionWrite : ∀ tick, (world.outside tick).actionWrite = true

/-- Blocks handed to `add_block` one after the other, whatever it answers. -/
def runBlocks (env : Env) (world : World) : Chain → List Block → Chain :=
  run fun c block => (addBlock env world block c).2

/-- The node that `Chain::new` hands the genesis block to. -/
def blank (db : Db) (root : Hash) : Chain :=
  ⟨db, emptyState, zeroHash, 0, [], root, false, false, 1, []⟩

variable {env : Env} {world : World}

theorem new_eq_ok {db : Db} {genesis : Block} {c : Chain}
    (started : (Chain.new env world db genesis).1 = .ok c) :
    ∃ root acc, headerHash env genesis.header = .ok root ∧
      applyUtxoChanges env db zeroHash 0 genesis 0 true [] = .ok acc ∧
      c = { blank db root with
        db := write db (actionBatch env genesis (blank db root) 0 .connect acc)
        state := emptyState.applyChanges genesis 0 root .connect (headerWork genesis.header)
          acc.setHash (actionSupply env db 0 .connect)
        bestTip := root } := by
  unfold Chain.new at started
  cases hashed : headerHash env genesis.header with
  | error e => simp [hashed] at started
  | ok root =>
      cases compact : compactToTarget genesis.header.bits with
      | error e => simp [hashed, compact] at started
      | ok target =>
          have work : headerWork genesis.header = blockWork target := by simp [headerWork, compact]
          cases handled : applyUtxoChanges env db zeroHash 0 genesis 0 true [] with
          | error e => simp [hashed, compact, applyBlockAction, Locking.applyBlockAction,
            emptyState, handled] at started
          | ok acc =>
              cases written : (world.outside 0).actionWrite with
              | false =>
                  simp [hashed, compact, applyBlockAction, Locking.applyBlockAction, emptyState,
                    handled, written, fail]
                    at started
              | true =>
                  simp only [hashed, compact, applyBlockAction, Locking.applyBlockAction,
                    emptyState, Bool.false_eq_true, lock_aside, pure_aside, bind_aside, if_false,
                    false_and, decide_true, handled, written, Bool.not_true, and_self, if_true,
                    gt_iff_lt, Nat.not_lt_zero, Except.ok.injEq] at started
                  refine ⟨root, acc, rfl, rfl, ?_⟩
                  rw [← started, work]
                  rfl

section Headers

private theorem read_encode_header (header : BlockHeader) :
    headerCodec.read (headerCodec.encode header) = some header := by
  apply headerCodec.read_encode
  rw [length_encode_header]
  decide

theorem loadHeader_of_stored {db : Db} {height : Nat} {header : BlockHeader}
    (stored : get db .default (headerKey height) = some (headerCodec.encode header)) :
    loadHeader db height = .ok header := by
  simp [loadHeader, stored, read_encode_header]

theorem validateBlock_bits {db : Db} {bestHeight : Nat} {nowMs : Option Nat} {block : Block}
    {parent : BlockHeader} (header : loadHeader db 0 = .ok parent)
    (valid : validateBlock env db bestHeight nowMs block 1 = .ok ()) :
    block.header.bits = parent.bits ∧ ∃ target, compactToTarget block.header.bits = .ok target := by
  simp only [validateBlock, bind_eq_ok] at valid
  obtain ⟨hash, checked, -⟩ := valid
  simp only [checkHeader, fail_bind, guard_eq_ok, bind_eq_ok] at checked
  obtain ⟨-, _, -, target, compact, -, bits, next, same, -⟩ := checked
  have first : calculateNextBits db 1 = .ok parent.bits := by
    simp [calculateNextBits, difficultyAdjustInterval, headerAt, usizeSub, header]
  obtain rfl := Except.ok.inj (first.symm.trans next)
  exact ⟨not_not.mp same, target, compact⟩

end Headers

/-- Memory as start-up left it. Submitting blocks never changes it, apart from the best height,
which a reorganisation sets to 1. -/
structure Rooted (env : Env) (genesis : Block) (root : Hash) (c : Chain) : Prop where
  hashed : headerHash env genesis.header = .ok root
  heights : c.state.heightToHash = (∅ : Map Nat Hash).insert 0 root
  hashes : c.state.hashToHeight = (∅ : Map Hash Nat).insert root 0
  work : c.state.cumulativeWork = (∅ : Map Nat Nat).insert 0 (headerWork genesis.header)
  tip : c.bestTip = root
  height : c.bestHeight ≤ 1
  header : get c.db .default (headerKey 0) = some (headerCodec.encode genesis.header)
  settled : ∀ x ∈ c.orphanBlocks, Settled env c.state x.block

/-- The block is a new, valid child of an indexed block, and the batch of the reorganisation to
it can be built. -/
def Connects (env : Env) (nowMs : Option Nat) (c : Chain) (block : Block) : Prop :=
  ∃ hash prevHeight batch, headerHash env block.header = .ok hash ∧
    hash ∉ c.state.hashToHeight ∧
    c.state.hashToHeight.lookup block.header.prevHash = some prevHeight ∧
    validateBlock env c.db c.bestHeight nowMs block (prevHeight + 1) = .ok () ∧
    reorgBatch env c.db c.state.utxoSetHash c.state.totalSupply prevHeight
      (c.bestHeight - prevHeight) block = .ok batch

/-- What one call of `add_block` does to a rooted node. -/
inductive RootedStep (env : Env) (nowMs : Option Nat) (root : Hash) (c : Chain) (block : Block) :
    Result Bool × Chain → Prop
  | declined (r : Result Bool) (notAdded : r ≠ .ok true) (db : Db) (tick : Nat)
      (pool : List Orphan) (kept : db = c.db ∨ ∃ id journal, db = journalled c id journal)
      (refused : ¬ Connects env nowMs c block)
      (settled : ∀ x ∈ pool, Settled env c.state x.block) :
      RootedStep env nowMs root c block
        (r, { c with db := db, tick := tick, orphanBlocks := pool })
  | connected (hash : Hash) (id journal : Bytes) (batch : DbBatch) (tick : Nat)
      (pool : List Orphan) (connects : Connects env nowMs c block)
      (hashed : headerHash env block.header = .ok hash) (fresh : hash ≠ root)
      (parent : block.header.prevHash = root)
      (valid : validateBlock env c.db c.bestHeight nowMs block 1 = .ok ())
      (built : reorgBatch env c.db c.state.utxoSetHash c.state.totalSupply 0 c.bestHeight block =
        .ok batch)
      (settled : ∀ x ∈ pool, Settled env c.state x.block) :
      RootedStep env nowMs root c block
        (.ok true, { reorganised c block hash 0 id journal batch with
          tick := tick, orphanBlocks := pool })

section RootedSteps

variable {genesis : Block} {root : Hash} {c : Chain} {block : Block}

theorem Rooted.lookup_eq_some (rooted : Rooted env genesis root c) {hash : Hash} {i : Nat} :
    c.state.hashToHeight.lookup hash = some i ↔ hash = root ∧ i = 0 := by
  rw [rooted.hashes]
  by_cases same : hash = root
  · subst same
    simp [eq_comm]
  · simp [Finmap.lookup_insert_of_ne _ same, same]

private theorem Rooted.mem_iff (rooted : Rooted env genesis root c) {hash : Hash} :
    hash ∈ c.state.hashToHeight ↔ hash = root := by
  rw [rooted.hashes, Finmap.mem_insert]
  simp only [Finmap.notMem_empty, or_false]

private theorem Rooted.heavier (rooted : Rooted env genesis root c)
    (positive : 0 < headerWork genesis.header) {target : Nat}
    (bits : block.header.bits = genesis.header.bits)
    (compact : compactToTarget block.header.bits = .ok target) :
    currentWork c < newWork c 0 target := by
  have same : headerWork genesis.header = blockWork target := by
    simp [headerWork, ← bits, compact]
  have below : newWork c 0 target = headerWork genesis.header + headerWork genesis.header := by
    simp [newWork, rooted.work, same]
  have known : currentWork c ≤ headerWork genesis.header := by
    unfold currentWork
    rw [rooted.work]
    by_cases start : c.bestHeight = 0
    · rw [start, Finmap.lookup_insert]
      rfl
    · rw [Finmap.lookup_insert_of_ne _ start]
      exact Nat.zero_le _
  omega

private theorem Rooted.step_settled (rooted : Rooted env genesis root c)
    (waiting : Settled env c.state block) (nowMs : Option Nat) :
    RootedStep env nowMs root c block (addBlock env world block c) := by
  have refused : ¬ Connects env nowMs c block := by
    rintro ⟨_, _, _, same, fresh, parent, -⟩
    obtain ⟨_, same', known⟩ := waiting
    obtain rfl := Except.ok.inj (same.symm.trans same')
    rcases known with there | parentless
    · exact fresh there
    · exact absurd (parentless.symm.trans parent) (by simp)
  obtain ⟨tick, pool, course⟩ := addBlockWith_settled world
    (processOrphans env world (c.orphanBlocks.length + 2)) waiting
  have kept := ((settled_keeps world env c.state).holds_addBlock ⟨rfl, rooted.settled⟩ waiting).2
  unfold addBlock at kept ⊢
  rw [course] at kept ⊢
  exact .declined _ (by simp) c.db _ _ (Or.inl rfl) refused kept

private theorem Rooted.step_child (rooted : Rooted env genesis root c) (reliable : Reliable world)
    (positive : 0 < headerWork genesis.header) {hash : Hash}
    (hashed : headerHash env block.header = .ok hash) (unknown : hash ∉ c.state.hashToHeight)
    (found : c.state.hashToHeight.lookup block.header.prevHash = some 0)
    (parent : block.header.prevHash = root) :
    RootedStep env (world.outside c.tick).nowMs root c block (addBlock env world block c) := by
  cases valid : validateBlock env c.db c.bestHeight (world.outside c.tick).nowMs block 1 with
  | error e =>
      have refused : ¬ Connects env (world.outside c.tick).nowMs c block := by
        rintro ⟨_, _, _, -, -, found', valid', -⟩
        obtain rfl := Option.some.inj (found.symm.trans found')
        exact absurd (valid.symm.trans valid') (by simp)
      have course : addBlock env world block c = (.error e, { c with tick := c.tick + 1 }) := by
        simp [addBlock, addBlockWith_eq, submit, Locking.submit, hashed, unknown, found,
          Locking.connectNew, valid]
      rw [course]
      exact .declined _ (by simp) c.db _ _ (Or.inl rfl) refused rooted.settled
  | ok done =>
      obtain ⟨bits, target, compact⟩ :=
        validateBlock_bits (loadHeader_of_stored rooted.header) valid
      have more := rooted.heavier positive bits compact
      have shallow : c.bestHeight - 0 ≤ reorgMaxDepth := by
        have height := rooted.height
        unfold reorgMaxDepth
        omega
      obtain ⟨id, journal, fails, succeeds⟩ := addBlock_heavier (reliable.working c.tick)
        rooted.settled hashed unknown found valid compact more shallow
      cases built : reorgBatch env c.db c.state.utxoSetHash c.state.totalSupply 0
          (c.bestHeight - 0) block with
      | error e =>
          have refused : ¬ Connects env (world.outside c.tick).nowMs c block := by
            rintro ⟨_, _, _, -, -, found', -, built'⟩
            obtain rfl := Option.some.inj (found.symm.trans found')
            exact absurd (built.symm.trans built') (by simp)
          rw [fails e built]
          exact .declined _ (by simp) _ _ _ (Or.inr ⟨id, journal, rfl⟩) refused rooted.settled
      | ok batch =>
          obtain ⟨tick, pool, kept, course⟩ := succeeds batch built
          rw [course, if_neg (by decide)]
          exact .connected hash id journal batch tick pool
            ⟨hash, 0, batch, hashed, unknown, found, valid, built⟩ hashed
            (fun same => unknown (rooted.mem_iff.mpr same)) parent valid built kept

theorem Rooted.step (rooted : Rooted env genesis root c) (reliable : Reliable world)
    (positive : 0 < headerWork genesis.header) (block : Block) :
    RootedStep env (world.outside c.tick).nowMs root c block (addBlock env world block c) := by
  cases hashed : headerHash env block.header with
  | error e =>
      have refused : ¬ Connects env (world.outside c.tick).nowMs c block := by
        rintro ⟨hash, -, -, same, -⟩
        exact absurd (hashed.symm.trans same) (by simp)
      have course : addBlock env world block c = (.error e, { c with tick := c.tick + 1 }) := by
        simp [addBlock, addBlockWith_eq, submit, Locking.submit, hashed]
      rw [course]
      exact .declined _ (by simp) c.db _ _ (Or.inl rfl) refused rooted.settled
  | ok hash =>
      by_cases waiting : Settled env c.state block
      · exact rooted.step_settled waiting _
      · have unknown : hash ∉ c.state.hashToHeight := fun there =>
          waiting ⟨hash, hashed, Or.inl there⟩
        obtain ⟨prevHeight, found⟩ := Option.ne_none_iff_exists'.mp fun parentless =>
          waiting ⟨hash, hashed, Or.inr parentless⟩
        obtain ⟨parent, rfl⟩ := rooted.lookup_eq_some.mp found
        exact rooted.step_child reliable positive hashed unknown found parent

private theorem headerKey_unsaved (height saved : Nat) (block : Block) (hash : Hash) :
    headerKey height ∉ defaultKeys (saveOps saved block hash) := by
  rw [defaultKeys_saveOps]
  simp [headerKey, blockKey, heightKey, tipKey, bestHeightKey]

theorem RootedStep.header {nowMs : Option Nat} {r : Result Bool × Chain}
    (step : RootedStep env nowMs root c block r) (height : Nat)
    (other : Connects env nowMs c block → headerKey height ≠ headerKey 1) :
    get r.2.db .default (headerKey height) = get c.db .default (headerKey height) := by
  cases step with
  | declined r notAdded db tick pool kept refused settled =>
      rcases kept with rfl | ⟨id, journal, rfl⟩
      · rfl
      · exact get_journalPut ((IndexKey.header height).ne_reorgKey id)
  | connected hash id journal batch tick pool connects hashed fresh parent valid built settled =>
      exact get_reorganised_of_other built (IndexKey.header height).not_counter (other connects)
        ((IndexKey.header height).ne_reorgKey id) (headerKey_unsaved height _ block hash)

theorem Rooted.addBlock (rooted : Rooted env genesis root c) (reliable : Reliable world)
    (positive : 0 < headerWork genesis.header) (block : Block) :
    Rooted env genesis root (addBlock env world block c).2 := by
  have step := rooted.step reliable positive block
  have header := (step.header 0 fun _ => by decide).trans rooted.header
  generalize Node.addBlock env world block c = r at step header
  cases step with
  | declined r notAdded db tick pool kept refused settled =>
      exact ⟨rooted.hashed, rooted.heights, rooted.hashes, rooted.work, rooted.tip, rooted.height,
        header, settled⟩
  | connected hash id journal batch tick pool connects hashed fresh parent valid built settled =>
      exact ⟨rooted.hashed, rooted.heights, rooted.hashes, rooted.work, rooted.tip, le_rfl, header,
        settled⟩

theorem Rooted.run (rooted : Rooted env genesis root c) (reliable : Reliable world)
    (positive : 0 < headerWork genesis.header) (blocks : List Block) :
    Rooted env genesis root (runBlocks env world c blocks) := by
  refine run_invariant _ (Rooted env genesis root) rooted ?_ blocks [] (List.append_nil blocks).symm
  intro before block after _ reached
  exact reached.addBlock reliable positive block

theorem rooted_new {db : Db} (started : (Chain.new env world db genesis).1 = .ok c) :
    ∃ root, Rooted env genesis root c ∧ c.bestHeight = 0 ∧ c.saved = [] := by
  obtain ⟨root, acc, hashed, handled, rfl⟩ := new_eq_ok started
  refine ⟨root, ⟨hashed, rfl, rfl, ?_, rfl, Nat.zero_le 1, ?_, by simp [blank]⟩, rfl, rfl⟩
  · simp [ChainState.applyChanges, emptyState]
  · exact (get_actionBatch genesis (blank db root) 0 .connect handled db).2.2 rfl

end RootedSteps

end Lyrion.Node
