/- GID: Lyrion/Node/Rejection
   digest: What a failed block action and a failed add_block leave behind, and when that is
     nothing. -/

import Lyrion.Node.Crash

set_option autoImplicit false
set_option relaxedAutoImplicit false

namespace Lyrion.Node

open Library.ByteCodec Library.KeyValue Data Utils Tx

def AsBefore (c after : Chain) : Prop := { after with tick := c.tick } = c

section Action

/-- `apply_block_action` turns the block away before it sets the pending mark. -/
def Locked (action : BlockAction) (c : Chain) : Prop :=
  c.batchPending = true ∨ c.readOnlyMode = true ∧ action = .connect

structure ActionCommits (env : Env) (o : Outside) (block : Block) (height : Nat)
    (action : BlockAction) (batch : DbBatch) (c : Chain) : Prop where
  unlocked : ¬ Locked action c
  hashed : ∃ hash, headerHash env block.header = .ok hash
  handled : ∃ acc, applyUtxoChanges env c.db c.state.utxoSetHash c.state.totalSupply block height
    (action = .connect) batch = .ok acc
  written : o.actionWrite = true

variable {env : Env} {o : Outside} {block : Block} {height : Nat} {action : BlockAction}
  {isBest : Bool} {work : Nat} {batch : DbBatch} {c : Chain}

private theorem applyBlockAction_locked (locked : Locked action c) :
    ∃ e, applyBlockAction env o block height action isBest work batch c = (.error e, c) := by
  unfold applyBlockAction Locking.applyBlockAction
  simp only [lock_aside, pure_aside, bind_aside]
  rcases locked with pending | frozen
  · exact ⟨_, if_pos pending⟩
  · by_cases pending : c.batchPending = true
    · exact ⟨_, if_pos pending⟩
    · exact ⟨_, (if_neg pending).trans (if_pos frozen)⟩

private theorem applyBlockAction_uncommitted (unlocked : ¬ Locked action c)
    (uncommitted : ¬ ActionCommits env o block height action batch c) :
    ∃ e after, applyBlockAction env o block height action isBest work batch c =
      (.error e, after) ∧ after.batchPending = true := by
  obtain ⟨notPending, notFrozen⟩ := not_or.mp unlocked
  simp only [applyBlockAction, Locking.applyBlockAction, if_neg notPending, if_neg notFrozen,
    lock_aside, pure_aside, bind_aside]
  cases hashed : headerHash env block.header with
  | error e => exact ⟨_, _, rfl, rfl⟩
  | ok hash =>
      simp only
      cases handled : applyUtxoChanges env c.db c.state.utxoSetHash c.state.totalSupply block
          height (action = .connect) batch with
      | error e => exact ⟨_, _, rfl, rfl⟩
      | ok acc =>
          cases written : o.actionWrite with
          | false =>
              refine ⟨_, _, rfl, ?_⟩
              split <;> rfl
          | true => exact absurd ⟨unlocked, ⟨hash, hashed⟩, ⟨acc, handled⟩, written⟩ uncommitted

private theorem not_asBefore_of_pending {after : Chain} (unlocked : ¬ Locked action c)
    (pending : after.batchPending = true) : ¬ AsBefore c after := by
  intro same
  have flags := congrArg Chain.batchPending same
  exact unlocked (Or.inl (flags.symm.trans pending))

end Action

section Submission

/-- `add_block` finds the parent of a new and valid block. -/
structure Placed (env : Env) (o : Outside) (block : Block) (c : Chain)
    (prevHeight target : Nat) : Prop where
  fresh : ∃ hash, headerHash env block.header = .ok hash ∧ hash ∉ c.state.hashToHeight
  parent : c.state.hashToHeight.lookup block.header.prevHash = some prevHeight
  valid : validateBlock env c.db c.bestHeight o.nowMs block (prevHeight + 1) = .ok ()
  compact : compactToTarget block.header.bits = .ok target

/-- The block has more work than the tip, and its journal is written. -/
structure Journals (o : Outside) (c : Chain) (prevHeight target nowMs : Nat) : Prop where
  more : currentWork c < newWork c prevHeight target
  depth : c.bestHeight - prevHeight ≤ reorgMaxDepth
  clock : o.journalMs = some nowMs
  put : o.journalPut = true

def BatchWritten (env : Env) (o : Outside) (block : Block) (c : Chain) (prevHeight : Nat) : Prop :=
  (∃ batch, chainBatch env c block prevHeight = .ok batch) ∧ o.reorgWrite = true

def BlockCommits (env : Env) (o : Outside) (block : Block) (c : Chain) : Prop :=
  ∃ prevHeight target, Placed env o block c prevHeight target ∧
    ((∃ nowMs, Journals o c prevHeight target nowMs) ∧
        BatchWritten env o block c prevHeight ∨
      newWork c prevHeight target ≤ currentWork c ∧
        ActionCommits env o block (prevHeight + 1) .connect [] c)

/-- A journal is followed by its batch, unless the same entry was there before; and a block for the
side chain is turned away at once or gets its batch written. -/
def CleanAt (env : Env) (o : Outside) (block : Block) (c : Chain) (prevHeight target : Nat) :
    Prop :=
  (∀ nowMs, Journals o c prevHeight target nowMs → BatchWritten env o block c prevHeight ∨
    get c.db .default (reorgKey (journalIdOf nowMs)) =
      some (reorgJournalCodec.encode (reorgJournal c block prevHeight nowMs))) ∧
  (newWork c prevHeight target ≤ currentWork c →
    Locked .connect c ∨ ActionCommits env o block (prevHeight + 1) .connect [] c)

def Clean (env : Env) (o : Outside) (block : Block) (c : Chain) : Prop :=
  ∀ prevHeight target, Placed env o block c prevHeight target →
    CleanAt env o block c prevHeight target

variable {env : Env} {o : Outside} {block : Block} {c : Chain} {prevHeight target : Nat}

private theorem Placed.clean_iff (placed : Placed env o block c prevHeight target) :
    Clean env o block c ↔ CleanAt env o block c prevHeight target := by
  constructor
  · exact fun clean => clean prevHeight target placed
  · intro clean otherHeight otherTarget other
    obtain rfl := Option.some.inj (placed.parent.symm.trans other.parent)
    obtain rfl := Except.ok.inj (placed.compact.symm.trans other.compact)
    exact clean

private theorem BlockCommits.clean (commits : BlockCommits env o block c) : Clean env o block c :=
    by
  obtain ⟨prevHeight, target, placed, path⟩ := commits
  rw [placed.clean_iff]
  rcases path with ⟨⟨nowMs, journals⟩, written⟩ | ⟨less, commits⟩
  · refine ⟨fun _ _ => Or.inl written, fun less => ?_⟩
    exact absurd journals.more (Nat.not_lt.mpr less)
  · refine ⟨fun _ journals => ?_, fun _ => Or.inr commits⟩
    exact absurd journals.more (Nat.not_lt.mpr less)

private theorem journalled_eq_iff (id journal : Bytes) :
    journalled c id journal = c.db ↔ get c.db .default (reorgKey id) = some journal := by
  constructor
  · intro same
    rw [← same]
    exact get_journalled c id journal
  · intro stored
    funext family
    by_cases default : family = .default
    · subst default
      apply Finmap.ext_lookup
      intro k
      by_cases own : k = reorgKey id
      · subst own
        exact (get_journalled c id journal).trans stored.symm
      · exact get_journalPut own
    · exact (sameIndex_journal c id journal).stores family default

private theorem asBefore_journalled_iff (tick : Nat) (id journal : Bytes) :
    AsBefore c { c with tick := tick, db := journalled c id journal } ↔
      get c.db .default (reorgKey id) = some journal := by
  rw [← journalled_eq_iff]
  constructor
  · exact fun same => congrArg Chain.db same
  · intro same
    simp only [AsBefore, same]

private theorem reorganise_unjournalled (stuck : o.journalMs = none ∨ o.journalPut = false) :
    ∃ e, reorganise env o block prevHeight c = (.error e, c) := by
  unfold reorganise
  rcases stuck with stopped | unput
  · rw [stopped]
    exact ⟨_, rfl⟩
  · cases o.journalMs with
    | none => exact ⟨_, rfl⟩
    | some nowMs =>
        simp only [unput, Bool.not_false, if_true]
        exact ⟨_, rfl⟩

private theorem reorganise_unwritten {nowMs : Nat} (clock : o.journalMs = some nowMs)
    (put : o.journalPut = true) (unwritten : ¬ BatchWritten env o block c prevHeight) :
    ∃ e, reorganise env o block prevHeight c = (.error e, { c with
      db := journalled c (journalIdOf nowMs)
        (reorgJournalCodec.encode (reorgJournal c block prevHeight nowMs)) }) := by
  simp only [reorganise, clock, put, Bool.not_true, Bool.false_eq_true, if_false,
    reorgBatch_eq_chainBatch]
  cases built : chainBatch env c block prevHeight with
  | error e => exact ⟨e, rfl⟩
  | ok batch =>
      cases written : o.reorgWrite with
      | false => exact ⟨_, rfl⟩
      | true => exact absurd ⟨⟨batch, built⟩, written⟩ unwritten

private theorem connectNew_shallow (placed : Placed env o block c prevHeight target)
    (more : currentWork c < newWork c prevHeight target)
    (depth : c.bestHeight - prevHeight ≤ reorgMaxDepth) :
    connectNew env o block prevHeight { c with tick := c.tick + 1 } =
      finish env o block (prevHeight + 1) true
        (reorganise env o block prevHeight { c with tick := c.tick + 1 }) := by
  have close : ¬ newWork c prevHeight target ≤ currentWork c * 99 / 100 := by omega
  have notDeep : ¬ c.bestHeight - prevHeight > reorgMaxDepth := Nat.not_lt.mpr depth
  unfold newWork currentWork at more close
  simp only [connectNew, Locking.connectNew, placed.valid, placed.compact, gt_iff_lt, more, if_true,
    notDeep, if_false, pure_aside, close]

private theorem connectNew_deep (placed : Placed env o block c prevHeight target)
    (more : currentWork c < newWork c prevHeight target)
    (deep : c.bestHeight - prevHeight > reorgMaxDepth) :
    connectNew env o block prevHeight { c with tick := c.tick + 1 } =
      (fail .reorgTooDeep, { c with tick := c.tick + 1 }) := by
  unfold newWork currentWork at more
  simp only [connectNew, Locking.connectNew, placed.valid, placed.compact, gt_iff_lt, more, if_true,
    deep, pure_aside]

private theorem connectNew_heavier_uncommitted (placed : Placed env o block c prevHeight target)
    (more : currentWork c < newWork c prevHeight target)
    (uncommitted : ¬ BlockCommits env o block c) :
    ∃ e after, connectNew env o block prevHeight { c with tick := c.tick + 1 } =
      (.error e, after) ∧ (AsBefore c after ↔ CleanAt env o block c prevHeight target) := by
  have noSide : newWork c prevHeight target ≤ currentWork c →
      Locked .connect c ∨ ActionCommits env o block (prevHeight + 1) .connect [] c :=
    fun less => absurd more (Nat.not_lt.mpr less)
  by_cases depth : c.bestHeight - prevHeight ≤ reorgMaxDepth
  · have connected := connectNew_shallow placed more depth
    by_cases stuck : o.journalMs = none ∨ o.journalPut = false
    · obtain ⟨e, failed⟩ := @reorganise_unjournalled env o block { c with tick := c.tick + 1 }
        prevHeight stuck
      refine ⟨e, { c with tick := c.tick + 1 }, ?_, iff_of_true rfl ⟨?_, noSide⟩⟩
      · rw [connected, failed]
        rfl
      · intro nowMs journals
        rcases stuck with stopped | unput
        · exact absurd (stopped.symm.trans journals.clock) (by simp)
        · exact absurd (unput.symm.trans journals.put) (by simp)
    · obtain ⟨notStopped, put⟩ := not_or.mp stuck
      obtain ⟨nowMs, clock⟩ := Option.ne_none_iff_exists'.mp notStopped
      have put : o.journalPut = true := by simpa using put
      have unwritten : ¬ BatchWritten env o block c prevHeight := fun written =>
        uncommitted ⟨prevHeight, target, placed, Or.inl ⟨⟨nowMs, more, depth, clock, put⟩, written⟩⟩
      obtain ⟨e, failed⟩ := @reorganise_unwritten env o block { c with tick := c.tick + 1 }
        prevHeight nowMs clock put unwritten
      refine ⟨e, _, by rw [connected, failed]; rfl, ?_⟩
      rw [CleanAt, and_iff_left noSide]
      refine (asBefore_journalled_iff (c.tick + 1) _ _).trans ⟨?_, ?_⟩
      · intro stored other journals
        obtain rfl := Option.some.inj (clock.symm.trans journals.clock)
        exact Or.inr stored
      · intro clean
        exact (clean nowMs ⟨more, depth, clock, put⟩).resolve_left unwritten
  · refine ⟨_, _, connectNew_deep placed more (Nat.not_le.mp depth), iff_of_true rfl ⟨?_, noSide⟩⟩
    exact fun _ journals => absurd journals.depth depth

private theorem connectNew_lighter_uncommitted (placed : Placed env o block c prevHeight target)
    (less : newWork c prevHeight target ≤ currentWork c)
    (uncommitted : ¬ BlockCommits env o block c) :
    ∃ e after, connectNew env o block prevHeight { c with tick := c.tick + 1 } =
      (.error e, after) ∧ (AsBefore c after ↔ CleanAt env o block c prevHeight target) := by
  have noJournal (nowMs : Nat) : ¬ Journals o c prevHeight target nowMs :=
    fun journals => absurd journals.more (Nat.not_lt.mpr less)
  have stays : ¬ ActionCommits env o block (prevHeight + 1) .connect [] c := fun commits =>
    uncommitted ⟨prevHeight, target, placed, Or.inr ⟨less, commits⟩⟩
  have branch : ¬ newWork c prevHeight target > currentWork c := Nat.not_lt.mpr less
  unfold newWork currentWork at branch
  have connected {e : Fault} {after : Chain}
      (failed : applyBlockAction env o block (prevHeight + 1) .connect false (blockWork target) []
        { c with tick := c.tick + 1 } = (.error e, after)) :
      connectNew env o block prevHeight { c with tick := c.tick + 1 } = (.error e, after) := by
    simp only [connectNew, Locking.connectNew, placed.valid, placed.compact, branch, if_false,
      applyBlockAction_aside, failed, Except.map, pure_aside, bind_aside, finish]
  by_cases locked : Locked .connect c
  · obtain ⟨e, failed⟩ := applyBlockAction_locked (c := { c with tick := c.tick + 1 }) locked
    refine ⟨e, _, connected failed, iff_of_true rfl ⟨?_, fun _ => Or.inl locked⟩⟩
    exact fun nowMs journals => absurd journals (noJournal nowMs)
  · obtain ⟨e, after, failed, pending⟩ := applyBlockAction_uncommitted
      (c := { c with tick := c.tick + 1 }) locked fun commits => stays
        ⟨commits.unlocked, commits.hashed, commits.handled, commits.written⟩
    refine ⟨e, after, connected failed, iff_of_false (not_asBefore_of_pending locked pending) ?_⟩
    exact fun clean => (clean.2 less).elim locked stays

private theorem connectNew_unplaced {hash : Hash} (hashed : headerHash env block.header = .ok hash)
    (fresh : hash ∉ c.state.hashToHeight)
    (parent : c.state.hashToHeight.lookup block.header.prevHash = some prevHeight)
    (unplaced : ∀ target, ¬ Placed env o block c prevHeight target) :
    ∃ e, connectNew env o block prevHeight { c with tick := c.tick + 1 } =
      (.error e, { c with tick := c.tick + 1 }) := by
  simp only [connectNew, Locking.connectNew, pure_aside, bind_aside]
  cases valid : validateBlock env c.db c.bestHeight o.nowMs block (prevHeight + 1) with
  | error e => exact ⟨e, rfl⟩
  | ok done =>
      cases compact : compactToTarget block.header.bits with
      | error e => exact ⟨e, rfl⟩
      | ok target => exact absurd ⟨⟨hash, hashed, fresh⟩, parent, valid, compact⟩ (unplaced target)

private theorem addBlock_uncommitted {world : World}
    (uncommitted : ¬ BlockCommits env (world.outside c.tick) block c) :
    (addBlock env world block c).1 = .ok false ∧ Clean env (world.outside c.tick) block c ∨
      ∃ e after, addBlock env world block c = (.error e, after) ∧
        (AsBefore c after ↔ Clean env (world.outside c.tick) block c) := by
  have cases := submit_cases env world block c
  generalize submitted : submit env world block c = result at cases
  cases cases with
  | unhashed e failed =>
      refine Or.inr ⟨e, _, addBlock_of_failed submitted, iff_of_true rfl ?_⟩
      rintro prevHeight target ⟨⟨hash, hashed, -⟩, -, -, -⟩
      exact absurd (failed.symm.trans hashed) (by simp)
  | known hash hashed there =>
      refine Or.inl ⟨by simp [addBlock, addBlockWith_eq, submitted], ?_⟩
      rintro prevHeight target ⟨⟨other, same, fresh⟩, -, -, -⟩
      obtain rfl := Except.ok.inj (hashed.symm.trans same)
      exact absurd there fresh
  | orphan hash hashed fresh lost =>
      refine Or.inl ⟨by simp [addBlock, addBlockWith_eq, submitted], ?_⟩
      rintro prevHeight target ⟨-, parent, -, -⟩
      exact absurd (lost.symm.trans parent) (by simp)
  | child hash hashed fresh prevHeight parent =>
      refine Or.inr ?_
      by_cases place : ∃ target, Placed env (world.outside c.tick) block c prevHeight target
      · obtain ⟨target, placed⟩ := place
        rw [placed.clean_iff]
        obtain ⟨e, after, failed, settled⟩ : ∃ e after, connectNew env (world.outside c.tick) block
            prevHeight { c with tick := c.tick + 1 } = (.error e, after) ∧ (AsBefore c after ↔
              CleanAt env (world.outside c.tick) block c prevHeight target) := by
          rcases Nat.lt_or_ge (currentWork c) (newWork c prevHeight target) with more | less
          · exact connectNew_heavier_uncommitted placed more uncommitted
          · exact connectNew_lighter_uncommitted placed less uncommitted
        exact ⟨e, after, addBlock_of_failed (submitted.trans failed), settled⟩
      · have unplaced := not_exists.mp place
        obtain ⟨e, failed⟩ := connectNew_unplaced hashed fresh parent unplaced
        refine ⟨e, _, addBlock_of_failed (submitted.trans failed), iff_of_true rfl ?_⟩
        intro otherHeight target placed
        obtain rfl := Option.some.inj (parent.symm.trans placed.parent)
        exact absurd placed (unplaced target)

end Submission

/-- A call that fails before its batch is written leaves the node as it was exactly if it is
turned away at the lock or cannot fail there: the pending mark and the journal are never taken
back. -/
theorem rejection_clean_iff (env : Env) (world : World) (o : Outside) (block : Block) (height : Nat)
    (action : BlockAction) (isBest : Bool) (work : Nat) (batch : DbBatch) (c : Chain) :
    ((∀ e, (applyBlockAction env o block height action isBest work batch c).1 = .error e →
        ¬ ActionCommits env o block height action batch c →
        AsBefore c (applyBlockAction env o block height action isBest work batch c).2) ↔
      Locked action c ∨ ActionCommits env o block height action batch c) ∧
    ((∀ e, (addBlock env world block c).1 = .error e →
        ¬ BlockCommits env (world.outside c.tick) block c →
        AsBefore c (addBlock env world block c).2) ↔
      Clean env (world.outside c.tick) block c) := by
  constructor
  · constructor
    · intro property
      by_contra dirty
      obtain ⟨unlocked, uncommitted⟩ := not_or.mp dirty
      obtain ⟨e, after, failed, pending⟩ := @applyBlockAction_uncommitted env o block height action
        isBest work batch c unlocked uncommitted
      have same := property e (by rw [failed]) uncommitted
      rw [failed] at same
      exact not_asBefore_of_pending unlocked pending same
    · rintro (locked | commits) e - uncommitted
      · obtain ⟨e, failed⟩ := @applyBlockAction_locked env o block height action isBest work batch c
          locked
        rw [failed]
        rfl
      · exact absurd commits uncommitted
  · by_cases commits : BlockCommits env (world.outside c.tick) block c
    · exact iff_of_true (fun _ _ uncommitted => absurd commits uncommitted) commits.clean
    · rcases addBlock_uncommitted commits with ⟨fine, clean⟩ | ⟨e, after, failed, settled⟩
      · refine iff_of_true (fun e failed => ?_) clean
        exact absurd (fine.symm.trans failed) (by simp)
      · rw [← settled, failed]
        exact ⟨fun property => property e rfl commits, fun same _ _ _ => same⟩

private theorem sampleHeavy_uncommitted :
    ¬ BlockCommits sampleEnv (sampleWorld.outside 0) sampleHeavy (sampleNode true) := by
  rintro ⟨prevHeight, target, placed, path⟩
  have root : (sampleNode true).state.hashToHeight.lookup sampleHeavy.header.prevHash = some 0 := by
    decide +kernel
  obtain rfl := Option.some.inj (root.symm.trans placed.parent)
  have compact : compactToTarget sampleHeavy.header.bits = .ok (0xffff * 2 ^ 208) := by
    decide +kernel
  obtain rfl := Except.ok.inj (compact.symm.trans placed.compact)
  rcases path with ⟨-, ⟨batch, built⟩, -⟩ | ⟨less, -⟩
  · have missing : (chainBatch sampleEnv (sampleNode true) sampleHeavy 0).isOk = false := by
      decide +kernel
    rw [built] at missing
    exact absurd missing (by simp [Except.isOk, Except.toBool])
  · have more : currentWork (sampleNode true) <
        newWork (sampleNode true) 0 (0xffff * 2 ^ 208) := by
      decide +kernel
    exact absurd more (Nat.not_lt.mpr less)

/-- A spend of a missing coin leaves the pending mark, a failed reorganisation its journal. -/
theorem failed_blocks_leave_traces :
    (¬ ∀ e, (applyBlockAction sampleEnv (sampleWorld.outside 0) (sampleBlock [sampleSpend []]) 2
        .connect false 0 [] (sampleNode true)).1 = .error e →
      ¬ ActionCommits sampleEnv (sampleWorld.outside 0) (sampleBlock [sampleSpend []]) 2 .connect
        [] (sampleNode true) →
      AsBefore (sampleNode true) (applyBlockAction sampleEnv (sampleWorld.outside 0)
        (sampleBlock [sampleSpend []]) 2 .connect false 0 [] (sampleNode true)).2) ∧
    ¬ ∀ e, (addBlock sampleEnv sampleWorld sampleHeavy (sampleNode true)).1 = .error e →
      ¬ BlockCommits sampleEnv (sampleWorld.outside (sampleNode true).tick) sampleHeavy
        (sampleNode true) →
      AsBefore (sampleNode true) (addBlock sampleEnv sampleWorld sampleHeavy
        (sampleNode true)).2 := by
  constructor
  · intro property
    have failed : (applyBlockAction sampleEnv (sampleWorld.outside 0) (sampleBlock [sampleSpend []])
        2 .connect false 0 [] (sampleNode true)).1 = fail .missingUTXO := by
      decide +kernel
    refine absurd (congrArg Chain.batchPending (property _ failed ?_)) (by decide +kernel)
    rintro ⟨-, -, ⟨acc, handled⟩, -⟩
    have missing : (applyUtxoChanges sampleEnv (sampleNode true).db
        (sampleNode true).state.utxoSetHash (sampleNode true).state.totalSupply
        (sampleBlock [sampleSpend []]) 2 true []).isOk = false := by
      decide +kernel
    rw [show applyUtxoChanges sampleEnv (sampleNode true).db (sampleNode true).state.utxoSetHash
      (sampleNode true).state.totalSupply (sampleBlock [sampleSpend []]) 2 true [] = .ok acc from
        handled] at missing
    exact absurd missing (by simp [Except.isOk, Except.toBool])
  · intro property
    have entries := congrArg (fun c => get c.db .default (reorgKey (journalIdOf 2000000000000)))
      (property _ sampleHeavy_refused sampleHeavy_uncommitted)
    exact absurd entries (by decide +kernel)

theorem pending_node_as_before :
    AsBefore { sampleNode true with batchPending := true }
      (applyBlockAction sampleEnv (sampleWorld.outside 0) (sampleBlock [sampleSpend []]) 2 .connect
        false 0 [] { sampleNode true with batchPending := true }).2 := by
  have locked : Locked .connect { sampleNode true with batchPending := true } := Or.inl rfl
  exact (rejection_clean_iff sampleEnv sampleWorld (sampleWorld.outside 0)
    (sampleBlock [sampleSpend []]) 2 .connect false 0 []
    { sampleNode true with batchPending := true }).1.mpr (Or.inl locked) _ rfl
    fun commits => commits.unlocked locked

end Lyrion.Node
