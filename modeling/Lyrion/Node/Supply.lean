/- GID: Lyrion/Node/Supply
   digest: The three supply counters along runs of block actions and submissions. -/

import Lyrion.Node.ForkChoice

set_option autoImplicit false
set_option relaxedAutoImplicit false

namespace Lyrion.Node

open Library.ByteCodec Library.KeyValue Library.Runs Data Utils Tx

/-- A step of a run: a submission, or a block action on its own. -/
inductive Event
  | submit (block : Block)
  | act (block : Block) (height : Nat) (action : BlockAction) (isBest : Bool) (work : Nat)
      (batch : DbBatch)

def perform (env : Env) (world : World) (c : Chain) : Event → Chain
  | .submit block => (addBlock env world block c).2
  | .act block height action isBest work batch =>
      (applyBlockAction env (world.outside c.tick) block height action isBest work batch
        { c with tick := c.tick + 1 }).2

def rewardSum (height : Nat) : Nat := ((List.range (height + 1)).map fun i => (subsidy i).toNat).sum

/-- The counter in memory and the two stored ones agree with the schedule. -/
structure SuppliesAgree (c : Chain) : Prop where
  stored : get c.db .default totalSupplyKey = some (beBytes 8 c.state.totalSupply.toNat)
  stateStored : get c.db .default stateTotalSupplyKey = some (leBytes 8 c.state.totalSupply.toNat)
  scheduled : c.state.totalSupply.toNat = rewardSum c.bestHeight

/-- The ordinary transactions of a block create as much more than they spend as the subsidy of its
height is; the other way round when it is disconnected. -/
def PaysSubsidy (env : Env) (db : Db) (block : Block) (height : Nat) (action : BlockAction) :
    Prop :=
  let ops := (blockEffect env db height (action = .connect) block.txs).supplyOps
  match action with
  | .connect => added ops = removed ops + (subsidy height).toNat
  | .disconnect => added ops + (subsidy height).toNat = removed ops

def ValidChild (env : Env) (nowMs : Option Nat) (c : Chain) (block : Block) : Prop :=
  ∃ hash prevHeight, headerHash env block.header = .ok hash ∧ hash ∉ c.state.hashToHeight ∧
    c.state.hashToHeight.lookup block.header.prevHash = some prevHeight ∧
    validateBlock env c.db c.bestHeight nowMs block (prevHeight + 1) = .ok ()

/-- The schedule at the best height changes by the subsidy of the block. Disconnecting never moves
the best height. -/
def MovesSchedule (c : Chain) (height : Nat) (isBest : Bool) : BlockAction → Prop
  | .connect => rewardSum (if isBest then height else c.bestHeight) =
      rewardSum c.bestHeight + (subsidy height).toNat
  | .disconnect => subsidy height = 0

/-- The step does not upset the counters: a submission that goes no further than validation, or
a block action that pays the subsidy and moves the best height accordingly. -/
def Balanced (env : Env) (world : World) (c : Chain) : Event → Prop
  | .submit block => ¬ ValidChild env (world.outside c.tick).nowMs c block
  | .act block height action isBest _ _ =>
      PaysSubsidy env c.db block height action ∧ MovesSchedule c height isBest action

variable {env : Env} {world : World} {c : Chain}

private theorem addBlock_of_not_validChild {block : Block}
    (refused : ¬ ValidChild env (world.outside c.tick).nowMs c block) :
    ∃ r tick pool, addBlock env world block c =
      (r, { c with tick := tick, orphanBlocks := pool }) := by
  cases hashed : headerHash env block.header with
  | error e =>
      refine ⟨.error e, c.tick + 1, c.orphanBlocks, ?_⟩
      simp [addBlock, addBlockWith_eq, submit, Locking.submit, hashed]
  | ok hash =>
      by_cases waiting : Settled env c.state block
      · obtain ⟨tick, pool, course⟩ := addBlockWith_settled world
          (processOrphans env world (c.orphanBlocks.length + 2)) waiting
        exact ⟨_, tick, pool, course⟩
      · have unknown : hash ∉ c.state.hashToHeight := fun there =>
          waiting ⟨hash, hashed, Or.inl there⟩
        obtain ⟨prevHeight, found⟩ := Option.ne_none_iff_exists'.mp fun parentless =>
          waiting ⟨hash, hashed, Or.inr parentless⟩
        cases valid : validateBlock env c.db c.bestHeight (world.outside c.tick).nowMs block
            (prevHeight + 1) with
        | ok done => exact absurd ⟨hash, prevHeight, hashed, unknown, found, valid⟩ refused
        | error e =>
            refine ⟨.error e, c.tick + 1, c.orphanBlocks, ?_⟩
            simp [addBlock, addBlockWith_eq, submit, Locking.submit, hashed, unknown, found,
              Locking.connectNew, valid]

private theorem PaysSubsidy.counters {block : Block} {height : Nat} {action : BlockAction}
    {setHash : Hash} {supply : UInt64} {batch : DbBatch} {acc : UtxoAcc}
    (pays : PaysSubsidy env c.db block height action)
    (loaded : env.loadSupplyFromDb c.db = supply)
    (handled : applyUtxoChanges env c.db setHash supply block height (action = .connect) batch =
      .ok acc) :
    acc.supply = actionSupply env c.db height action ∧
      (action = .connect → acc.supply.toNat = supply.toNat + (subsidy height).toNat) := by
  obtain ⟨-, ran, -⟩ := (applyUtxoChanges_eq_ok ..).mp handled
  have balance := runSupply_balance ran
  have bound := acc.supply.toNat_lt
  cases action with
  | connect =>
      simp only [PaysSubsidy, eq_self, decide_true] at pays balance
      refine ⟨UInt64.toNat_inj.mp ?_, fun _ => by omega⟩
      simp only [actionSupply, loaded, UInt64.toNat_add]
      omega
  | disconnect =>
      simp only [PaysSubsidy, reduceCtorEq, decide_false] at pays balance
      refine ⟨UInt64.toNat_inj.mp ?_, by simp⟩
      simp only [actionSupply, loaded]
      rw [UInt64.toNat_sub_of_le]
      · omega
      · rw [UInt64.le_iff_toNat_le]
        omega

private theorem SuppliesAgree.act (agree : SuppliesAgree c) {o : Outside} {block : Block}
    {height : Nat} {action : BlockAction} {isBest : Bool} {work : Nat} {batch : DbBatch}
    (pays : PaysSubsidy env c.db block height action)
    (moves : MovesSchedule c height isBest action) :
    SuppliesAgree (applyBlockAction env o block height action isBest work batch c).2 := by
  have cases := applyBlockAction_cases env o block c height action isBest work batch
  generalize applyBlockAction env o block height action isBest work batch c = r at cases
  cases cases with
  | locked e closed => exact agree
  | failed e => exact ⟨agree.stored, agree.stateStored, agree.scheduled⟩
  | rolledBack e acc handled unwritten =>
      have kept := rollbackBatch_default handled c.db
      refine ⟨?_, ?_, agree.scheduled⟩
      · simp only [Data.get, kept]
        exact agree.stored
      · simp only [Data.get, kept]
        exact agree.stateStored
  | frozen e => exact ⟨agree.stored, agree.stateStored, agree.scheduled⟩
  | applied r hash hashed acc handled blocks pending =>
      have loaded := env.loadSupply_stored _ _ agree.stateStored
      obtain ⟨supplied, grown⟩ := pays.counters loaded handled
      obtain ⟨stored, stateStored, -⟩ := get_actionBatch block c height action handled c.db
      rw [supplied] at stored grown
      refine ⟨stored, stateStored, ?_⟩
      have scheduled := agree.scheduled
      cases action with
      | connect =>
          simp only [MovesSchedule] at moves
          simp only [ChainState.applyChanges, true_and, grown rfl, scheduled, ← moves]
      | disconnect =>
          simp only [MovesSchedule] at moves
          simp [ChainState.applyChanges, actionSupply, loaded, moves, scheduled]

private theorem SuppliesAgree.perform (agree : SuppliesAgree c) {event : Event}
    (balanced : Balanced env world c event) : SuppliesAgree (perform env world c event) := by
  cases event with
  | submit block =>
      obtain ⟨r, tick, pool, course⟩ := addBlock_of_not_validChild balanced
      simp only [Node.perform, course]
      exact ⟨agree.stored, agree.stateStored, agree.scheduled⟩
  | act block height action isBest work batch =>
      have ticked : SuppliesAgree { c with tick := c.tick + 1 } :=
        ⟨agree.stored, agree.stateStored, agree.scheduled⟩
      exact ticked.act balanced.1 balanced.2

/-- The counters agree at every step of a run if the genesis block pays its subsidy outside of its
coinbase and every step is balanced. -/
theorem supplies_agree (env : Env) (world : World) (genesis : Block) (c : Chain)
    (events : List Event) (started : (Chain.new env world emptyDb genesis).1 = .ok c)
    (endowed : PaysSubsidy env emptyDb genesis 0 .connect)
    (balanced : ∀ before event after, events = before ++ event :: after →
      Balanced env world (run (perform env world) c before) event) :
    ∀ before after, events = before ++ after →
      SuppliesAgree (run (perform env world) c before) := by
  refine run_invariant _ SuppliesAgree ?_ ?_
  · obtain ⟨root, acc, hashed, handled, rfl⟩ := new_eq_ok started
    have loaded : env.loadSupplyFromDb (blank emptyDb root).db = 0 := by
      apply env.loadSupply_absent
      simp [blank, Data.get, emptyDb]
    obtain ⟨supplied, grown⟩ :=
      PaysSubsidy.counters (c := blank emptyDb root) endowed loaded handled
    obtain ⟨stored, stateStored, -⟩ :=
      get_actionBatch genesis (blank emptyDb root) 0 .connect handled emptyDb
    rw [supplied] at stored grown
    refine ⟨stored, stateStored, (grown rfl).trans ?_⟩
    simp [rewardSum, blank]
  · intro before event after split agree
    exact agree.perform (balanced before event after split)

/-- With nothing but a coinbase in the genesis block the stored counter starts at zero, and the
first successful call already finds the counters apart. -/
theorem coinbase_genesis_disagrees :
    (Chain.new sampleEnv sampleWorld emptyDb (sampleBlock [])).1 = .ok (sampleStart []) ∧
      (addBlock sampleEnv sampleWorld (sampleChild zeroHash 10000000000 0) (sampleStart [])).1 =
        .ok false ∧
      ¬ SuppliesAgree (perform sampleEnv sampleWorld (sampleStart [])
        (.submit (sampleChild zeroHash 10000000000 0))) := by
  refine ⟨sampleStart_started (by decide +kernel), by decide +kernel, ?_⟩
  intro agree
  exact absurd agree.stored (by decide +kernel)

def sampleGrant (lockTime : UInt32) : Transaction where
  version := 1
  isAnonymous := false
  inputs := []
  outputs := [⟨10000000000, [], none⟩]
  lockTime := lockTime
  rangeProofs := []

theorem granted_supplies_agree :
    SuppliesAgree (run (perform sampleEnv sampleWorld) (sampleStart [sampleGrant 0])
      [.act (sampleBlock [sampleGrant 1]) 1 .connect true 0 []]) := by
  refine supplies_agree sampleEnv sampleWorld (sampleBlock [sampleGrant 0]) _ _
    (sampleStart_started (by decide +kernel)) (by simp only [PaysSubsidy]; decide +kernel) ?_
    _ [] (List.append_nil _).symm
  intro before event after split
  cases before with
  | nil =>
      obtain ⟨rfl, -⟩ := List.cons.inj split
      refine ⟨?_, ?_⟩
      · simp only [PaysSubsidy]
        decide +kernel
      · simp only [MovesSchedule]
        decide +kernel
  | cons first rest => simp at split

end Lyrion.Node
