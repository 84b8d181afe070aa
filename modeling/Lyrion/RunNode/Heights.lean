/- GID: Lyrion/RunNode/Heights
   digest: Every process of a node starts at the genesis block, whatever the ones before it have
     stored, and none gets beyond height 1. -/

import Lyrion.RunNode

set_option autoImplicit false
set_option relaxedAutoImplicit false

namespace Lyrion.RunNode

open Library.ByteCodec Library.KeyValue Library.Runs Data Utils Tx Node Net

section Loading

variable {env : Env} {world : World} {setHash : Hash} {supply : UInt64} {db : Db}

structure Fresh (db : Db) : Prop where
  clear : NoJournal db
  tipless : get db .default tipKey = none

def Unloadable (db : Db) : Prop := Fresh db ∨ CountersStored db

private theorem Fresh.recoverLeaves (fresh : Fresh db) :
    recoverLeaves env setHash supply db = (.ok (), db) := by
  rw [Node.recoverLeaves, noJournal_iff.mp fresh.clear]
  rfl

private theorem Unloadable.loadFromDb (unloadable : Unloadable db) (c : Chain) :
    loadFromDb env setHash supply db ≠ .ok c := by
  rcases unloadable with fresh | stored
  · intro loaded
    have recovered : recoverPendingReorgs env setHash supply db = .ok db := by
      rw [recoverPendingReorgs_eq_leaves, fresh.recoverLeaves]
      rfl
    simp only [Node.loadFromDb, recovered, bind_eq_ok, orFail_eq_ok] at loaded
    obtain ⟨_, same, tip, found, -⟩ := loaded
    obtain rfl := Except.ok.inj same
    exact absurd (fresh.tipless.symm.trans found) (by simp)
  · exact loadFromDb_fails stored c

private theorem Unloadable.recoverHalted (unloadable : Unloadable db) (journals : Nat)
    (half : Bool) :
    Unloadable (recoverHalted env setHash supply db journals half) := by
  rcases unloadable with fresh | stored
  · left
    simpa [Node.recoverHalted, noJournal_iff.mp fresh.clear, recoverWalk] using fresh
  · right
    refine recoverHalted_invariant stored ?_ journals half
    intro key pending current batch kept built
    obtain ⟨id, rfl, -⟩ := mem_pendingKeys.mp pending
    have written : CountersStored (write current batch) := by
      simp only [recoverBatch, bind_eq_ok] at built
      obtain ⟨journal, -, height, -, tip, -, rest⟩ := built
      split at rest
      · obtain ⟨_, -, connects⟩ := bind_eq_ok.mp rest
        exact buildBlockOps_counters connects current
      · obtain rfl := Except.ok.inj rest
        exact kept
    exact ⟨written, written.journalDelete id⟩

private theorem Unloadable.recoverLeaves (unloadable : Unloadable db) :
    Unloadable (recoverLeaves env setHash supply db).2 := by
  rw [← recoverHalted_all]
  exact unloadable.recoverHalted _ _

end Loading

/-- The tip and the index know the genesis block alone. -/
structure AtGenesis (settings : Settings) (c : Chain) : Prop where
  tip : headerHash settings.env settings.genesis.header = .ok c.bestTip
  index : c.state.hashToHeight = (∅ : Map Hash Nat).insert c.bestTip 0
  height : c.bestHeight ≤ 1
  stored : CountersStored c.db

def SavedOne (c : Chain) : Prop :=
  c.saved = [] ∨ ∃ block, c.saved = [(1, block)] ∧ block.header.prevHash = c.bestTip

section Steps

variable {settings : Settings} {c : Chain}

private theorem AtGenesis.lookup_eq_some (atGenesis : AtGenesis settings c) {hash : Hash}
    {height : Nat} :
    c.state.hashToHeight.lookup hash = some height ↔ hash = c.bestTip ∧ height = 0 := by
  rw [atGenesis.index]
  by_cases same : hash = c.bestTip
  · subst same
    simp [eq_comm]
  · simp [Finmap.lookup_insert_of_ne _ same, same]

private theorem AtGenesis.filed (atGenesis : AtGenesis settings c) {world : World} {block : Block}
    {r : Result Submitted × Chain}
    (submitted : Locked.submit settings.env world true block c = some r) :
    AtGenesis settings r.2 ∧ (c.saved = [] → SavedOne r.2) ∧
      ((∀ height reorg, r.1 ≠ .ok (.accepted height reorg)) → r.2.saved = c.saved) := by
  have stored := keeps_locked (countersStored_keeps settings.env world) atGenesis.stored trivial
    submitted
  have filed := locked_submit_filed submitted
  cases filed with
  | refused r c' unaccepted state tip saved height =>
      refine ⟨⟨tip ▸ atGenesis.tip, ?_, ?_, stored⟩, fun none => Or.inl (saved.trans none),
        fun _ => saved⟩
      · rw [state, tip, atGenesis.index]
      · rcases height with same | ⟨prevHeight, parent, moved⟩
        · exact same.le.trans atGenesis.height
        · obtain ⟨-, rfl⟩ := atGenesis.lookup_eq_some.mp parent
          exact moved.le
  | accepted prevHeight c' state parent tip saved height =>
      obtain ⟨child, rfl⟩ := atGenesis.lookup_eq_some.mp parent
      refine ⟨⟨tip ▸ atGenesis.tip, ?_, height.le, stored⟩, ?_, ?_⟩
      · rw [state, tip, atGenesis.index]
      · intro none
        rw [none] at saved
        exact Or.inr ⟨block, saved, child.trans tip.symm⟩
      · exact fun unaccepted => absurd rfl (unaccepted _ _)

private theorem atGenesis_new {world : World} {db : Db}
    (started : (Chain.new settings.env world db settings.genesis).1 = .ok c) :
    AtGenesis settings c ∧ c.bestHeight = 0 ∧ c.saved = [] := by
  obtain ⟨root, acc, hashed, handled, rfl⟩ := new_eq_ok started
  refine ⟨⟨hashed, rfl, Nat.zero_le 1, ?_⟩, rfl, rfl⟩
  exact actionBatch_counters settings.genesis (blank db root) 0 .connect
    (by simpa only [blank, decide_true] using handled) db

private theorem Unloadable.new {env : Env} {world : World} {db left : Db} {genesis : Block}
    {e : Fault} (unloadable : Unloadable db)
    (failed : Chain.new env world db genesis = (.error e, left)) :
    Unloadable left := by
  unfold Chain.new at failed
  split at failed
  · exact (Prod.mk.inj failed).2 ▸ unloadable
  · exact (Prod.mk.inj failed).2 ▸ unloadable
  · rename_i hash target _ _
    have course := applyBlockAction_cases env (world.outside 0) genesis (blank db hash) 0
      .connect true (blockWork target) []
    simp only [blank] at course failed
    generalize applyBlockAction env (world.outside 0) genesis 0 .connect true (blockWork target) []
      _ = result at course failed
    cases course with
    | locked e closed => exact (Prod.mk.inj failed).2 ▸ unloadable
    | failed e => exact (Prod.mk.inj failed).2 ▸ unloadable
    | frozen e => exact (Prod.mk.inj failed).2 ▸ unloadable
    | rolledBack e acc handled unwritten =>
        obtain ⟨-, rfl⟩ := Prod.mk.inj failed
        have same (k : Bytes) : get (write db (rollbackBatch acc.rollbackOps)) .default k =
            get db .default k := by
          simp only [Data.get, rollbackBatch_default handled]
        rcases unloadable with fresh | stored
        · refine Or.inl ⟨fun id => ?_, ?_⟩
          · rw [same, fresh.clear id]
          · rw [same, fresh.tipless]
        · exact Or.inr (stored.of_same fun k _ => same k)
    | applied r hash hashed acc handled blocks pending =>
        right
        have counted := actionBatch_counters genesis
          (⟨db, emptyState, zeroHash, 0, [], _, false, false, 1, []⟩ : Chain) 0 .connect handled db
        cases r with
        | error e =>
            obtain ⟨-, rfl⟩ := Prod.mk.inj failed
            exact counted
        | ok batch => simp at failed

private theorem Unloadable.startChain {world : World} {setHash : Hash} {supply : UInt64}
    {db left : Db} (unloadable : Unloadable db) {result : Result Chain}
    (started : startChain settings.env world setHash supply settings.genesis db = (result, left)) :
    match result with
    | .ok c => AtGenesis settings c ∧ c.bestHeight = 0 ∧ c.saved = []
    | .error _ => Unloadable left := by
  have recovered : Unloadable (Node.recoverLeaves settings.env setHash supply db).2 :=
    unloadable.recoverLeaves
  unfold Node.startChain at started
  split at started
  · rename_i c loaded
    exact absurd loaded (unloadable.loadFromDb c)
  · cases result with
    | ok c => exact atGenesis_new (congrArg Prod.fst started)
    | error e => exact recovered.new started
  · obtain ⟨rfl, rfl⟩ := Prod.mk.inj started
    exact recovered

end Steps

private theorem lasting_atGenesis (settings : Settings) :
    Lasting settings Unloadable (fun _ c _ => AtGenesis settings c ∧ c.saved = [])
      (fun _ c => AtGenesis settings c ∧ SavedOne c) where
  initialised pubkey db after unloadable done := by
    simp only [initDb, bind_eq_ok, pure_eq_ok] at done
    obtain ⟨_, -, hash, -, rfl⟩ := done
    have same {k : Bytes} (other : k ≠ genesisHashKey) :
        get (write db [putCf .default genesisHashKey hash.toList]) .default k =
          get db .default k := by
      apply get_write_of_notMem
      simpa [defaultKeys, putCf, Write.key] using other
    rcases unloadable with fresh | stored
    · refine Or.inl ⟨fun id => ?_, ?_⟩
      · rw [same (by simp [reorgKey, reorgPrefix, genesisHashKey]), fresh.clear id]
      · rw [same (by decide), fresh.tipless]
    · refine Or.inr (stored.of_same fun k counter => same ?_)
      rcases counter with rfl | rfl <;> decide
  started session setHash supply db c left unloadable started := by
    obtain ⟨atGenesis, -, saved⟩ := unloadable.startChain started
    exact ⟨atGenesis, saved⟩
  failed session setHash supply db e left unloadable failed := unloadable.startChain failed
  halted setHash supply db journals half unloadable := unloadable.recoverHalted journals half
  moved session before after holds move := by
    cases move with
    | file block c m r filed refused =>
        obtain ⟨kept, -, saved⟩ := holds.1.filed filed
        exact ⟨kept, (saved refused).trans holds.2⟩
    | insert choices tx c m m' result inserted => exact holds
  cleaned session choices expirationMs c m holds := holds
  locked session c m holds := ⟨holds.1, Or.inl holds.2⟩
  accepted session block height reorg c c' m holds accepted := by
    obtain ⟨kept, saved, -⟩ := holds.1.filed accepted
    exact ⟨kept, saved holds.2⟩
  ended session c holds := Or.inr holds.1.stored
  shut session c holds := by
    unfold shutDown stopChain
    split
    · exact Or.inr holds.1.stored
    · rename_i block _
      have cases := saveBlock_cases settings.env (session.world.outside c.tick) block c c.bestHeight
      generalize saveBlock settings.env (session.world.outside c.tick) c.bestHeight block c = result
        at cases
      cases cases with
      | unsaved e => exact Or.inr holds.1.stored
      | saved hash hashed => exact Or.inr (holds.1.stored.saveOps _ _ _)
  died session block writes c r holds submitted := Or.inr (holds.1.filed submitted).1.stored

variable (settings : Settings)

private theorem unloadable_emptyDb : Unloadable emptyDb := Or.inl ⟨fun _ => rfl, rfl⟩

/-- A node that begins on an empty database is at the genesis block for ever. Every start begins
there again, since no database it leaves can be loaded, a process that goes on has saved nothing,
and one that has saved its one block, a child of the genesis block, hangs. -/
theorem node_stays_at_genesis (events : List Event) :
    (∀ session s held, life settings emptyDb events = .up session s held →
        AtGenesis settings s.chain ∧ s.chain.saved = []) ∧
      (∀ session c readable, life settings emptyDb events = .hung session c readable →
        AtGenesis settings c ∧ SavedOne c) ∧
      (∀ setHash supply c,
        loadFromDb settings.env setHash supply (life settings emptyDb events).db ≠ .ok c) ∧
      ∀ world setHash supply c left, startChain settings.env world setHash supply settings.genesis
          (life settings emptyDb events).db = (.ok c, left) →
        AtGenesis settings c ∧ c.bestHeight = 0 := by
  have lasting := (lasting_atGenesis settings).life unloadable_emptyDb events
  generalize life settings emptyDb events = node at lasting
  have unloadable : Unloadable node.db := by
    cases node with
    | down db => exact lasting
    | up session s held => exact Or.inr lasting.1.stored
    | hung session c readable => exact Or.inr lasting.1.stored
  refine ⟨?_, ?_, fun _ _ => unloadable.loadFromDb, ?_⟩
  · rintro session s held rfl
    exact lasting
  · rintro session c readable rfl
    exact lasting
  · intro world setHash supply c left started
    obtain ⟨atGenesis, height, -⟩ := unloadable.startChain started
    exact ⟨atGenesis, height⟩

end Lyrion.RunNode
