/- GID: Lyrion/Node/ForkChoice
   digest: Index consistency and most-work fork choice along runs of add_block. -/

import Lyrion.Node.History

set_option autoImplicit false
set_option relaxedAutoImplicit false

namespace Lyrion.Node

open Library.ByteCodec Library.KeyValue Library.Runs Data Utils Tx

def lastAccepted (genesis : Block) (c : Chain) : Block := (c.saved.head?.map Prod.snd).getD genesis

/-- The indexes agree, and the parent of a child of the block accepted last is found in them. -/
structure Sound (env : Env) (genesis : Block) (c : Chain) : Prop where
  consistent : IndexConsistent c
  extendable : ∀ child : Block,
    headerHash env (lastAccepted genesis c).header = .ok child.header.prevHash →
      (c.state.hashToHeight.lookup child.header.prevHash).isSome

variable {env : Env} {world : World} {genesis block : Block} {root : Hash} {c : Chain}

private theorem Rooted.sound (rooted : Rooted env genesis root c) (start : c.bestHeight = 0)
    (nothing : c.saved = []) : Sound env genesis c where
  consistent :=
    { tip := by
        rw [start, rooted.heights, rooted.tip, Finmap.lookup_insert]
      inverse := by
        intro i bound hash
        obtain rfl : i = 0 := by omega
        rw [rooted.lookup_eq_some, rooted.heights, Finmap.lookup_insert]
        simp [eq_comm]
      linked := by
        intro i bound
        omega
      work := by
        intro i bound
        omega }
  extendable := by
    intro child hashed
    rw [lastAccepted, nothing] at hashed
    have parent := Except.ok.inj (rooted.hashed.symm.trans hashed)
    rw [rooted.lookup_eq_some.mpr ⟨parent.symm, rfl⟩]
    rfl

private theorem Rooted.not_sound (rooted : Rooted env genesis root c) (moved : c.bestHeight = 1) :
    ¬ Sound env genesis c := by
  intro sound
  have tip := sound.consistent.tip
  rw [moved, rooted.heights, Finmap.lookup_insert_of_ne _ (by decide)] at tip
  exact absurd tip (by simp)

/-- The indexes hold along a run exactly as long as nothing is added: the path that a heavier
block takes moves the best height and no index. -/
theorem indexes_sound_iff (env : Env) (world : World) (db : Db) (genesis : Block) (c : Chain)
    (blocks : List Block) (reliable : Reliable world)
    (positive : 0 < headerWork genesis.header)
    (started : (Chain.new env world db genesis).1 = .ok c) :
    (∀ before after, blocks = before ++ after →
        Sound env genesis (runBlocks env world c before)) ↔
      ∀ before block after, blocks = before ++ block :: after →
        ¬ Connects env (world.outside (runBlocks env world c before).tick).nowMs
          (runBlocks env world c before) block := by
  obtain ⟨root, rooted, start, nothing⟩ := rooted_new started
  constructor
  · intro sound before block after split connects
    have reached := rooted.run reliable positive before
    have step := reached.step reliable positive block
    have next := reached.addBlock reliable positive block
    have result : (addBlock env world block (runBlocks env world c before)).2.bestHeight = 1 := by
      generalize addBlock env world block (runBlocks env world c before) = r at step
      cases step with
      | declined r notAdded db tick pool kept refused settled => exact absurd connects refused
      | connected => rfl
    refine next.not_sound result ?_
    have later := sound (before ++ [block]) after (by simp [split])
    rwa [runBlocks, run_concat] at later
  · intro declined before after split
    have quiet : ∀ before after, blocks = before ++ after →
        (runBlocks env world c before).bestHeight = 0 ∧
          (runBlocks env world c before).saved = [] := by
      refine run_invariant _ (fun c : Chain => c.bestHeight = 0 ∧ c.saved = [])
        ⟨start, nothing⟩ ?_
      intro before block after split unmoved
      have reached := rooted.run reliable positive before
      have step := reached.step reliable positive block
      have refused := declined before block after split
      simp only [runBlocks] at refused reached step
      generalize addBlock env world block (run _ c before) = r at step
      cases step with
      | declined r notAdded db tick pool kept _ settled => exact unmoved
      | connected hash id journal batch tick pool connects => exact absurd connects refused
    obtain ⟨unmoved, unsaved⟩ := quiet before after split
    exact (rooted.run reliable positive before).sound unmoved unsaved

def sampleStart (txs : List Transaction) : Chain :=
  ((Chain.new sampleEnv sampleWorld emptyDb (sampleBlock txs)).1.toOption).getD
    (blank emptyDb zeroHash)

theorem sampleStart_started {txs : List Transaction}
    (succeeds : (Chain.new sampleEnv sampleWorld emptyDb (sampleBlock txs)).1.isOk = true) :
    (Chain.new sampleEnv sampleWorld emptyDb (sampleBlock txs)).1 = .ok (sampleStart txs) := by
  obtain ⟨c, started⟩ := exists_of_isOk succeeds
  simp [sampleStart, started, Except.toOption]

private theorem sampleWorld_reliable : Reliable sampleWorld := ⟨sampleWorld_working, fun _ => rfl⟩

theorem added_block_not_indexed :
    Reliable sampleWorld ∧ (Chain.new sampleEnv sampleWorld emptyDb (sampleBlock [])).1 =
        .ok (sampleStart []) ∧
      ¬ Sound sampleEnv (sampleBlock [])
        (runBlocks sampleEnv sampleWorld (sampleStart []) [sampleRival 1]) := by
  refine ⟨sampleWorld_reliable, (sampleStart_started (by decide +kernel)), ?_⟩
  intro sound
  exact absurd sound.consistent.tip (by decide +kernel)

theorem filed_block_sound :
    Sound sampleEnv (sampleBlock []) (runBlocks sampleEnv sampleWorld (sampleStart [])
      [sampleChild zeroHash 10000000000 0]) := by
  refine (indexes_sound_iff sampleEnv sampleWorld emptyDb (sampleBlock []) (sampleStart [])
    [sampleChild zeroHash 10000000000 0] sampleWorld_reliable (by decide +kernel)
    (sampleStart_started (by decide +kernel))).mpr ?_ _ [] (List.append_nil _).symm
  rintro before block after split ⟨_, prevHeight, _, -, -, found, -⟩
  have parentless : (sampleStart []).state.hashToHeight.lookup zeroHash = none := by decide +kernel
  cases before with
  | nil =>
      obtain ⟨rfl, -⟩ := List.cons.inj split
      exact absurd (parentless.symm.trans found) (by simp)
  | cons first rest => simp at split

/-- The work of the stored headers from the genesis block up to the best height. -/
def activeWork (c : Chain) : Nat :=
  ((List.range (c.bestHeight + 1)).map fun i =>
    ((loadHeader c.db i).toOption.map headerWork).getD 0).sum

def activeTip (c : Chain) : Option BlockHeader := (loadHeader c.db c.bestHeight).toOption

/-- An accepted block with its height and the work that it has together with its ancestors. -/
inductive Lineage (env : Env) (genesis : Block) (saved : List (Nat × Block)) :
    Nat → Block → Nat → Prop
  | genesis : Lineage env genesis saved 0 genesis (headerWork genesis.header)
  | child {height work : Nat} {parent : Block}
      (ancestors : Lineage env genesis saved height parent work) (block : Block)
      (accepted : (height + 1, block) ∈ saved)
      (linked : headerHash env parent.header = .ok block.header.prevHash) :
      Lineage env genesis saved (height + 1) block (work + headerWork block.header)

def MostWork (env : Env) (genesis : Block) (c : Chain) : Prop :=
  ∀ height block work, Lineage env genesis c.saved height block work → work ≤ activeWork c

def TipRule (before after : Chain) : Prop :=
  activeTip after = activeTip before ∨ activeWork before < activeWork after

/-- Where the accepted blocks and the active chain of a rooted node stand. -/
structure Weighed (genesis : Block) (c : Chain) : Prop where
  saved : ∀ entry ∈ c.saved, entry.1 = 1 ∧ headerWork entry.2.header = headerWork genesis.header
  start : c.bestHeight = 0 → c.saved = []
  top : c.bestHeight = 1 → ∃ header,
    get c.db .default (headerKey 1) = some (headerCodec.encode header) ∧
      headerWork header = headerWork genesis.header

private theorem Rooted.activeWork (rooted : Rooted env genesis root c)
    (weighed : Weighed genesis c) :
    activeWork c = (c.bestHeight + 1) * headerWork genesis.header := by
  have first := loadHeader_of_stored rooted.header
  rcases Nat.le_one_iff_eq_zero_or_eq_one.mp rooted.height with start | moved
  · simp [Node.activeWork, start, first, Except.toOption]
  · obtain ⟨header, stored, work⟩ := weighed.top moved
    have second := loadHeader_of_stored stored
    simp [Node.activeWork, moved, List.range_succ, first, second, work, Except.toOption]
    omega

private theorem Weighed.lineage (weighed : Weighed genesis c)
    {height work : Nat} {block : Block} (lineage : Lineage env genesis c.saved height block work) :
    height ≤ c.bestHeight ∧ work = (height + 1) * headerWork genesis.header := by
  induction lineage with
  | genesis => exact ⟨Nat.zero_le _, by simp⟩
  | @child height work parent ancestors block accepted linked ih =>
      obtain ⟨one, same⟩ := weighed.saved _ accepted
      have moved : c.bestHeight ≠ 0 := by
        intro start
        rw [weighed.start start] at accepted
        simp at accepted
      refine ⟨by omega, ?_⟩
      rw [ih.2, same]
      exact (Nat.succ_mul _ _).symm

private theorem Weighed.mostWork (weighed : Weighed genesis c)
    (rooted : Rooted env genesis root c) :
    MostWork env genesis c := by
  intro height block work lineage
  obtain ⟨bound, rfl⟩ := weighed.lineage lineage
  rw [rooted.activeWork weighed]
  exact Nat.mul_le_mul_right _ (Nat.succ_le_succ bound)

private theorem Weighed.tip (weighed : Weighed genesis c) (rooted : Rooted env genesis root c) :
    ∃ header, get c.db .default (headerKey c.bestHeight) = some (headerCodec.encode header) := by
  rcases Nat.le_one_iff_eq_zero_or_eq_one.mp rooted.height with start | moved
  · rw [start]
    exact ⟨_, rooted.header⟩
  · obtain ⟨header, stored, -⟩ := weighed.top moved
    rw [moved]
    exact ⟨header, stored⟩

private theorem activeTip_of_stored {header : BlockHeader}
    (stored : get c.db .default (headerKey c.bestHeight) = some (headerCodec.encode header)) :
    activeTip c = some header := by
  rw [activeTip, loadHeader_of_stored stored]
  rfl

private theorem get_reorganised_header {hash : Hash} {id journal : Bytes} {batch : DbBatch}
    (built : reorgBatch env c.db c.state.utxoSetHash c.state.totalSupply 0 c.bestHeight block =
      .ok batch) :
    get (reorganised c block hash 0 id journal batch).db .default (headerKey 1) =
      some (headerCodec.encode block.header) := by
  have unsaved : headerKey 1 ∉ defaultKeys (saveOps 1 block hash) := by
    rw [defaultKeys_saveOps]
    simp [headerKey, blockKey, heightKey, tipKey, bestHeightKey]
  have plain : headerKey 1 ≠ reorgKey id := by simp [headerKey, reorgKey, reorgPrefix]
  exact ((get_write_of_notMem unsaved).trans (get_journalDelete plain)).trans
    ((reorgBatch_default built).get_header _)

private theorem Weighed.addBlock (weighed : Weighed genesis c) (rooted : Rooted env genesis root c)
    (reliable : Reliable world) (positive : 0 < headerWork genesis.header) (block : Block) :
    Weighed genesis (addBlock env world block c).2 := by
  have step := rooted.step reliable positive block
  have header (refused : ¬ Connects env (world.outside c.tick).nowMs c block) :=
    step.header 1 fun connects => absurd connects refused
  generalize Node.addBlock env world block c = r at step header
  cases step with
  | declined r notAdded db tick pool kept refused settled =>
      refine ⟨weighed.saved, weighed.start, ?_⟩
      intro moved
      rw [header refused]
      exact weighed.top moved
  | connected hash id journal batch tick pool connects hashed fresh parent valid built settled =>
      obtain ⟨bits, -⟩ := validateBlock_bits (loadHeader_of_stored rooted.header) valid
      have work : headerWork block.header = headerWork genesis.header := by
        simp [headerWork, bits]
      refine ⟨?_, ?_, ?_⟩
      · intro entry member
        rcases List.mem_cons.mp member with rfl | member
        · exact ⟨rfl, work⟩
        · exact weighed.saved entry member
      · intro start
        exact absurd start (by simp [reorganised])
      · intro _
        exact ⟨block.header, get_reorganised_header built, work⟩

private theorem Weighed.tipRule_iff (weighed : Weighed genesis c)
    (rooted : Rooted env genesis root c) (reliable : Reliable world)
    (positive : 0 < headerWork genesis.header) (block : Block) :
    TipRule c (Node.addBlock env world block c).2 ↔
      (Connects env (world.outside c.tick).nowMs c block →
        (c.state.cumulativeWork.lookup c.bestHeight).isSome ∨ activeTip c = some block.header) := by
  obtain ⟨header, stored⟩ := weighed.tip rooted
  have tip := activeTip_of_stored stored
  have before := rooted.activeWork weighed
  have after := (rooted.addBlock reliable positive block).activeWork
    (weighed.addBlock rooted reliable positive block)
  have step := rooted.step reliable positive block
  have kept (refused : ¬ Connects env (world.outside c.tick).nowMs c block) :=
    step.header c.bestHeight fun connects => absurd connects refused
  generalize Node.addBlock env world block c = r at step after kept
  cases step with
  | declined r notAdded db tick pool _ refused settled =>
      refine ⟨fun _ connects => absurd connects refused, fun _ => Or.inl ?_⟩
      rw [tip]
      exact activeTip_of_stored ((kept refused).trans stored)
  | connected hash id journal batch tick pool connects hashed fresh parent valid built settled =>
      have newTip : activeTip { reorganised c block hash 0 id journal batch with
          tick := tick, orphanBlocks := pool } = some block.header :=
        activeTip_of_stored (get_reorganised_header built)
      rw [TipRule, newTip, before, after]
      simp only [reorganised, connects, forall_const]
      rcases Nat.le_one_iff_eq_zero_or_eq_one.mp rooted.height with start | moved
      · have known : (c.state.cumulativeWork.lookup 0).isSome = true := by
          rw [rooted.work, Finmap.lookup_insert]
          rfl
        rw [start]
        exact ⟨fun _ => Or.inl known, fun _ => Or.inr (by omega)⟩
      · have unknown : c.state.cumulativeWork.lookup 1 = none := by
          rw [rooted.work, Finmap.lookup_insert_of_ne _ (by decide)]
          rfl
        rw [moved, unknown]
        constructor
        · rintro (same | more)
          · exact Or.inr same.symm
          · exact absurd more (Nat.lt_irrefl _)
        · rintro (absent | same)
          · exact absurd absent (by simp)
          · exact Or.inl same.symm

/-- The active chain of a run is always among the heaviest. Its tip is safe exactly as long as a
block that connects finds the work of the best height on record, or is the tip once more. -/
theorem fork_choice_iff (env : Env) (world : World) (db : Db) (genesis : Block) (c : Chain)
    (blocks : List Block) (reliable : Reliable world) (positive : 0 < headerWork genesis.header)
    (started : (Chain.new env world db genesis).1 = .ok c) :
    ((∀ before after, blocks = before ++ after →
        MostWork env genesis (runBlocks env world c before)) ∧
      ∀ before block after, blocks = before ++ block :: after →
        TipRule (runBlocks env world c before) (runBlocks env world c (before ++ [block]))) ↔
      ∀ before block after, blocks = before ++ block :: after →
        Connects env (world.outside (runBlocks env world c before).tick).nowMs
            (runBlocks env world c before) block →
          ((runBlocks env world c before).state.cumulativeWork.lookup
              (runBlocks env world c before).bestHeight).isSome ∨
            activeTip (runBlocks env world c before) = some block.header := by
  obtain ⟨root, rooted, start, nothing⟩ := rooted_new started
  have weighed (before : List Block) : Weighed genesis (runBlocks env world c before) := by
    have first : Weighed genesis c :=
      ⟨by simp [nothing], fun _ => nothing, fun moved => absurd (start.symm.trans moved) (by simp)⟩
    refine run_invariant _ (Weighed genesis) first ?_ before [] (List.append_nil before).symm
    intro before block after _ reached
    exact reached.addBlock (rooted.run reliable positive before) reliable positive block
  have rule (before : List Block) (block : Block) :=
    (weighed before).tipRule_iff (rooted.run reliable positive before) reliable positive block
  constructor
  · rintro ⟨-, tips⟩ before block after split
    have kept := tips before block after split
    rw [runBlocks, run_concat] at kept
    exact (rule before block).mp kept
  · intro known
    refine ⟨fun before _ _ => (weighed before).mostWork (rooted.run reliable positive before), ?_⟩
    intro before block after split
    have kept := (rule before block).mpr (known before block after split)
    rwa [runBlocks, run_concat]

/-- Two children of the genesis block have the same work, and the second takes the place of the
first. -/
theorem second_child_takes_tip :
    Reliable sampleWorld ∧ (Chain.new sampleEnv sampleWorld emptyDb (sampleBlock [])).1 =
        .ok (sampleStart []) ∧
      ¬ TipRule (runBlocks sampleEnv sampleWorld (sampleStart []) [sampleRival 1])
        (runBlocks sampleEnv sampleWorld (sampleStart []) [sampleRival 1, sampleRival 2]) := by
  refine ⟨sampleWorld_reliable, (sampleStart_started (by decide +kernel)), ?_⟩
  rintro (same | more)
  · exact absurd same (by decide +kernel)
  · exact absurd more (by decide +kernel)

theorem first_child_takes_tip :
    (∀ before after, [sampleRival 1] = before ++ after →
        MostWork sampleEnv (sampleBlock [])
          (runBlocks sampleEnv sampleWorld (sampleStart []) before)) ∧
      ∀ before block after, [sampleRival 1] = before ++ block :: after →
        TipRule (runBlocks sampleEnv sampleWorld (sampleStart []) before)
          (runBlocks sampleEnv sampleWorld (sampleStart []) (before ++ [block])) := by
  refine (fork_choice_iff sampleEnv sampleWorld emptyDb (sampleBlock []) (sampleStart [])
    [sampleRival 1] sampleWorld_reliable (by decide +kernel)
    (sampleStart_started (by decide +kernel))).mpr ?_
  intro before block after split _
  cases before with
  | nil =>
      obtain ⟨rfl, -⟩ := List.cons.inj split
      exact Or.inl (by decide +kernel)
  | cons first rest => simp at split

end Lyrion.Node
