/- GID: Lyrion/Node/Pruning
   digest: Which block bodies a run of best blocks leaves in the database when the deletions of
     pruning are committed, against the heights that loading reads whole. -/

import Lyrion.Node.Load

set_option autoImplicit false
set_option relaxedAutoImplicit false

namespace Lyrion.Node

open Library.ByteCodec Library.KeyValue Data Utils Tx

variable {ops : DbBatch} {state : ChainState} {k i : Nat} {hash : Hash} {acc : UtxoAcc}

/-- One best block: the block action, the commit of the batch it hands back with the deletions of
`prune`, and `save_block`. -/
def connectBest (env : Env) (o : Outside) (block : Block) (height work : Nat) (c : Chain) :
    Result Unit × Chain :=
  match applyBlockAction env o block height .connect true work [] c with
  | (.error e, c) => (.error e, c)
  | (.ok batch, c) => saveBlock env o height block { c with db := write c.db batch }

/-- The blocks connected so far, one at each height from 0 on. -/
inductive BestRun (env : Env) : List Block → Chain → Prop
  | start (c : Chain) : BestRun env [] c
  | connect {blocks : List Block} {c c' : Chain} (before : BestRun env blocks c) (o : Outside)
      (block : Block) (work : Nat)
      (connected : connectBest env o block blocks.length work c = (.ok (), c')) :
      BestRun env (blocks ++ [block]) c'

/-- What `load_block_from_db` needs of the database at a height. -/
def BodyStored (db : Db) (height : Nat) : Prop :=
  ∃ hash, get db .default (heightKey height) = some hash ∧
    (get db .default (blockKey hash)).isSome

/-- After so many blocks the body at this height is kept. The first block is never pruned. -/
def Kept (count height : Nat) : Prop := height = 0 ∨ count ≤ height + pruneDepth

instance (count height : Nat) : Decidable (Kept count height) :=
  inferInstanceAs (Decidable (height = 0 ∨ count ≤ height + pruneDepth))

section Step

variable {env : Env} {o : Outside} {block : Block} {height work : Nat} {c c' : Chain}

variable (env) in
def pruneBest (height : Nat) (state : ChainState) : Result (ChainState × DbBatch) :=
  if height > pruneDepth then prune env (height - pruneDepth) state else .ok (state, [])

variable (env) in
def bestDb (block : Block) (height : Nat) (hash : Hash) (acc : UtxoAcc) (ops : DbBatch)
    (c : Chain) : Db :=
  write (write (write c.db (actionBatch env block c height .connect acc))
    (actionBatch env block c height .connect acc ++ ops)) (saveOps height block hash)

variable (env) in
def bestState (block : Block) (height work : Nat) (hash : Hash) (acc : UtxoAcc) (c : Chain) :
    ChainState :=
  c.state.applyChanges block height hash .connect work acc.setHash
    (actionSupply env c.db height .connect)

private theorem applyBlockAction_best {hash : Hash} {acc : UtxoAcc} (idle : c.batchPending = false)
    (writable : c.readOnlyMode = false) (hashed : headerHash env block.header = .ok hash)
    (applied : applyUtxoChanges env c.db c.state.utxoSetHash c.state.totalSupply block height
      true [] = .ok acc) (written : o.actionWrite = true) :
    applyBlockAction env o block height .connect true work [] c =
      match pruneBest env height (bestState env block height work hash acc c) with
      | .error e => (.error e, { c with
          db := write c.db (actionBatch env block c height .connect acc)
          state := bestState env block height work hash acc c
          bestTip := hash
          bestHeight := height
          batchPending := true })
      | .ok (state, ops) => (.ok (actionBatch env block c height .connect acc ++ ops), { c with
          db := write c.db (actionBatch env block c height .connect acc)
          state := state
          bestTip := hash
          bestHeight := height
          batchPending := false }) := by
  simp only [applyBlockAction, Locking.applyBlockAction, idle, writable, Bool.false_eq_true,
    false_and, if_false, hashed, lock_aside, pure_aside, bind_aside, decide_true, applied, written,
    Bool.not_true, and_self, if_true]
  by_cases deep : height > pruneDepth
  · simp only [pruneBest, if_pos deep]
    rfl
  · simp only [pruneBest, if_neg deep, List.append_nil]
    rfl

private theorem connectBest_of_idle {hash : Hash} {acc : UtxoAcc} {state : ChainState}
    {ops : DbBatch} (idle : c.batchPending = false) (writable : c.readOnlyMode = false)
    (hashed : headerHash env block.header = .ok hash)
    (applied : applyUtxoChanges env c.db c.state.utxoSetHash c.state.totalSupply block height
      true [] = .ok acc) (written : o.actionWrite = true) (saved : o.saveWrite = true)
    (pruned : pruneBest env height (bestState env block height work hash acc c) =
      .ok (state, ops)) :
    connectBest env o block height work c = (.ok (), { c with
      db := bestDb env block height hash acc ops c
      state := state
      bestTip := hash
      bestHeight := height
      batchPending := false
      saved := (height, block) :: c.saved }) := by
  rw [connectBest, applyBlockAction_best idle writable hashed applied written, pruned]
  simp only [saveBlock, hashed, saved, Bool.not_true, Bool.false_eq_true, if_false]
  rfl

private theorem connectBest_cases (done : connectBest env o block height work c = (.ok (), c')) :
    ∃ hash acc state ops, headerHash env block.header = .ok hash ∧
      applyUtxoChanges env c.db c.state.utxoSetHash c.state.totalSupply block height true [] =
        .ok acc ∧
      pruneBest env height (bestState env block height work hash acc c) = .ok (state, ops) ∧
      c'.db = bestDb env block height hash acc ops c ∧ c'.state = state ∧
      c'.bestHeight = height := by
  unfold connectBest at done
  cases idle : c.batchPending with
  | true => simp [applyBlockAction, Locking.applyBlockAction, idle, fail] at done
  | false =>
  cases writable : c.readOnlyMode with
  | true => simp [applyBlockAction, Locking.applyBlockAction, idle, writable, fail] at done
  | false =>
  cases hashed : headerHash env block.header with
  | error e => simp [applyBlockAction, Locking.applyBlockAction, idle, writable, hashed] at done
  | ok hash =>
  cases applied : applyUtxoChanges env c.db c.state.utxoSetHash c.state.totalSupply block height
      true [] with
  | error e =>
    simp [applyBlockAction, Locking.applyBlockAction, idle, writable, hashed, applied] at done
  | ok acc =>
  cases written : o.actionWrite with
  | false => simp [applyBlockAction, Locking.applyBlockAction, idle, writable, hashed, applied,
    written, fail] at done
  | true =>
  rw [applyBlockAction_best idle writable hashed applied written] at done
  cases pruned : pruneBest env height (bestState env block height work hash acc c) with
  | error e => simp [pruned] at done
  | ok left =>
  obtain ⟨state, ops⟩ := left
  cases saved : o.saveWrite with
  | false => simp [pruned, saveBlock, hashed, saved, fail] at done
  | true =>
  simp only [pruned, saveBlock, hashed, saved, Bool.not_true, Bool.false_eq_true, if_false,
    Prod.mk.injEq, true_and] at done
  subst done
  exact ⟨hash, acc, state, ops, rfl, rfl, pruned, rfl, rfl, rfl⟩

private theorem prune_found {old : Block} {state' : ChainState}
    (found : state.blocks.lookup height = some old)
    (done : prune env height state = .ok (state', ops)) :
    ∃ hash, headerHash env old.header = .ok hash ∧
      state'.blocks = state.blocks.erase height ∧
      writesTo .default ops = [.delete (blockKey hash.toList)] := by
  simp only [prune, found, bind_eq_ok, pure_eq_ok, Prod.mk.injEq] at done
  obtain ⟨hash, hashed, rfl, rfl⟩ := done
  refine ⟨hash, hashed, rfl, ?_⟩
  have others (txs : List Transaction) : writesTo .default (txs.flatMap fun tx =>
      tx.outputs.zipIdx.map fun p => deleteCf .addrIndex (addrKey (env.hash160 p.1.scriptPubkey)
        (txHash env tx) (UInt32.ofNat p.2))) = [] := by
    rw [List.eq_nil_iff_forall_not_mem]
    intro w member
    simp [mem_writesTo, deleteCf] at member
  rw [writesTo_cons, others]
  simp [deleteCf]

private theorem get_bestDb {hash : Hash} {acc : UtxoAcc} {ops : DbBatch}
    (applied : applyUtxoChanges env c.db c.state.utxoSetHash c.state.totalSupply block height
      true [] = .ok acc) {k : Bytes} (body : (∃ i, k = heightKey i) ∨ ∃ h, k = blockKey h) :
    get (bestDb env block height hash acc ops c) .default k =
      get (write (write c.db ops) (saveOps height block hash)) .default k := by
  have handled : applyUtxoChanges env c.db c.state.utxoSetHash c.state.totalSupply block height
      (BlockAction.connect = .connect) [] = .ok acc := applied
  have apart : k ∉ defaultKeys (actionBatch env block c height .connect acc) := by
    rw [defaultKeys, actionBatch_default handled]
    rcases body with ⟨i, rfl⟩ | ⟨h, rfl⟩ <;>
      simp [headerWrites, Write.key, heightKey, blockKey, utxoSetHashKey, totalSupplyKey,
        headerKey, stateTotalSupplyKey]
  -- the committed batch repeats the writes of the action, none of which is about a body
  refine lookup_applyWrites_congr _ _ _ _ (Or.inr ?_)
  rw [write_append]
  refine lookup_applyWrites_congr _ _ _ _ (Or.inr ?_)
  exact (get_write_of_notMem apart).trans (get_write_of_notMem apart)

end Step

/-- What a run of best blocks keeps in memory and in the database. -/
structure Window (env : Env) (blocks : List Block) (c : Chain) : Prop where
  best : blocks ≠ [] → c.bestHeight + 1 = blocks.length
  hashed : ∀ block ∈ blocks, ∃ hash, headerHash env block.header = .ok hash
  memory : ∀ k block, blocks[k]? = some block → Kept blocks.length k →
    c.state.blocks.lookup k = some block
  heights : ∀ k block hash, blocks[k]? = some block → headerHash env block.header = .ok hash →
    get c.db .default (heightKey k) = some hash.toList
  bodies : ∀ k block hash, blocks[k]? = some block → headerHash env block.header = .ok hash →
    get c.db .default (blockKey hash.toList) =
      if Kept blocks.length k then some (blockCodec.encode block) else none

def Distinct (env : Env) (blocks : List Block) : Prop :=
  (blocks.map fun block => headerHash env block.header).Nodup

private theorem Distinct.eq_of_hash {env : Env} {blocks : List Block}
    (distinct : Distinct env blocks) {j : Nat} {a b : Block} (atI : blocks[i]? = some a)
    (atJ : blocks[j]? = some b) (same : headerHash env a.header = headerHash env b.header) : i =
    j := by
  obtain ⟨bound, -⟩ := List.getElem?_eq_some_iff.mp atI
  apply (List.getElem?_inj (by simpa using bound) distinct).mp
  rw [List.getElem?_map, List.getElem?_map, atI, atJ, Option.map_some, Option.map_some, same]

private theorem heightKey_injective {j : Nat} (hi : i < 2 ^ 64) (hj : j < 2 ^ 64)
    (same : heightKey i = heightKey j) : i = j :=
  beBytes_injective (by norm_num; omega) (by norm_num; omega) (List.append_cancel_left same)

private theorem get_saveOps_body (db : Db) (height : Nat) (block : Block) (hash h : Hash) :
    get (write db (saveOps height block hash)) .default (blockKey h.toList) =
      if h = hash then some (blockCodec.encode block)
      else get db .default (blockKey h.toList) := by
  have same : blockKey h.toList = blockKey hash.toList ↔ h = hash := by
    simp [blockKey, Vector.toList_inj]
  have others : blockKey h.toList ≠ heightKey height ∧ blockKey h.toList ≠ tipKey ∧
      blockKey h.toList ≠ bestHeightKey := by
    simp [blockKey, heightKey, tipKey, bestHeightKey]
  simp [Data.get, write, saveOps, putCf, lookup_applyWrite, Write.key, Write.left, others, same]

private theorem get_saveOps_height (db : Db) {height : Nat} (block : Block) (hash : Hash)
    (bound : height < 2 ^ 64) (inside : i < 2 ^ 64) :
    get (write db (saveOps height block hash)) .default (heightKey i) =
      if i = height then some hash.toList else get db .default (heightKey i) := by
  have same : heightKey i = heightKey height ↔ i = height :=
    ⟨heightKey_injective inside bound, fun equal => equal ▸ rfl⟩
  have others : heightKey i ≠ blockKey hash.toList ∧ heightKey i ≠ tipKey ∧
      heightKey i ≠ bestHeightKey := by
    simp [blockKey, heightKey, tipKey, bestHeightKey]
  simp [Data.get, write, saveOps, putCf, lookup_applyWrite, Write.key, Write.left, others, same]

section Run

variable {env : Env} {o : Outside} {blocks : List Block} {block : Block} {work : Nat} {c c' : Chain}

private theorem kept_succ {count : Nat} :
    Kept (count + 1) k ↔ Kept count k ∧ (pruneDepth < count → k ≠ count - pruneDepth) := by
  unfold Kept
  omega

/-- The pruning after the next block: nothing, or the one body that has become too old. -/
inductive PruneCase (env : Env) (blocks : List Block) (block : Block) (c : Chain)
    (state : ChainState) (ops : DbBatch) : Prop
  | shallow (low : blocks.length ≤ pruneDepth)
      (memory : state.blocks = c.state.blocks.insert blocks.length block)
      (deleted : writesTo .default ops = [])
  | deep (old : Block) (oldHash : Hash) (high : pruneDepth < blocks.length)
      (atOld : blocks[blocks.length - pruneDepth]? = some old)
      (hashed : headerHash env old.header = .ok oldHash)
      (memory : state.blocks =
        (c.state.blocks.insert blocks.length block).erase (blocks.length - pruneDepth))
      (deleted : writesTo .default ops = [.delete (blockKey oldHash.toList)])

private theorem pruneBest_cases {hash : Hash} {acc : UtxoAcc} {state : ChainState} {ops : DbBatch}
    (window : Window env blocks c)
    (done : pruneBest env blocks.length (bestState env block blocks.length work hash acc c) =
      .ok (state, ops)) : PruneCase env blocks block c state ops := by
  by_cases high : pruneDepth < blocks.length
  · rw [pruneBest, if_pos high] at done
    have positive : 0 < pruneDepth := by decide
    have bound : blocks.length - pruneDepth < blocks.length := by omega
    obtain ⟨old, atOld⟩ : ∃ old, blocks[blocks.length - pruneDepth]? = some old :=
      ⟨_, List.getElem?_eq_getElem bound⟩
    have kept : Kept blocks.length (blocks.length - pruneDepth) := Or.inr (by omega)
    have found : (bestState env block blocks.length work hash acc c).blocks.lookup
        (blocks.length - pruneDepth) = some old := by
      have other : blocks.length - pruneDepth ≠ blocks.length := by omega
      rw [← window.memory _ old atOld kept]
      exact Finmap.lookup_insert_of_ne _ other
    obtain ⟨oldHash, hashed, memory, deleted⟩ := prune_found found done
    exact .deep old oldHash high atOld hashed memory deleted
  · rw [pruneBest, if_neg high] at done
    obtain ⟨rfl, rfl⟩ := Prod.mk.inj (Except.ok.inj done)
    exact .shallow (by omega) rfl rfl

private theorem PruneCase.lookup (pruned : PruneCase env blocks block c state ops) (k : Nat)
    (kept : pruneDepth < blocks.length → k ≠ blocks.length - pruneDepth) :
    state.blocks.lookup k = (c.state.blocks.insert blocks.length block).lookup k := by
  cases pruned with
  | shallow _ memory _ => rw [memory]
  | deep old oldHash high _ _ memory _ => rw [memory, Finmap.lookup_erase_ne (kept high)]

private theorem PruneCase.get_height (pruned : PruneCase env blocks block c state ops) (k : Nat) :
    get (write c.db ops) .default (heightKey k) = get c.db .default (heightKey k) := by
  apply get_write_of_notMem
  cases pruned with
  | shallow _ _ deleted => simp [defaultKeys, deleted]
  | deep _ _ _ _ _ _ deleted => simp [defaultKeys, deleted, Write.key, heightKey, blockKey]

private theorem PruneCase.get_body (pruned : PruneCase env blocks block c state ops)
    (distinct : Distinct env blocks) {old : Block} (atK : blocks[k]? = some old)
    (hashed : headerHash env old.header = .ok hash) :
    get (write c.db ops) .default (blockKey hash.toList) =
      if pruneDepth < blocks.length → k ≠ blocks.length - pruneDepth
      then get c.db .default (blockKey hash.toList) else none := by
  cases pruned with
  | shallow low _ deleted =>
      have kept : pruneDepth < blocks.length → k ≠ blocks.length - pruneDepth := by omega
      rw [if_pos kept, Data.get, write, deleted]
      rfl
  | deep pruned prunedHash high atPruned hashedPruned _ deleted =>
      have same : blockKey hash.toList = blockKey prunedHash.toList ↔
          k = blocks.length - pruneDepth := by
        constructor
        · intro keys
          have equal : hash = prunedHash := by simpa [blockKey, Vector.toList_inj] using keys
          exact distinct.eq_of_hash atK atPruned (by rw [hashed, hashedPruned, equal])
        · intro here
          rw [here, atPruned] at atK
          obtain rfl := Option.some.inj atK
          rw [Except.ok.inj (hashed.symm.trans hashedPruned)]
      rw [Data.get, write, deleted, applyWrites_cons, applyWrites_nil, lookup_applyWrite]
      by_cases here : k = blocks.length - pruneDepth
      · simp [Write.key, Write.left, same, here, high]
      · simp [Write.key, same, here, Data.get]

private theorem getElem?_concat_cases {b : Block} (found : (blocks ++ [block])[k]? = some b) :
    (k < blocks.length ∧ blocks[k]? = some b) ∨ (k = blocks.length ∧ b = block) := by
  by_cases inside : k < blocks.length
  · rw [List.getElem?_append_left inside] at found
    exact Or.inl ⟨inside, found⟩
  · obtain ⟨bound, -⟩ := List.getElem?_eq_some_iff.mp found
    have last : k = blocks.length := by simp at bound; omega
    subst last
    rw [List.getElem?_concat_length] at found
    exact Or.inr ⟨rfl, (Option.some.inj found).symm⟩

private theorem Distinct.of_concat (distinct : Distinct env (blocks ++ [block])) :
    Distinct env blocks := by
  rw [Distinct, List.map_append] at distinct
  exact (List.nodup_append.mp distinct).1

private theorem Window.step (window : Window env blocks c)
    (distinct : Distinct env (blocks ++ [block])) (heights : (blocks ++ [block]).length ≤ 2 ^ 64)
    (connected : connectBest env o block blocks.length work c = (.ok (), c')) :
    Window env (blocks ++ [block]) c' := by
  obtain ⟨hash, acc, state, ops, hashed, applied, pruning, db, memory, best⟩ :=
    connectBest_cases connected
  have pruned := pruneBest_cases window pruning
  have length : (blocks ++ [block]).length = blocks.length + 1 := by simp
  have atLast : (blocks ++ [block])[blocks.length]? = some block := by simp
  refine ⟨?_, ?_, ?_, ?_, ?_⟩
  · intro _
    rw [best, length]
  · intro b member
    rcases List.mem_append.mp member with before | last
    · exact window.hashed b before
    · obtain rfl := List.mem_singleton.mp last
      exact ⟨hash, hashed⟩
  · intro k b found kept
    rw [length, kept_succ] at kept
    rw [memory, pruned.lookup k kept.2]
    rcases getElem?_concat_cases found with ⟨inside, before⟩ | ⟨rfl, rfl⟩
    · rw [Finmap.lookup_insert_of_ne _ (by omega)]
      exact window.memory k b before kept.1
    · exact Finmap.lookup_insert _
  · intro k b h found hashedB
    have bound : k < (blocks ++ [block]).length := (List.getElem?_eq_some_iff.mp found).1
    rw [db, get_bestDb applied (Or.inl ⟨k, rfl⟩),
      get_saveOps_height _ block hash (by omega) (by omega), pruned.get_height]
    rcases getElem?_concat_cases found with ⟨inside, before⟩ | ⟨rfl, rfl⟩
    · rw [if_neg (by omega)]
      exact window.heights k b h before hashedB
    · rw [if_pos rfl, Except.ok.inj (hashed.symm.trans hashedB)]
  · intro k b h found hashedB
    rw [db, get_bestDb applied (Or.inr ⟨_, rfl⟩), get_saveOps_body, length]
    rcases getElem?_concat_cases found with ⟨inside, before⟩ | ⟨rfl, rfl⟩
    · have other : h ≠ hash := by
        rintro rfl
        exact absurd (distinct.eq_of_hash found atLast (hashedB.trans hashed.symm)) (by omega)
      rw [if_neg other, pruned.get_body distinct.of_concat before hashedB,
        window.bodies k b h before hashedB]
      by_cases survives : pruneDepth < blocks.length → k ≠ blocks.length - pruneDepth
      · have unchanged : Kept (blocks.length + 1) k ↔ Kept blocks.length k :=
          kept_succ.trans (and_iff_left survives)
        rw [if_pos survives]
        exact if_congr unchanged.symm rfl rfl
      · rw [if_neg survives, if_neg (by rw [kept_succ]; exact fun kept => survives kept.2)]
    · have kept : Kept (blocks.length + 1) blocks.length := Or.inr (by
        have positive : 0 < pruneDepth := by decide
        omega)
      rw [if_pos (Except.ok.inj (hashedB.symm.trans hashed)), if_pos kept]

private theorem BestRun.window (run : BestRun env blocks c) (distinct : Distinct env blocks)
    (heights : blocks.length ≤ 2 ^ 64) : Window env blocks c := by
  induction run with
  | start c => exact ⟨by simp, by simp, by simp, by simp, by simp⟩
  | @connect blocks c c' before o block work connected ih =>
      have earlier := ih distinct.of_concat (by simp at heights; omega)
      exact earlier.step distinct heights connected

private theorem Window.entries (window : Window env blocks c) (inside : k < blocks.length) :
    ∃ hash : Hash, get c.db .default (heightKey k) = some hash.toList ∧
      get c.db .default (blockKey hash.toList) =
        if Kept blocks.length k then some (blockCodec.encode blocks[k]) else none := by
  have found : blocks[k]? = some blocks[k] := List.getElem?_eq_getElem inside
  obtain ⟨hash, hashed⟩ := window.hashed _ (List.getElem_mem inside)
  exact ⟨hash, window.heights k _ hash found hashed, window.bodies k _ hash found hashed⟩

private theorem Window.bodyStored_iff (window : Window env blocks c) (inside : k < blocks.length) :
    BodyStored c.db k ↔ Kept blocks.length k := by
  obtain ⟨hash, height, body⟩ := window.entries inside
  constructor
  · rintro ⟨h, atHeight, stored⟩
    obtain rfl := Option.some.inj (height.symm.trans atHeight)
    by_contra gone
    rw [body, if_neg gone] at stored
    exact absurd stored (by simp)
  · intro kept
    exact ⟨hash.toList, height, by rw [body, if_pos kept]; rfl⟩

private theorem Window.loadHeight_pruned (window : Window env blocks c) {start : Nat}
    (inside : k < blocks.length) (gone : ¬ Kept blocks.length k) (whole : start ≤ k)
    (s : ChainState × Nat) : loadHeight c.db start k s = fail (.anyhow "Missing block") := by
  obtain ⟨hash, height, body⟩ := window.entries inside
  rw [if_neg gone] at body
  have missing : loadBlockFromDb c.db k = fail (.anyhow "Missing block") := by
    unfold loadBlockFromDb
    rw [height]
    change (orFail _ (get c.db .default (blockKey hash.toList)) >>= _) = _
    rw [body]
    rfl
  unfold loadHeight
  rw [height]
  change (copyHash hash.toList >>= _) = _
  rw [copyHash, hashOfBytes_toList]
  change (loadBody c.db start k s.1 >>= _) = _
  rw [loadBody, if_pos whole, missing]
  rfl

end Run

/-- At each best height of a run the heights that loading reads whole all have their bodies
exactly up to the pruning depth. From then on the lowest of them is the one just pruned. -/
theorem window_stored_iff (env : Env) (blocks : List Block) (c : Chain)
    (run : BestRun env blocks c) (started : blocks ≠ []) (distinct : Distinct env blocks)
    (heights : blocks.length ≤ 2 ^ 64) :
    (∀ k, c.bestHeight - pruneDepth ≤ k → k ≤ c.bestHeight → BodyStored c.db k) ↔
      c.bestHeight ≤ pruneDepth := by
  have window := run.window distinct heights
  have best := window.best started
  constructor
  · intro stored
    have lowest := stored (c.bestHeight - pruneDepth) (le_refl _) (Nat.sub_le _ _)
    rw [window.bodyStored_iff (by omega), Kept] at lowest
    omega
  · intro low k _ bound
    rw [window.bodyStored_iff (by omega), Kept]
    omega

section Sample

def numberHash (k : Nat) : Hash := ⟨(beBytes 32 k).toArray, by simp⟩

def numberedEnv : Env := { sampleEnv with powHash := fun bs => hashOfBytes ((bs.drop 4).take 32) }

def numberedBlock (k : Nat) : Block :=
  ⟨{ genesisHeader sampleEnv [7] 0 with prevHash := numberHash k }, []⟩

def numberedBlocks (count : Nat) : List Block := (List.range count).map numberedBlock

private theorem headerHash_numberedEnv (header : BlockHeader) :
    headerHash numberedEnv header = .ok header.prevHash := by
  have field : ((headerCodec.encode header).drop 4).take 32 = header.prevHash.toList := by
    simp only [headerCodec, Codec.encode_iso, Codec.encode_pair]
    rw [List.drop_left' (Codec.length_encode_u32 _), List.take_left' (length_encode_hash _)]
    rfl
  simp only [headerHash, numberedEnv, field, hashOfBytes_toList]
  rfl

private theorem distinct_numbered {count : Nat} (bound : count ≤ 2 ^ 64) :
    Distinct numberedEnv (numberedBlocks count) := by
  simp only [Distinct, numberedBlocks, List.map_map]
  refine List.Nodup.map_on ?_ List.nodup_range
  intro i inI j inJ same
  simp only [Function.comp_apply, headerHash_numberedEnv, numberedBlock, Except.ok.injEq,
    numberHash, Vector.mk.injEq] at same
  have bytes : beBytes 32 i = beBytes 32 j := by simpa using congrArg Array.toList same
  simp only [List.mem_range] at inI inJ
  exact beBytes_injective (by norm_num; omega) (by norm_num; omega) bytes

private theorem exists_pruneBest (height : Nat) (state : ChainState) :
    ∃ r, pruneBest numberedEnv height state = .ok r := by
  unfold pruneBest prune
  split
  · cases state.blocks.lookup (height - pruneDepth) with
    | none => exact ⟨_, rfl⟩
    | some block => exact ⟨_, by simp only [headerHash_numberedEnv]; rfl⟩
  · exact ⟨_, rfl⟩

private theorem exists_numbered_run (count : Nat) :
    ∃ c, BestRun numberedEnv (numberedBlocks count) c ∧ c.batchPending = false ∧
      c.readOnlyMode = false := by
  induction count with
  | zero => exact ⟨⟨emptyDb, emptyState, zeroHash, 0, [], zeroHash, false, false, 0, []⟩, .start _,
      rfl, rfl⟩
  | succ count ih =>
      obtain ⟨c, run, idle, writable⟩ := ih
      have length : (numberedBlocks count).length = count := by simp [numberedBlocks]
      have blocks : numberedBlocks (count + 1) = numberedBlocks count ++ [numberedBlock count] := by
        simp [numberedBlocks, List.range_succ]
      obtain ⟨acc, applied, -⟩ : ∃ acc, applyUtxoChanges numberedEnv c.db c.state.utxoSetHash
          c.state.totalSupply (numberedBlock count) count true [] = .ok acc ∧ _ :=
        applyUtxoChanges_of_run _ _ _ _ (by simp [numberedBlock]) rfl
      obtain ⟨⟨state, ops⟩, pruned⟩ := exists_pruneBest count
        (bestState numberedEnv (numberedBlock count) count 0 (numberHash count) acc c)
      obtain ⟨c', connected, idle', writable'⟩ : ∃ c', connectBest numberedEnv
          (sampleWorld.outside 0) (numberedBlock count) count 0 c = (.ok (), c') ∧
            c'.batchPending = false ∧ c'.readOnlyMode = false :=
        ⟨_, connectBest_of_idle idle writable (headerHash_numberedEnv _) applied rfl rfl pruned,
          rfl, writable⟩
      rw [blocks]
      exact ⟨c', .connect run _ _ 0 (by rw [length]; exact connected), idle', writable'⟩

/-- One block past the pruning depth, loading stops at the height that was just pruned. -/
theorem pruned_height_not_loaded :
    ∃ c, BestRun numberedEnv (numberedBlocks (pruneDepth + 2)) c ∧
      Distinct numberedEnv (numberedBlocks (pruneDepth + 2)) ∧ c.bestHeight = pruneDepth + 1 ∧
      ¬ BodyStored c.db (c.bestHeight - pruneDepth) ∧
      ∀ s, loadHeight c.db (c.bestHeight - pruneDepth) (c.bestHeight - pruneDepth) s =
        fail (.anyhow "Missing block") := by
  obtain ⟨c, run, -⟩ := exists_numbered_run (pruneDepth + 2)
  have distinct : Distinct numberedEnv (numberedBlocks (pruneDepth + 2)) :=
    distinct_numbered (by decide)
  have length : (numberedBlocks (pruneDepth + 2)).length = pruneDepth + 2 := by
    simp [numberedBlocks]
  have window := run.window distinct (by rw [length]; decide)
  have best : c.bestHeight = pruneDepth + 1 := by
    have counted := window.best (List.ne_nil_of_length_pos (by omega))
    omega
  have lowest : c.bestHeight - pruneDepth = 1 := by omega
  have gone : ¬ Kept (numberedBlocks (pruneDepth + 2)).length 1 := by
    rw [length, Kept]
    omega
  refine ⟨c, run, distinct, best, ?_, ?_⟩
  · rwa [lowest, window.bodyStored_iff (by omega)]
  · rw [lowest]
    exact window.loadHeight_pruned (by omega) gone (le_refl 1)

theorem first_blocks_loaded :
    ∃ c, BestRun numberedEnv (numberedBlocks 3) c ∧
      ∀ k, c.bestHeight - pruneDepth ≤ k → k ≤ c.bestHeight → BodyStored c.db k := by
  obtain ⟨c, run, -⟩ := exists_numbered_run 3
  have distinct : Distinct numberedEnv (numberedBlocks 3) := distinct_numbered (by decide)
  have best : c.bestHeight + 1 = 3 := (run.window distinct (by decide)).best (by decide)
  have low : c.bestHeight ≤ pruneDepth := by
    have deep : 3 ≤ pruneDepth := by decide
    omega
  exact ⟨c, run, (window_stored_iff numberedEnv (numberedBlocks 3) c run (by decide) distinct
    (by decide)).mpr low⟩

end Sample

end Lyrion.Node
