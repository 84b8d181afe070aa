/- GID: Lyrion/Node/Chain
   digest: The node state, connecting blocks, add_block with its orphan loop, and start-up. -/

import Lyrion.Node.Utxo
import Lyrion.Node.Validate

set_option autoImplicit false
set_option relaxedAutoImplicit false

namespace Lyrion.Node

open Library.ByteCodec Library.KeyValue Data Utils Tx

structure ChainState where
  blocks : Map Nat Block
  heightToHash : Map Nat Hash
  hashToHeight : Map Hash Nat
  cumulativeWork : Map Nat Nat
  timestamps : List UInt32
  utxoSetHash : Hash
  totalSupply : UInt64

/-- A block waiting for its parent, with the time it was filed. -/
structure Orphan where
  hash : Hash
  block : Block
  time : Nat

/-- The node. `tick` counts the steps taken, so that each step gets its own answers from
outside; `saved` is the log that `save_block` writes, one line for each accepted block. -/
structure Chain where
  db : Db
  state : ChainState
  bestTip : Hash
  bestHeight : Nat
  orphanBlocks : List Orphan
  genesisHash : Hash
  batchPending : Bool
  readOnlyMode : Bool
  tick : Nat
  saved : List (Nat × Block)

/-- What the clock and the database answer during one step. A write that fails changes
nothing; `rollbackWrite` says whether one of the three rollback attempts goes through. -/
structure Outside where
  nowMs : Option Nat
  journalMs : Option Nat
  instant : Nat
  journalPut : Bool
  reorgWrite : Bool
  journalDelete : Bool
  actionWrite : Bool
  rollbackWrite : Bool
  saveWrite : Bool

/-- The outside world of a run: the answers at each step, and the order in which a hash map
hands out its entries. -/
structure World where
  outside : Nat → Outside
  drainOrder : Nat → List Orphan → List Orphan
  drain_perm : ∀ tick pool, (drainOrder tick pool).Perm pool

inductive BlockAction
  | connect
  | disconnect
  deriving DecidableEq

variable (env : Env) (world : World)

def connectIndexOps (block : Block) (height : Nat) : DbBatch :=
  putCf .default (headerKey height) (headerCodec.encode block.header) ::
    block.txs.zipIdx.map fun p =>
      putCf .txIndex (txHash env p.1).toList
        ((Codec.u64.pair Codec.u64).encode (UInt64.ofNat height, UInt64.ofNat p.2))

def disconnectIndexOps (block : Block) : DbBatch :=
  block.txs.map fun tx => deleteCf .txIndex (txHash env tx).toList

def indexOps (action : BlockAction) (block : Block) (height : Nat) : DbBatch :=
  match action with
  | .connect => connectIndexOps env block height
  | .disconnect => disconnectIndexOps env block

/-- `prune`: forget the block body in memory and ask for its deletion. -/
def prune (height : Nat) (state : ChainState) : Result (ChainState × DbBatch) :=
  match state.blocks.lookup height with
  | none => .ok (state, [])
  | some block => do
      let hash ← headerHash env block.header
      let addrOps := (block.txs.filter fun tx => !tx.isAnonymous).flatMap fun tx =>
        tx.outputs.zipIdx.map fun p =>
          deleteCf .addrIndex (addrKey (env.hash160 p.1.scriptPubkey) (txHash env tx)
            (UInt32.ofNat p.2))
      pure ({ state with blocks := state.blocks.erase height },
        deleteCf .default (blockKey hash.toList) :: addrOps)

def rollbackBatch (ops : List (Family × Bytes × Option Bytes)) : DbBatch :=
  ops.reverse.map fun op =>
    match op.2.2 with
    | some value => putCf op.1 op.2.1 value
    | none => deleteCf op.1 op.2.1

/-- The in-memory half of a block action, taken over only after the database write. -/
def ChainState.applyChanges (s : ChainState) (block : Block) (height : Nat) (hash : Hash)
    (action : BlockAction) (work : Nat) (setHash : Hash) (supply : UInt64) : ChainState where
  blocks := s.blocks.insert height block
  heightToHash := s.heightToHash.insert height hash
  hashToHeight := s.hashToHeight.insert hash height
  cumulativeWork := s.cumulativeWork.insert height
    ((s.cumulativeWork.lookup (usizeSub height 1)).getD 0 + work)
  timestamps :=
    match action with
    | .connect =>
        let pushed := s.timestamps ++ [block.header.timestamp]
        if pushed.length > 11 then pushed.tail else pushed
    | .disconnect => s.timestamps.dropLast
  utxoSetHash := setHash
  totalSupply := supply

/-- `state_lock.lock().await` and what follows it; `held` says that the call chain has the lock
already. -/
class StateLock (m : Type → Type) where
  lock {α : Type} (held : Bool) (body : m α) : m α

instance : StateLock Id := ⟨fun _ body => body⟩

instance : StateLock Option := ⟨fun held body => if held then none else body⟩

section Aside

variable {α β : Type}

@[simp] theorem lock_aside (held : Bool) (body : Id α) : StateLock.lock held body = body := rfl

@[simp] theorem pure_aside (a : α) : (pure a : Id α) = a := rfl

@[simp] theorem bind_aside (a : Id α) (f : α → Id β) : (a >>= f) = f a := rfl

end Aside

namespace Locking

/-! The functions that take `state_lock`, and those through which they call one another. -/

variable {m : Type → Type} [Monad m] [StateLock m]

def prune (held : Bool) (height : Nat) (state : ChainState) : m (Result (ChainState × DbBatch)) :=
  StateLock.lock held (pure (Node.prune env height state))

/-- `apply_block_action`. The returned batch is the caller's batch as the call leaves it,
with the deletions `prune` asks for; no caller writes it again. -/
def applyBlockAction (held : Bool) (o : Outside) (block : Block) (height : Nat)
    (action : BlockAction) (isBest : Bool) (work : Nat) (batch : DbBatch) (c : Chain) :
    m (Result DbBatch × Chain) :=
  StateLock.lock held <|
    if c.batchPending then pure (fail (.anyhow "Batch pending, cannot apply action"), c)
    else if c.readOnlyMode ∧ action = .connect then
      pure (fail (.anyhow "Chain in read-only mode due to previous failure"), c)
    else
      let c := { c with batchPending := true }
      match headerHash env block.header with
      | .error e => pure (.error e, c)
      | .ok hash =>
        match applyUtxoChanges env c.db c.state.utxoSetHash c.state.totalSupply block height
            (action = .connect) batch with
        | .error e => pure (.error e, c)
        | .ok acc =>
            let supply := match action with
              | .connect => env.loadSupplyFromDb c.db + subsidy height
              | .disconnect => env.loadSupplyFromDb c.db - subsidy height
            let batch := acc.batch ++ indexOps env action block height ++
              [putCf .default stateTotalSupplyKey (leBytes 8 supply.toNat)]
            if !o.actionWrite then
              pure (fail (.anyhow "Write error"),
                if o.rollbackWrite then
                  { c with db := write c.db (rollbackBatch acc.rollbackOps) }
                else { c with readOnlyMode := true })
            else
              let c := { c with
                db := write c.db batch
                state := c.state.applyChanges block height hash action work acc.setHash supply }
              if action = .connect ∧ isBest then
                let c := { c with bestTip := hash, bestHeight := height }
                if height > pruneDepth then do
                  -- the lock of this call is still there
                  match ← prune env true (height - pruneDepth) c.state with
                  | .error e => pure (.error e, c)
                  | .ok (state, ops) =>
                      pure (.ok (batch ++ ops), { c with state := state, batchPending := false })
                else pure (.ok batch, { c with batchPending := false })
              else pure (.ok batch, { c with batchPending := false })

end Locking

def applyBlockAction (o : Outside) (block : Block) (height : Nat) (action : BlockAction)
    (isBest : Bool) (work : Nat) (batch : DbBatch) (c : Chain) : Result DbBatch × Chain :=
  Locking.applyBlockAction (m := Id) env false o block height action isBest work batch c

/-- `build_block_ops`: the database half of a block action. The state changes it collects are
dropped, and the set hash and supply are read from memory each time. -/
def buildBlockOps (db : Db) (setHash : Hash) (supply : UInt64) (block : Block) (height : Nat)
    (action : BlockAction) (batch : DbBatch) : Result DbBatch := do
  let _ ← headerHash env block.header
  let acc ← applyUtxoChanges env db setHash supply block height (action = .connect) batch
  pure (acc.batch ++ indexOps env action block height ++
    [putCf .default utxoSetHashKey acc.setHash.toList,
     putCf .default totalSupplyKey (beBytes 8 acc.supply.toNat)])

/-- The disconnects of a reorganisation, from height `prevHeight + depth` down, all against
one database. -/
def disconnectOps (db : Db) (setHash : Hash) (supply : UInt64) (prevHeight : Nat) :
    Nat → DbBatch → Result DbBatch
  | 0, batch => .ok batch
  | depth + 1, batch => do
      let blk ← loadBlockFromDb db (prevHeight + depth + 1)
      let batch ← buildBlockOps env db setHash supply blk (prevHeight + depth + 1) .disconnect batch
      disconnectOps db setHash supply prevHeight depth batch

def reorgBatch (db : Db) (setHash : Hash) (supply : UInt64) (prevHeight depth : Nat)
    (block : Block) : Result DbBatch := do
  let batch ← disconnectOps env db setHash supply prevHeight depth []
  buildBlockOps env db setHash supply block (prevHeight + 1) .connect batch

def decimal : Nat → Nat → Bytes → Bytes
  | 0, _, digits => digits
  | fuel + 1, n, digits =>
      if n < 10 then UInt8.ofNat (48 + n) :: digits
      else decimal fuel (n / 10) (UInt8.ofNat (48 + n % 10) :: digits)

def journalIdOf (nowMs : Nat) : Bytes := decimal (nowMs + 1) nowMs []

/-- The heavier-block path of `add_block`: journal, one batch, and the best height. -/
def reorganise (o : Outside) (block : Block) (prevHeight : Nat) (c : Chain) :
    Result Unit × Chain :=
  match o.journalMs with
  | none => (fail .invalidTimestamp, c)
  | some now =>
      let id := journalIdOf now
      let journal : ReorgJournal := ⟨id, UInt64.ofNat c.bestHeight, c.bestTip,
        UInt64.ofNat (usizeSub c.bestHeight prevHeight), block⟩
      if !o.journalPut then (fail (.anyhow "Write error"), c)
      else
        let c := { c with
          db := write c.db [putCf .default (reorgKey id) (reorgJournalCodec.encode journal)] }
        match reorgBatch env c.db c.state.utxoSetHash c.state.totalSupply prevHeight
            (c.bestHeight - prevHeight) block with
        | .error e => (.error e, c)
        | .ok batch =>
            if !o.reorgWrite then (fail (.anyhow "Write error"), c)
            else
              let c := { c with db := write c.db batch }
              if !o.journalDelete then (fail (.anyhow "Write error"), c)
              else
                (.ok (), { c with
                  db := write c.db [deleteCf .default (reorgKey id)]
                  bestHeight := prevHeight + 1 })

def saveOps (height : Nat) (block : Block) (hash : Hash) : DbBatch :=
  [putCf .default (blockKey hash.toList) (blockCodec.encode block),
   putCf .default (heightKey height) hash.toList,
   putCf .default tipKey hash.toList,
   putCf .default bestHeightKey (beBytes 4 height)]

def saveBlock (o : Outside) (height : Nat) (block : Block) (c : Chain) : Result Unit × Chain :=
  match headerHash env block.header with
  | .error e => (.error e, c)
  | .ok hash =>
      if !o.saveWrite then (fail (.anyhow "Write error"), c)
      else
        (.ok (), { c with
          db := write c.db (saveOps height block hash)
          saved := (height, block) :: c.saved })

def insertOrphan (pool : List Orphan) (entry : Orphan) : List Orphan :=
  pool.filter (fun x => x.hash ≠ entry.hash) ++ [entry]

def oldest : List Orphan → Option Orphan
  | [] => none
  | x :: rest =>
      match oldest rest with
      | none => some x
      | some y => if x.time ≤ y.time then some x else some y

def trimOrphans (tick : Nat) (pool : List Orphan) : List Orphan :=
  if pool.length > 500 then
    match oldest (world.drainOrder tick pool) with
    | some victim => pool.filter fun x => x.hash ≠ victim.hash
    | none => pool
  else pool

inductive Submitted
  | known
  | orphan
  | accepted (height : Nat) (reorg : Bool)
  deriving DecidableEq

/-- The end of `add_block` for a connected block: `save_block`. -/
def finish (o : Outside) (block : Block) (height : Nat) (reorg : Bool) :
    Result Unit × Chain → Result Submitted × Chain
  | (.error e, c) => (.error e, c)
  | (.ok (), c) =>
      match saveBlock env o height block c with
      | (.error e, c) => (.error e, c)
      | (.ok (), c) => (.ok (.accepted height reorg), c)

/-- `validate_state`: the stored supply against the one in memory. -/
def validateState (c : Chain) : Result Unit :=
  match get c.db .default totalSupplyKey with
  | none => .ok ()
  | some bytes =>
      if bytes.length ≠ 8 then fail (.anyhow "try_into")
      else if UInt64.ofNat (ofBeBytes bytes) ≠ c.state.totalSupply then fail .supplyMismatch
      else .ok ()

namespace Locking

variable {m : Type → Type} [Monad m] [StateLock m]

/-- `add_block` for a block whose parent has the height `prevHeight`. -/
def connectNew (held : Bool) (o : Outside) (block : Block) (prevHeight : Nat) (c : Chain) :
    m (Result Submitted × Chain) :=
  match validateBlock env c.db c.bestHeight o.nowMs block (prevHeight + 1) with
  | .error e => pure (.error e, c)
  | .ok () =>
      match compactToTarget block.header.bits with
      | .error e => pure (.error e, c)
      | .ok target =>
          let newWork := (c.state.cumulativeWork.lookup prevHeight).getD 0 + blockWork target
          let currentWork := (c.state.cumulativeWork.lookup c.bestHeight).getD 0
          if newWork > currentWork then
            if c.bestHeight - prevHeight > reorgMaxDepth then pure (fail .reorgTooDeep, c)
            else if newWork ≤ currentWork * 99 / 100 then pure (fail .reorgTooDeep, c)
            else
              pure (finish env o block (prevHeight + 1) true (reorganise env o block prevHeight c))
          else do
            let r ← applyBlockAction env held o block (prevHeight + 1) .connect false
              (blockWork target) [] c
            pure (finish env o block (prevHeight + 1) false (r.1.map fun _ => (), r.2))

/-- `add_block` up to the orphan loop, under its lock if `held` says so. -/
def submit (held : Bool) (block : Block) (c : Chain) : m (Result Submitted × Chain) :=
  let o := world.outside c.tick
  let c := { c with tick := c.tick + 1 }
  match headerHash env block.header with
  | .error e => pure (.error e, c)
  | .ok hash =>
      if hash ∈ c.state.hashToHeight then pure (.ok .known, c)
      else
        match c.state.hashToHeight.lookup block.header.prevHash with
        | none =>
            let pool := insertOrphan c.orphanBlocks ⟨hash, block, o.instant⟩
            pure (.ok .orphan, { c with orphanBlocks := trimOrphans world c.tick pool })
        | some prevHeight => connectNew env held o block prevHeight c

/-- `add_block` on top of a given orphan loop. It keeps its lock to the end, also while that loop
runs. -/
def addBlockWith (orphans : Bool → Chain → m (Result Unit × Chain)) (held : Bool) (block : Block)
    (c : Chain) : m (Result Bool × Chain) :=
  StateLock.lock held do
    match ← submit env world true block c with
    | (.error e, c) => pure (.error e, c)
    | (.ok (.accepted height reorg), c) =>
        match ← orphans true c with
        | (.error e, c) => pure (.error e, c)
        | (.ok (), c) =>
            if height % 1000 = 0 then pure ((validateState c).map fun _ => reorg, c)
            else pure (.ok reorg, c)
    | (.ok _, c) => pure (.ok false, c)

/-- One round over the drained blocks: those not added are kept for the next round. -/
def orphanRound (add : Block → Chain → m (Result Bool × Chain)) :
    List Orphan → Bool → List Orphan → Chain → m (Result (Bool × List Orphan) × Chain)
  | [], added, next, c => pure (.ok (added, next), c)
  | x :: rest, added, next, c => do
      match ← add x.block c with
      | (.error e, c) => pure (.error e, c)
      | (.ok true, c) => orphanRound add rest true next c
      | (.ok false, c) => orphanRound add rest added (next ++ [x]) c

/-- At most `depth` rounds, until a round adds nothing and so keeps the whole list. -/
def orphanRounds (add : Block → Chain → m (Result Bool × Chain)) :
    Nat → List Orphan → Chain → m (Result (List Orphan) × Chain)
  | 0, pending, c => pure (.ok pending, c)
  | depth + 1, pending, c =>
      if pending.isEmpty then pure (.ok pending, c)
      else do
        match ← orphanRound add pending false [] c with
        | (.error e, c) => pure (.error e, c)
        | (.ok (false, next), c) => pure (.ok next, c)
        | (.ok (true, next), c) => orphanRounds add depth next c

/-- `process_orphans`, with a bound on how deep it may be re-entered. -/
def processOrphans : Nat → Bool → Chain → m (Result Unit × Chain)
  | 0, _, c => pure (.error .outOfFuel, c)
  | fuel + 1, held, c => do
      let now := (world.outside c.tick).instant
      let c := { c with tick := c.tick + 1 }
      let fresh := c.orphanBlocks.filter fun x => now - x.time < orphanTtl
      let pool := world.drainOrder c.tick (trimOrphans world c.tick fresh)
      let c := { c with orphanBlocks := [] }
      match ← orphanRounds (addBlockWith env world (processOrphans fuel) held) 500 pool c with
      | (.error e, c) => pure (.error e, c)
      | (.ok left, c) =>
          let time := (world.outside c.tick).instant
          pure (.ok (), { c with
            tick := c.tick + 1
            orphanBlocks := left.foldl
              (fun pool x => insertOrphan pool { x with time := time }) c.orphanBlocks })

/-- `add_block`, called without the lock. Each re-entry of the orphan loop finds a smaller pool, so
the pool size bounds the depth. -/
def addBlock (block : Block) (c : Chain) : m (Result Bool × Chain) :=
  addBlockWith env world (processOrphans env world (c.orphanBlocks.length + 2)) false block c

end Locking

/-! The same calls with the lock set aside. -/

def connectNew (o : Outside) (block : Block) (prevHeight : Nat) (c : Chain) :
    Result Submitted × Chain :=
  Locking.connectNew (m := Id) env false o block prevHeight c

def submit (block : Block) (c : Chain) : Result Submitted × Chain :=
  Locking.submit (m := Id) env world false block c

def addBlockWith (orphans : Chain → Result Unit × Chain) (block : Block) (c : Chain) :
    Result Bool × Chain :=
  Locking.addBlockWith (m := Id) env world (fun _ => orphans) false block c

def orphanRound (add : Block → Chain → Result Bool × Chain) (pending : List Orphan) (added : Bool)
    (next : List Orphan) (c : Chain) : Result (Bool × List Orphan) × Chain :=
  Locking.orphanRound (m := Id) add pending added next c

def orphanRounds (add : Block → Chain → Result Bool × Chain) (depth : Nat)
    (pending : List Orphan) (c : Chain) : Result (List Orphan) × Chain :=
  Locking.orphanRounds (m := Id) add depth pending c

def processOrphans (fuel : Nat) (c : Chain) : Result Unit × Chain :=
  Locking.processOrphans (m := Id) env world fuel false c

def addBlock (block : Block) (c : Chain) : Result Bool × Chain :=
  addBlockWith env world (processOrphans env world (c.orphanBlocks.length + 2)) block c

theorem addBlockWith_eq (orphans : Chain → Result Unit × Chain) (block : Block) (c : Chain) :
    addBlockWith env world orphans block c =
      match submit env world block c with
      | (.error e, c) => (.error e, c)
      | (.ok (.accepted height reorg), c) =>
          match orphans c with
          | (.error e, c) => (.error e, c)
          | (.ok (), c) =>
              if height % 1000 = 0 then ((validateState c).map fun _ => reorg, c)
              else (.ok reorg, c)
      | (.ok _, c) => (.ok false, c) :=
  rfl

theorem applyBlockAction_aside (held : Bool) (o : Outside) (block : Block) (height : Nat)
    (action : BlockAction) (isBest : Bool) (work : Nat) (batch : DbBatch) (c : Chain) :
    Locking.applyBlockAction (m := Id) env held o block height action isBest work batch c =
      applyBlockAction env o block height action isBest work batch c :=
  rfl

section Rounds

variable (add : Block → Chain → Result Bool × Chain)

theorem orphanRound_cons (x : Orphan) (rest : List Orphan) (added : Bool) (next : List Orphan)
    (c : Chain) :
    orphanRound add (x :: rest) added next c =
      match add x.block c with
      | (.error e, c) => (.error e, c)
      | (.ok true, c) => orphanRound add rest true next c
      | (.ok false, c) => orphanRound add rest added (next ++ [x]) c :=
  rfl

theorem orphanRounds_succ (depth : Nat) (pending : List Orphan) (c : Chain) :
    orphanRounds add (depth + 1) pending c =
      if pending.isEmpty then (.ok pending, c)
      else
        match orphanRound add pending false [] c with
        | (.error e, c) => (.error e, c)
        | (.ok (false, next), c) => (.ok next, c)
        | (.ok (true, next), c) => orphanRounds add depth next c :=
  rfl

end Rounds

/-- The loop of `get_headers` over so many heights from a given one on. -/
def headersFrom (db : Db) (stop : Hash) :
    Nat → Nat → List BlockHeader → Result (List BlockHeader)
  | 0, _, headers => .ok headers
  | count + 1, height, headers =>
      if headers.length ≥ 2000 then .ok headers
      else do
        let header ← loadHeader db height
        let hash ← headerHash env header
        if hash = stop then pure (headers ++ [header])
        else headersFrom db stop count (height + 1) (headers ++ [header])

/-- `get_headers`: what follows the locator, up to the best height or the stop. -/
def getHeaders (c : Chain) (locator stop : Hash) : Result (List BlockHeader) :=
  match c.state.hashToHeight.lookup locator with
  | none => .ok []
  | some height => headersFrom env c.db stop (c.bestHeight - height) (height + 1) []

def emptyState : ChainState := ⟨∅, ∅, ∅, ∅, [], zeroHash, 0⟩

def Chain.new (db : Db) (genesis : Block) : Result Chain × Db :=
  match headerHash env genesis.header, compactToTarget genesis.header.bits with
  | .error e, _ => (.error e, db)
  | _, .error e => (.error e, db)
  | .ok hash, .ok target =>
      let c : Chain := ⟨db, emptyState, zeroHash, 0, [], hash, false, false, 1, []⟩
      match applyBlockAction env (world.outside 0) genesis 0 .connect true (blockWork target) []
          c with
      | (.error e, c) => (.error e, c.db)
      | (.ok _, c) => (.ok c, c.db)

end Lyrion.Node
