/- GID: Lyrion/Node/Steps
   digest: What one submission can do, and the invariant rule for add_block and its orphan loop. -/

import Lyrion.Library.Runs
import Lyrion.Node.Chain
import Lyrion.Node.Effects

set_option autoImplicit false
set_option relaxedAutoImplicit false

namespace Lyrion.Node

open Library.ByteCodec Library.KeyValue Library.Runs Data Utils Tx

variable {x : Orphan} {pool : List Orphan} {add : Block → Chain → Result Bool × Chain}

section Submission

variable (env : Env) (world : World) (block : Block) (c : Chain)

/-- The four ways a submission goes; only the last one looks at the block's content. -/
inductive SubmitCase : Result Submitted × Chain → Prop
  | unhashed (e : Fault) (failed : headerHash env block.header = .error e) :
      SubmitCase (.error e, { c with tick := c.tick + 1 })
  | known (hash : Hash) (hashed : headerHash env block.header = .ok hash)
      (there : hash ∈ c.state.hashToHeight) :
      SubmitCase (.ok .known, { c with tick := c.tick + 1 })
  | orphan (hash : Hash) (hashed : headerHash env block.header = .ok hash)
      (fresh : hash ∉ c.state.hashToHeight)
      (lost : c.state.hashToHeight.lookup block.header.prevHash = none) :
      SubmitCase (.ok .orphan, { c with
        tick := c.tick + 1
        orphanBlocks := trimOrphans world (c.tick + 1)
          (insertOrphan c.orphanBlocks ⟨hash, block, (world.outside c.tick).instant⟩) })
  | child (hash : Hash) (hashed : headerHash env block.header = .ok hash)
      (fresh : hash ∉ c.state.hashToHeight) (prevHeight : Nat)
      (parent : c.state.hashToHeight.lookup block.header.prevHash = some prevHeight) :
      SubmitCase (connectNew env (world.outside c.tick) block prevHeight
        { c with tick := c.tick + 1 })

theorem submit_cases : SubmitCase env world block c (submit env world block c) := by
  unfold submit Locking.submit
  simp only [pure_aside]
  cases hashed : headerHash env block.header with
  | error e => exact .unhashed e hashed
  | ok hash =>
      by_cases there : hash ∈ c.state.hashToHeight
      · simp only [there, if_true]
        exact .known hash hashed there
      · simp only [there, if_false]
        cases parent : c.state.hashToHeight.lookup block.header.prevHash with
        | none => exact .orphan hash hashed there parent
        | some prevHeight => exact .child hash hashed there prevHeight parent

end Submission

section Pool

variable {env : Env} {world : World}

theorem mem_insertOrphan {entry : Orphan} (member : x ∈ insertOrphan pool entry) :
    x = entry ∨ x ∈ pool := by
  simp only [insertOrphan, List.mem_append, List.mem_filter, List.mem_singleton] at member
  rcases member with ⟨member, -⟩ | same
  · exact Or.inr member
  · exact Or.inl same

variable (world) in
theorem trimOrphans_sublist (tick : Nat) (pool : List Orphan) :
    (trimOrphans world tick pool).Sublist pool := by
  unfold trimOrphans
  split
  · split
    · exact List.filter_sublist
    · exact List.Sublist.refl _
  · exact List.Sublist.refl _

theorem mem_trimOrphans {tick : Nat} (member : x ∈ trimOrphans world tick pool) : x ∈ pool :=
  (trimOrphans_sublist world tick pool).subset member

end Pool

section Connection

variable (env : Env) (o : Outside) (block : Block) (c : Chain)

def headerWork (header : BlockHeader) : Nat :=
  match compactToTarget header.bits with
  | .ok target => blockWork target
  | .error _ => 0

/-- The work a block would bring to the chain that ends in its parent. -/
def newWork (prevHeight target : Nat) : Nat :=
  (c.state.cumulativeWork.lookup prevHeight).getD 0 + blockWork target

/-- The work on record for the best height, zero where there is no record. -/
def currentWork : Nat := (c.state.cumulativeWork.lookup c.bestHeight).getD 0

/-- A child of an indexed block is refused, reorganised to, or connected on the side. -/
inductive ConnectCase (prevHeight : Nat) : Result Submitted × Chain → Prop
  | refused (e : Fault) : ConnectCase prevHeight (.error e, c)
  | heavier (target : Nat)
      (valid : validateBlock env c.db c.bestHeight o.nowMs block (prevHeight + 1) = .ok ())
      (compact : compactToTarget block.header.bits = .ok target)
      (more : currentWork c < newWork c prevHeight target) :
      ConnectCase prevHeight
        (finish env o block (prevHeight + 1) true (reorganise env o block prevHeight c))
  | lighter (target : Nat)
      (valid : validateBlock env c.db c.bestHeight o.nowMs block (prevHeight + 1) = .ok ())
      (compact : compactToTarget block.header.bits = .ok target)
      (less : newWork c prevHeight target ≤ currentWork c) (r : Result DbBatch × Chain)
      (applied : r = applyBlockAction env o block (prevHeight + 1) .connect false
        (blockWork target) [] c) :
      ConnectCase prevHeight (finish env o block (prevHeight + 1) false (r.1.map fun _ => (), r.2))

theorem connectNew_cases (prevHeight : Nat) :
    ConnectCase env o block c prevHeight (connectNew env o block prevHeight c) := by
  unfold connectNew Locking.connectNew
  simp only [pure_aside, bind_aside]
  cases valid : validateBlock env c.db c.bestHeight o.nowMs block (prevHeight + 1) with
  | error e => exact .refused e
  | ok done =>
      cases compact : compactToTarget block.header.bits with
      | error e => exact .refused e
      | ok target =>
          simp only
          split
          · rename_i more
            split
            · exact .refused _
            · split
              · exact .refused _
              · exact .heavier target valid compact more
          · rename_i less
            exact .lighter target valid compact (Nat.not_lt.mp less) _ rfl

/-- How far a reorganisation gets, and what it has written by then. -/
inductive ReorgCase (prevHeight : Nat) : Result Unit × Chain → Prop
  | stopped (e : Fault) : ReorgCase prevHeight (.error e, c)
  | journalled (e : Fault) (id journal : Bytes) :
      ReorgCase prevHeight (.error e,
        { c with db := write c.db [putCf .default (reorgKey id) journal] })
  | written (e : Fault) (id journal : Bytes) (batch : DbBatch)
      (built : reorgBatch env (write c.db [putCf .default (reorgKey id) journal])
        c.state.utxoSetHash c.state.totalSupply prevHeight (c.bestHeight - prevHeight) block =
          .ok batch) :
      ReorgCase prevHeight (.error e,
        { c with db := write (write c.db [putCf .default (reorgKey id) journal]) batch })
  | done (id journal : Bytes) (batch : DbBatch)
      (built : reorgBatch env (write c.db [putCf .default (reorgKey id) journal])
        c.state.utxoSetHash c.state.totalSupply prevHeight (c.bestHeight - prevHeight) block =
          .ok batch) :
      ReorgCase prevHeight (.ok (),
        { c with
          db := write (write (write c.db [putCf .default (reorgKey id) journal]) batch)
            [deleteCf .default (reorgKey id)]
          bestHeight := prevHeight + 1 })

theorem reorganise_cases (prevHeight : Nat) :
    ReorgCase env block c prevHeight (reorganise env o block prevHeight c) := by
  unfold reorganise
  cases o.journalMs with
  | none => exact .stopped _
  | some now =>
      simp only
      split
      · exact .stopped _
      · split
        · exact .journalled _ _ _
        · rename_i batch built
          split
          · exact .journalled _ _ _
          · split
            · exact .written _ _ _ batch built
            · exact .done _ _ batch built

private theorem prune_state {height : Nat} {state pruned : ChainState} {ops : DbBatch}
    (done : prune env height state = .ok (pruned, ops)) :
    pruned = { state with blocks := pruned.blocks } := by
  unfold prune at done
  split at done
  · obtain ⟨rfl, -⟩ := Prod.mk.inj (Except.ok.inj done)
    rfl
  · simp only [bind_eq_ok, pure_eq_ok, Prod.mk.injEq] at done
    obtain ⟨-, -, rfl, -⟩ := done
    rfl

/-- The supply that `apply_block_action` takes over: the stored one and the subsidy. -/
def actionSupply (db : Db) (height : Nat) : BlockAction → UInt64
  | .connect => env.loadSupplyFromDb db + subsidy height
  | .disconnect => env.loadSupplyFromDb db - subsidy height

def actionBatch (height : Nat) (action : BlockAction) (acc : UtxoAcc) : DbBatch :=
  acc.batch ++ indexOps env action block height ++
    [putCf .default stateTotalSupplyKey (leBytes 8 (actionSupply env c.db height action).toNat)]

/-- How far a block action gets. A failure after the first lock check leaves the pending mark
behind; pruning after an applied action touches nothing but the block bodies in memory. -/
inductive ActionCase (height : Nat) (action : BlockAction) (isBest : Bool) (work : Nat)
    (batch : DbBatch) : Result DbBatch × Chain → Prop
  | locked (e : Fault) (closed : c.batchPending = true ∨ c.readOnlyMode = true) :
      ActionCase height action isBest work batch (.error e, c)
  | failed (e : Fault) :
      ActionCase height action isBest work batch (.error e, { c with batchPending := true })
  | rolledBack (e : Fault) (acc : UtxoAcc)
      (handled : applyUtxoChanges env c.db c.state.utxoSetHash c.state.totalSupply block height
        (action = .connect) batch = .ok acc) (unwritten : o.actionWrite = false) :
      ActionCase height action isBest work batch (.error e,
        { c with batchPending := true, db := write c.db (rollbackBatch acc.rollbackOps) })
  | frozen (e : Fault) :
      ActionCase height action isBest work batch (.error e,
        { c with batchPending := true, readOnlyMode := true })
  | applied (r : Result DbBatch) (hash : Hash) (hashed : headerHash env block.header = .ok hash)
      (acc : UtxoAcc)
      (handled : applyUtxoChanges env c.db c.state.utxoSetHash c.state.totalSupply block height
        (action = .connect) batch = .ok acc) (blocks : Map Nat Block) (pending : Bool) :
      ActionCase height action isBest work batch (r, { c with
        db := write c.db (actionBatch env block c height action acc)
        state := { c.state.applyChanges block height hash action work acc.setHash
          (actionSupply env c.db height action) with blocks := blocks }
        bestTip := if action = .connect ∧ isBest then hash else c.bestTip
        bestHeight := if action = .connect ∧ isBest then height else c.bestHeight
        batchPending := pending })

theorem applyBlockAction_cases (height : Nat) (action : BlockAction) (isBest : Bool) (work : Nat)
    (batch : DbBatch) :
    ActionCase env o block c height action isBest work batch
      (applyBlockAction env o block height action isBest work batch c) := by
  unfold applyBlockAction Locking.applyBlockAction
  simp only [lock_aside, pure_aside, bind_aside]
  by_cases pending : c.batchPending = true
  · rw [if_pos pending]
    exact .locked _ (Or.inl pending)
  · rw [if_neg pending]
    by_cases frozen : c.readOnlyMode = true ∧ action = .connect
    · rw [if_pos frozen]
      exact .locked _ (Or.inr frozen.1)
    · rw [if_neg frozen]
      cases hashed : headerHash env block.header with
      | error e => exact .failed e
      | ok hash =>
          simp only
          cases handled : applyUtxoChanges env c.db c.state.utxoSetHash c.state.totalSupply block
              height (action = .connect) batch with
          | error e => exact .failed e
          | ok acc =>
              have done (r : Result DbBatch) (blocks : Map Nat Block) (pending : Bool) :
                  ActionCase env o block c height action isBest work batch (r, _) :=
                .applied r hash hashed acc handled blocks pending
              simp only
              split
              · rename_i unwritten
                split
                · exact .rolledBack _ acc handled (by simpa using unwritten)
                · exact .frozen _
              · by_cases best : action = .connect ∧ isBest
                · simp only [if_pos best] at done ⊢
                  obtain ⟨rfl, -⟩ := best
                  split
                  · split
                    · exact done _ _ true
                    · rename_i state ops pruned
                      rw [prune_state env pruned]
                      exact done _ state.blocks false
                  · exact done _ _ false
                · simp only [if_neg best] at done ⊢
                  cases action with
                  | connect => exact done _ _ false
                  | disconnect => exact done _ _ false

inductive SaveCase (height : Nat) : Result Unit × Chain → Prop
  | unsaved (e : Fault) : SaveCase height (.error e, c)
  | saved (hash : Hash) (hashed : headerHash env block.header = .ok hash) :
      SaveCase height (.ok (), { c with
        db := write c.db (saveOps height block hash)
        saved := (height, block) :: c.saved })

theorem saveBlock_cases (height : Nat) :
    SaveCase env block c height (saveBlock env o height block c) := by
  unfold saveBlock
  cases hashed : headerHash env block.header with
  | error e => exact .unsaved e
  | ok hash =>
      simp only
      split
      · exact .unsaved _
      · exact .saved hash hashed

end Connection

section Loops

variable {env : Env} {world : World}

/-- The rule for `add_block`: what holds of an accepted block before the orphan loop, and what the
loop makes of it. -/
theorem addBlockWith_rule {orphans : Chain → Result Unit × Chain} {block : Block} {c : Chain}
    (accepted done : Bool → Chain → Prop) (failed : Fault → Chain → Prop)
    (submitted : Post (fun result c' => match result with
      | .accepted _ reorg => accepted reorg c'
      | _ => done false c') failed (submit env world block c))
    (looped : ∀ reorg c', accepted reorg c' →
      Post (fun _ c'' => done reorg c'') failed (orphans c'))
    (checked : ∀ reorg c' e, done reorg c' → validateState c' = .error e → failed e c') :
    Post done failed (addBlockWith env world orphans block c) := by
  rw [addBlockWith_eq]
  generalize submit env world block c = result at submitted
  obtain ⟨e | (_ | _ | ⟨height, reorg⟩), c⟩ := result
  · exact submitted
  · exact submitted
  · exact submitted
  · have loop := looped reorg c submitted
    simp only
    generalize orphans c = result at loop
    obtain ⟨e | ended, c⟩ := result
    · exact loop
    · simp only
      split
      · cases valid : validateState c with
        | error e => exact checked reorg c e loop valid
        | ok ended => exact loop
      · exact loop

theorem orphanRound_rule {add : Block → Chain → Result Bool × Chain}
    (Inv : Bool → List Orphan → List Orphan → Chain → Prop) (failed : Fault → Chain → Prop)
    (step : ∀ added next x pending c, Inv added next (x :: pending) c →
      Post (fun ok c' => Inv (added || ok) (if ok then next else next ++ [x]) pending c') failed
        (add x.block c))
    (pending : List Orphan) {added : Bool} {next : List Orphan} {c : Chain}
    (start : Inv added next pending c) :
    Post (fun result c' => Inv result.1 result.2 [] c') failed
      (orphanRound add pending added next c) := by
  induction pending generalizing added next c with
  | nil => exact start
  | cons x pending ih =>
      have stepped := step added next x pending c start
      rw [orphanRound_cons]
      generalize add x.block c = result at stepped
      obtain ⟨e | (_ | _), c⟩ := result
      · exact stepped
      · simp only [Post, Bool.or_false, Bool.false_eq_true, if_false] at stepped
        exact ih stepped
      · simp only [Post, Bool.or_true, if_true] at stepped
        exact ih stepped

theorem orphanRounds_rule {add : Block → Chain → Result Bool × Chain}
    (Inv done : List Orphan → Chain → Prop) (failed : Fault → Chain → Prop)
    (stop : ∀ pending c, Inv pending c → done pending c)
    (round : ∀ pending c, Inv pending c →
      Post (fun result c' => if result.1 then Inv result.2 c' else done result.2 c') failed
        (orphanRound add pending false [] c))
    (depth : Nat) {pending : List Orphan} {c : Chain} (start : Inv pending c) :
    Post done failed (orphanRounds add depth pending c) := by
  induction depth generalizing pending c with
  | zero => exact stop pending c start
  | succ depth ih =>
      rw [orphanRounds_succ]
      split
      · exact stop pending c start
      · have rounded := round pending c start
        generalize orphanRound add pending false [] c = result at rounded
        obtain ⟨e | ⟨_ | _, next⟩, c⟩ := result
        · exact rounded
        · simpa [Post] using rounded
        · simp only [Post, if_true] at rounded
          exact ih rounded

/-- The blocks `process_orphans` takes out of the pool: the fresh ones, past 500 without the
oldest. -/
def drained (world : World) (c : Chain) : List Orphan :=
  world.drainOrder (c.tick + 1) (trimOrphans world (c.tick + 1)
    (c.orphanBlocks.filter fun x => (world.outside c.tick).instant - x.time < orphanTtl))

theorem mem_of_mem_drained {c : Chain} (member : x ∈ drained world c) : x ∈ c.orphanBlocks := by
  have inside := mem_trimOrphans ((world.drain_perm _ _).mem_iff.mp member)
  exact (List.mem_filter.mp inside).1

def refiled (time : Nat) (left pool : List Orphan) : List Orphan :=
  left.foldl (fun pool x => insertOrphan pool { x with time := time }) pool

theorem refiled_cons (time : Nat) (x : Orphan) (left pool : List Orphan) :
    refiled time (x :: left) pool = refiled time left (insertOrphan pool { x with time := time }) :=
  rfl

theorem mem_refiled {time : Nat} {left : List Orphan} (member : x ∈ refiled time left pool) :
    (∃ y ∈ left, x.block = y.block) ∨ x ∈ pool := by
  induction left generalizing pool with
  | nil => exact Or.inr member
  | cons y left ih =>
      rw [refiled_cons] at member
      rcases ih member with ⟨z, inside, same⟩ | inside
      · exact Or.inl ⟨z, List.mem_cons_of_mem _ inside, same⟩
      · rcases mem_insertOrphan inside with rfl | inside
        · exact Or.inl ⟨y, List.mem_cons_self, rfl⟩
        · exact Or.inr inside

theorem processOrphans_succ (fuel : Nat) (c : Chain) :
    processOrphans env world (fuel + 1) c =
      match orphanRounds (addBlockWith env world (processOrphans env world fuel)) 500
          (drained world c) { c with tick := c.tick + 1, orphanBlocks := [] } with
      | (.error e, c') => (.error e, c')
      | (.ok kept, c') => (.ok (), { c' with
          tick := c'.tick + 1
          orphanBlocks := refiled (world.outside c'.tick).instant kept c'.orphanBlocks }) := by
  have inner : Locking.processOrphans (m := Id) env world fuel =
      fun _ => processOrphans env world fuel := by
    funext held c
    cases fuel <;> cases held <;> rfl
  have whole : processOrphans env world (fuel + 1) c =
      match orphanRounds (Locking.addBlockWith (m := Id) env world
          (Locking.processOrphans (m := Id) env world fuel) false) 500 (drained world c)
          { c with tick := c.tick + 1, orphanBlocks := [] } with
      | (.error e, c') => (.error e, c')
      | (.ok kept, c') => (.ok (), { c' with
          tick := c'.tick + 1
          orphanBlocks := refiled (world.outside c'.tick).instant kept c'.orphanBlocks }) := rfl
  rw [whole, inner]
  rfl

/-- The rule for `process_orphans`: the rounds run on an empty pool, and what they leave is filed
again. -/
theorem processOrphans_rule {fuel : Nat} {c : Chain} (left done : List Orphan → Chain → Prop)
    (failed : Fault → Chain → Prop)
    (rounds : Post left failed
      (orphanRounds (addBlockWith env world (processOrphans env world fuel)) 500 (drained world c)
        { c with tick := c.tick + 1, orphanBlocks := [] }))
    (filed : ∀ kept c', left kept c' → done kept { c' with
      tick := c'.tick + 1
      orphanBlocks := refiled (world.outside c'.tick).instant kept c'.orphanBlocks }) :
    Post (fun _ c' => ∃ kept, done kept c') failed (processOrphans env world (fuel + 1) c) := by
  rw [processOrphans_succ]
  generalize orphanRounds (addBlockWith env world (processOrphans env world fuel)) 500
    (drained world c) { c with tick := c.tick + 1, orphanBlocks := [] } = result at rounds
  obtain ⟨e | kept, c'⟩ := result
  · exact rounds
  · exact ⟨kept, filed kept c' rounds⟩

end Loops

section Invariants

variable {env : Env} {world : World}

theorem finish_rule (P : Chain → Prop) {o : Outside} {block : Block} {height : Nat} {reorg : Bool}
    (r : Result Unit × Chain) (left : P r.2)
    (saving : ∀ hash, headerHash env block.header = .ok hash → P { r.2 with
      db := write r.2.db (saveOps height block hash)
      saved := (height, block) :: r.2.saved }) :
    P (finish env o block height reorg r).2 := by
  obtain ⟨e | done, c⟩ := r
  · exact left
  · have cases := saveBlock_cases env o block c height
    simp only [finish]
    generalize saveBlock env o height block c = result at cases
    cases cases with
    | unsaved e => exact left
    | saved hash hashed => exact saving hash hashed

private theorem finish_pool (o : Outside) (block : Block) (height : Nat) (reorg : Bool)
    (r : Result Unit × Chain) :
    (finish env o block height reorg r).2.orphanBlocks = r.2.orphanBlocks :=
  finish_rule (fun c => c.orphanBlocks = r.2.orphanBlocks) r rfl fun _ _ => rfl

theorem connectNew_pool (o : Outside) (block : Block) (prevHeight : Nat) (c : Chain) :
    (connectNew env o block prevHeight c).2.orphanBlocks = c.orphanBlocks := by
  have cases := connectNew_cases env o block c prevHeight
  generalize connectNew env o block prevHeight c = result at cases
  cases cases with
  | refused e => rfl
  | heavier target valid compact more =>
      rw [finish_pool]
      have reorg := reorganise_cases env o block c prevHeight
      generalize reorganise env o block prevHeight c = result at reorg
      cases reorg <;> rfl
  | lighter target valid compact less r applied =>
      rw [finish_pool, applied]
      have side := applyBlockAction_cases env o block c (prevHeight + 1) .connect false
        (blockWork target) []
      generalize applyBlockAction env o block (prevHeight + 1) .connect false (blockWork target) []
        c = result at side
      cases side <;> rfl

private theorem submit_pool (block : Block) (c : Chain)
    (member : x ∈ (submit env world block c).2.orphanBlocks) :
    x.block = block ∨ x ∈ c.orphanBlocks := by
  have cases := submit_cases env world block c
  generalize submit env world block c = result at cases member
  cases cases with
  | unhashed e failed => exact Or.inr member
  | known hash hashed there => exact Or.inr member
  | orphan hash hashed fresh lost =>
      rcases mem_insertOrphan (mem_trimOrphans member) with rfl | inside
      · exact Or.inl rfl
      · exact Or.inr inside
  | child hash hashed fresh prevHeight parent =>
      rw [connectNew_pool] at member
      exact Or.inr member

/-- A property that a submission of an allowed block keeps, and that says nothing about the
pool and the step counter. -/
structure Keeps (env : Env) (world : World) (Inv : Chain → Prop) (Allowed : Block → Prop) :
    Prop where
  submit : ∀ block c, Inv c → Allowed block → Inv (submit env world block c).2
  pool : ∀ c tick pool, Inv c → Inv { c with tick := tick, orphanBlocks := pool }

/-- The rule by the phases of a submission: `Mid` holds of the new block's hash from the moment
the block is taken up until `save_block` has filed it. -/
theorem keeps_of_phases {Inv : Chain → Prop} {Allowed : Block → Prop} (Mid : Hash → Chain → Prop)
    (pool : ∀ c tick pool, Inv c → Inv { c with tick := tick, orphanBlocks := pool })
    (enter : ∀ hash c, Inv c → hash ∉ c.state.hashToHeight → Mid hash c)
    (leave : ∀ hash c, Mid hash c → Inv c)
    (reorganising : ∀ o block hash prevHeight c, Mid hash c →
      Mid hash (reorganise env o block prevHeight c).2)
    (acting : ∀ o block hash height work c, Mid hash c →
      Mid hash (applyBlockAction env o block height .connect false work [] c).2)
    (saving : ∀ block hash height c, Mid hash c →
      Inv { c with
        db := write c.db (saveOps height block hash)
        saved := (height, block) :: c.saved }) :
    Keeps env world Inv Allowed where
  pool := pool
  submit block c start _ := by
    have finishing {o : Outside} {hash : Hash} {height : Nat} {reorg : Bool}
        {r : Result Unit × Chain} (hashed : headerHash env block.header = .ok hash)
        (mid : Mid hash r.2) : Inv (finish env o block height reorg r).2 := by
      refine finish_rule Inv r (leave hash r.2 mid) ?_
      intro other same
      obtain rfl := Except.ok.inj (hashed.symm.trans same)
      exact saving block hash height r.2 mid
    have cases := submit_cases env world block c
    generalize submit env world block c = result at cases
    cases cases with
    | unhashed e failed => exact pool c _ _ start
    | known hash hashed there => exact pool c _ _ start
    | orphan hash hashed fresh parentless => exact pool c _ _ start
    | child hash hashed fresh prevHeight parent =>
        have ticked := pool c (c.tick + 1) c.orphanBlocks start
        have connection := connectNew_cases env (world.outside c.tick) block
          { c with tick := c.tick + 1 } prevHeight
        generalize connectNew env (world.outside c.tick) block prevHeight
          { c with tick := c.tick + 1 } = result at connection
        cases connection with
        | refused e => exact ticked
        | heavier target valid compact more =>
            exact finishing hashed (reorganising _ _ _ _ _ (enter hash _ ticked fresh))
        | lighter target valid compact less r applied =>
            rw [applied]
            exact finishing hashed (acting _ _ _ _ _ _ (enter hash _ ticked fresh))

/-- The rule by the connection of a new child of an indexed block: besides it, a submission only
files the block. -/
theorem keeps_of_connect {Inv : Chain → Prop} {Allowed : Block → Prop}
    (pool : ∀ c tick pool, Inv c → Inv { c with tick := tick, orphanBlocks := pool })
    (connecting : ∀ tick block prevHeight c, Inv c → Allowed block →
      c.state.hashToHeight.lookup block.header.prevHash = some prevHeight →
      Inv (connectNew env (world.outside tick) block prevHeight c).2) :
    Keeps env world Inv Allowed where
  pool := pool
  submit block c start allowed := by
    have cases := submit_cases env world block c
    generalize submit env world block c = result at cases
    cases cases with
    | unhashed e failed => exact pool c _ _ start
    | known hash hashed there => exact pool c _ _ start
    | orphan hash hashed fresh parentless => exact pool c _ _ start
    | child hash hashed fresh prevHeight parent =>
        exact connecting _ _ _ _ (pool c (c.tick + 1) c.orphanBlocks start) allowed parent

def Holds (Inv : Chain → Prop) (Allowed : Block → Prop) (c : Chain) : Prop :=
  Inv c ∧ ∀ x ∈ c.orphanBlocks, Allowed x.block

variable {Inv : Chain → Prop} {Allowed : Block → Prop}

private theorem Keeps.holds_submit (keeps : Keeps env world Inv Allowed) {block : Block} {c : Chain}
    (holds : Holds Inv Allowed c) (allowed : Allowed block) :
    Holds Inv Allowed (Node.submit env world block c).2 := by
  refine ⟨keeps.submit block c holds.1 allowed, ?_⟩
  intro x member
  rcases submit_pool block c member with same | inside
  · exact same ▸ allowed
  · exact holds.2 x inside

private theorem Keeps.holds_addBlockWith (keeps : Keeps env world Inv Allowed)
    {orphans : Chain → Result Unit × Chain}
    (loop : ∀ c, Holds Inv Allowed c → Holds Inv Allowed (orphans c).2) {block : Block} {c : Chain}
    (holds : Holds Inv Allowed c) (allowed : Allowed block) :
    Holds Inv Allowed (addBlockWith env world orphans block c).2 := by
  refine post_state.mp (addBlockWith_rule (fun _ => Holds Inv Allowed) (fun _ => Holds Inv Allowed)
    (fun _ => Holds Inv Allowed) ?_ ?_ ?_)
  · refine (post_state.mpr (keeps.holds_submit holds allowed)).imp ?_ fun _ _ held => held
    intro result c' held
    cases result <;> exact held
  · intro reorg c' held
    exact post_state.mpr (loop c' held)
  · intro reorg c' e held _
    exact held

def Waits (Inv : Chain → Prop) (Allowed : Block → Prop) (pending : List Orphan) (c : Chain) :
    Prop :=
  Holds Inv Allowed c ∧ ∀ x ∈ pending, Allowed x.block

private theorem waits_orphanRound
    (adding : ∀ block c, Holds Inv Allowed c → Allowed block → Holds Inv Allowed (add block c).2)
    {pending : List Orphan} {c : Chain} (waits : Waits Inv Allowed pending c) :
    Post (fun result => Waits Inv Allowed result.2) (fun _ => Holds Inv Allowed)
      (orphanRound add pending false [] c) := by
  have start : Waits Inv Allowed ([] ++ pending) c := waits
  refine (orphanRound_rule (fun _ next pending => Waits Inv Allowed (next ++ pending))
    (fun _ => Holds Inv Allowed) ?_ pending start).imp ?_ fun _ _ holds => holds
  · intro added next x pending c waits
    have here : Allowed x.block := waits.2 x (by simp)
    refine (post_state.mpr (adding x.block c waits.1 here)).imp ?_ fun _ _ holds => holds
    intro ok c' holds
    refine ⟨holds, fun y member => waits.2 y ?_⟩
    cases ok with
    | false => simpa using member
    | true =>
        rcases List.mem_append.mp member with inside | inside
        · exact List.mem_append_left _ inside
        · exact List.mem_append_right _ (List.mem_cons_of_mem _ inside)
  · intro result c' waits
    rwa [List.append_nil] at waits

theorem Keeps.holds_processOrphans (keeps : Keeps env world Inv Allowed) (fuel : Nat) (c : Chain)
    (holds : Holds Inv Allowed c) : Holds Inv Allowed (processOrphans env world fuel c).2 := by
  induction fuel generalizing c with
  | zero => exact holds
  | succ fuel ih =>
      have start : Waits Inv Allowed (drained world c)
          { c with tick := c.tick + 1, orphanBlocks := [] } := by
        refine ⟨⟨keeps.pool c _ _ holds.1, by simp⟩, ?_⟩
        intro x member
        exact holds.2 x (mem_of_mem_drained member)
      have rounds := orphanRounds_rule (Waits Inv Allowed) (Waits Inv Allowed)
        (fun _ => Holds Inv Allowed) (fun _ _ waits => waits)
        (fun pending c waits =>
          (waits_orphanRound (fun _ _ => keeps.holds_addBlockWith ih) waits).imp
            (fun result c' waits => by simpa using waits) fun _ _ holds => holds) 500 start
      have processed := processOrphans_rule _ (fun _ => Holds Inv Allowed) _ rounds ?_
      · refine post_state.mp (processed.imp ?_ fun _ _ holds => holds)
        rintro _ c' ⟨-, holds⟩
        exact holds
      · rintro kept c' ⟨holds, waiting⟩
        refine ⟨keeps.pool c' _ _ holds.1, ?_⟩
        intro x member
        rcases mem_refiled member with ⟨y, inside, same⟩ | inside
        · exact same ▸ waiting y inside
        · exact holds.2 x inside

theorem Keeps.holds_addBlock (keeps : Keeps env world Inv Allowed) {block : Block} {c : Chain}
    (holds : Holds Inv Allowed c) (allowed : Allowed block) :
    Holds Inv Allowed (addBlock env world block c).2 :=
  keeps.holds_addBlockWith (keeps.holds_processOrphans _) holds allowed

end Invariants

section SettledPool

variable {env : Env} (world : World)

def Settled (env : Env) (state : ChainState) (block : Block) : Prop :=
  ∃ hash, headerHash env block.header = .ok hash ∧
    (hash ∈ state.hashToHeight ∨ state.hashToHeight.lookup block.header.prevHash = none)

theorem settled_keeps (env : Env) (state : ChainState) :
    Keeps env world (fun c => c.state = state) (Settled env state) where
  pool _ _ _ same := same
  submit block c same settled := by
    have cases := submit_cases env world block c
    generalize submit env world block c = result at cases
    obtain ⟨_, hashed', known⟩ := settled
    cases cases with
    | unhashed e failed => exact same
    | known hash hashed there => exact same
    | orphan hash hashed fresh parentless => exact same
    | child hash hashed fresh prevHeight parent =>
        obtain rfl := Except.ok.inj (hashed'.symm.trans hashed)
        rw [same] at fresh parent
        rcases known with there | parentless
        · exact absurd there fresh
        · exact absurd (parentless.symm.trans parent) (by simp)

theorem addBlockWith_settled (orphans : Chain → Result Unit × Chain) {block : Block} {c : Chain}
    (settled : Settled env c.state block) :
    ∃ tick pool, addBlockWith env world orphans block c =
      (.ok false, { c with tick := tick, orphanBlocks := pool }) := by
  obtain ⟨hash, hashed, known⟩ := settled
  by_cases there : hash ∈ c.state.hashToHeight
  · refine ⟨c.tick + 1, c.orphanBlocks, ?_⟩
    simp [addBlockWith_eq, submit, Locking.submit, hashed, there]
  · have parentless := known.resolve_left there
    simp only [addBlockWith_eq, submit, Locking.submit, hashed, there, if_false, parentless,
      pure_aside]
    exact ⟨_, _, rfl⟩

private theorem orphanRound_settled (orphans : Chain → Result Unit × Chain) (pending : List Orphan)
    (added : Bool) (next : List Orphan) (c : Chain)
    (settled : ∀ x ∈ pending, Settled env c.state x.block) :
    ∃ tick pool, orphanRound (addBlockWith env world orphans) pending added next c =
      (.ok (added, next ++ pending), { c with tick := tick, orphanBlocks := pool }) := by
  induction pending generalizing next c with
  | nil => exact ⟨c.tick, c.orphanBlocks, by simp [orphanRound, Locking.orphanRound]⟩
  | cons x pending ih =>
      obtain ⟨here, later⟩ := List.forall_mem_cons.mp settled
      obtain ⟨tick, pool, stepped⟩ := addBlockWith_settled world orphans here
      obtain ⟨tick', pool', rest⟩ := ih (next ++ [x])
        { c with tick := tick, orphanBlocks := pool } later
      refine ⟨tick', pool', ?_⟩
      simp only [orphanRound_cons, stepped, rest, List.append_assoc, List.singleton_append]

private theorem orphanRounds_settled (orphans : Chain → Result Unit × Chain) (depth : Nat)
    (pending : List Orphan) (c : Chain) (settled : ∀ x ∈ pending, Settled env c.state x.block) :
    ∃ tick pool, orphanRounds (addBlockWith env world orphans) depth pending c =
      (.ok pending, { c with tick := tick, orphanBlocks := pool }) := by
  cases depth with
  | zero => exact ⟨c.tick, c.orphanBlocks, rfl⟩
  | succ depth =>
      rw [orphanRounds_succ]
      split
      · exact ⟨c.tick, c.orphanBlocks, rfl⟩
      · obtain ⟨tick, pool, round⟩ :=
          orphanRound_settled world orphans pending false [] c settled
        exact ⟨tick, pool, by simp [round]⟩

theorem processOrphans_settled (fuel : Nat) (c : Chain)
    (settled : ∀ x ∈ c.orphanBlocks, Settled env c.state x.block) :
    ∃ tick pool, processOrphans env world (fuel + 1) c =
        (.ok (), { c with tick := tick, orphanBlocks := pool }) ∧
      ∀ x ∈ pool, Settled env c.state x.block := by
  have waiting : ∀ x ∈ drained world c, Settled env c.state x.block := by
    intro x member
    exact settled x (mem_of_mem_drained member)
  obtain ⟨tick, pool, rounds⟩ := orphanRounds_settled world (processOrphans env world fuel) 500 _
    { c with tick := c.tick + 1, orphanBlocks := [] } waiting
  have kept := ((settled_keeps world env c.state).holds_processOrphans (fuel + 1) c
    ⟨rfl, settled⟩).2
  rw [processOrphans_succ, rounds] at kept ⊢
  exact ⟨_, _, rfl, kept⟩

end SettledPool

end Lyrion.Node
