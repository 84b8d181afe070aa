/- GID: Lyrion/Node/Faults
   digest: Which panics a block or a transaction from outside can set off in the chain code. -/

import Lyrion.Node.Steps

set_option autoImplicit false
set_option relaxedAutoImplicit false

namespace Lyrion.Node

open Library.ByteCodec Library.KeyValue Library.Runs Data Utils Tx

section Errors

/-! The calls below end in error values at most. -/

variable {env : Env} {bad : Fault → Bool} (errors : ∀ e, bad (.error e) = false)
include errors

private theorem not_raises_compactToTarget (bits : UInt32) : ¬ Raises bad (compactToTarget bits) :=
    by
  simp [compactToTarget, raises_ite, errors]

theorem not_raises_headerHash (header : BlockHeader) : ¬ Raises bad (headerHash env header) := by
  simp [headerHash, errors]

private theorem not_raises_checkInputs (db : Db) (height : Nat) (seen : List Outpoint)
    (inputs : List TXInput) : ¬ Raises bad (checkInputs db height seen inputs) := by
  induction inputs generalizing seen with
  | nil => exact not_raises_ok ()
  | cons vin rest ih =>
      unfold checkInputs
      split
      · simp [errors]
      · split
        · exact ih _
        · simp [raises_ite, errors, ih]

private theorem not_raises_gatherStored (db : Db) (isAnonymous : Bool) (unreadable : String)
    (inputs : List TXInput) (outputs : Map Outpoint TXOutput) :
    ¬ Raises bad (gatherStored db isAnonymous unreadable inputs outputs) := by
  induction inputs generalizing outputs with
  | nil => exact not_raises_ok outputs
  | cons vin rest ih =>
      unfold gatherStored
      split
      · exact ih _
      · exact not_raises_bind (by simp [errors]) fun output => ih _

private theorem not_raises_gatherUtxos (db : Db) (inputs : List TXInput) (sum : UInt64)
    (outputs : Map Outpoint TXOutput) : ¬ Raises bad (gatherUtxos db inputs sum outputs) := by
  induction inputs generalizing sum outputs with
  | nil => exact not_raises_ok _
  | cons vin rest ih => simp [gatherUtxos, raises_bind, errors, ih]

theorem not_raises_loadBlockFromDb (db : Db) (height : Nat) :
    ¬ Raises bad (loadBlockFromDb db height) := by
  simp [loadBlockFromDb, raises_bind, errors]

theorem not_raises_loadHeader (db : Db) (height : Nat) : ¬ Raises bad (loadHeader db height) := by
  unfold loadHeader
  split
  · simp [errors]
  · exact not_raises_bind (not_raises_loadBlockFromDb errors _ _) fun _ => not_raises_pure _

private theorem not_raises_collectOutputs (db : Db) (isAnonymous : Bool) (txs : List Transaction)
    (outputs : Map Outpoint TXOutput) :
    ¬ Raises bad (collectOutputs db isAnonymous txs outputs) := by
  induction txs generalizing outputs with
  | nil => exact not_raises_ok outputs
  | cons tx rest ih =>
      unfold collectOutputs
      split
      · exact not_raises_bind (not_raises_gatherStored errors _ _ _ _ _) fun outputs => ih outputs
      · exact ih outputs

private theorem not_raises_applyUtxoChanges (snapshot : Db) (setHash : Hash) (supply : UInt64)
    (block : Block) (height : Nat) (isConnect : Bool) (batch : DbBatch) :
    ¬ Raises bad (applyUtxoChanges env snapshot setHash supply block height isConnect batch) := by
  have coins (isAnonymous : Bool) (acc : UtxoAcc) (vin : TXInput) :
      ¬ Raises bad (coinAction env snapshot isAnonymous isConnect acc vin) := by
    cases isConnect <;> simp [coinAction, raises_bind, errors]
  have images (acc : UtxoAcc) (vin : TXInput) :
      ¬ Raises bad (keyImageAction env snapshot height isConnect acc vin) := by
    cases isConnect <;> simp [keyImageAction, raises_ite, errors]
  have inputs (isAnonymous : Bool) (acc : UtxoAcc) (vin : TXInput) :
      ¬ Raises bad (inputAction env snapshot height isAnonymous isConnect acc vin) := by
    unfold inputAction
    split
    · exact not_raises_bind (images acc vin) fun acc => coins _ acc vin
    · exact coins _ acc vin
  have outputs (tx : Transaction) (acc : UtxoAcc) (entry : TXOutput × Nat) :
      ¬ Raises bad (outputAction env snapshot isConnect tx acc entry) := by
    cases isConnect <;> simp [outputAction, raises_bind, raises_ite, errors]
  have handled (acc : UtxoAcc) (tx : Transaction) :
      ¬ Raises bad (handleUtxoAction env snapshot height isConnect acc tx) := by
    unfold handleUtxoAction
    split
    · exact not_raises_ok _
    · exact not_raises_bind (not_raises_foldlM (inputs _) acc _) fun acc =>
        not_raises_foldlM (outputs tx) acc _
  exact not_raises_bind (not_raises_foldlM handled _ _) fun acc => not_raises_pure _

private theorem not_raises_buildBlockOps (db : Db) (setHash : Hash) (supply : UInt64)
    (block : Block) (height : Nat) (action : BlockAction) (batch : DbBatch) :
    ¬ Raises bad (buildBlockOps env db setHash supply block height action batch) :=
  not_raises_bind (not_raises_headerHash errors _) fun _ =>
    not_raises_bind (not_raises_applyUtxoChanges errors _ _ _ _ _ _ _) fun _ => not_raises_pure _

private theorem not_raises_disconnectOps (db : Db) (setHash : Hash) (supply : UInt64)
    (prevHeight : Nat) (depth : Nat) (batch : DbBatch) :
    ¬ Raises bad (disconnectOps env db setHash supply prevHeight depth batch) := by
  induction depth generalizing batch with
  | zero => exact not_raises_ok batch
  | succ depth ih =>
      exact not_raises_bind (not_raises_loadBlockFromDb errors _ _) fun _ =>
        not_raises_bind (not_raises_buildBlockOps errors _ _ _ _ _ _ _) fun batch => ih batch

private theorem not_raises_reorganise (o : Outside) (block : Block) (prevHeight : Nat) (c : Chain) :
    ¬ Raises bad (reorganise env o block prevHeight c).1 := by
  have batches (db : Db) : ¬ Raises bad (reorgBatch env db c.state.utxoSetHash c.state.totalSupply
      prevHeight (c.bestHeight - prevHeight) block) :=
    not_raises_bind (not_raises_disconnectOps errors _ _ _ _ _ _) fun _ =>
      not_raises_buildBlockOps errors _ _ _ _ _ _ _
  unfold reorganise
  split
  · simp [errors]
  · simp only
    split
    · simp [errors]
    · split
      · rename_i fault raised
        exact not_raises_passed (batches _) raised
      · split
        · simp [errors]
        · split
          · simp [errors]
          · exact not_raises_ok ()

private theorem not_raises_prune (height : Nat) (state : ChainState) :
    ¬ Raises bad (prune env height state) := by
  unfold prune
  split
  · exact not_raises_ok _
  · exact not_raises_bind (not_raises_headerHash errors _) fun _ => not_raises_pure _

private theorem not_raises_applyBlockAction (o : Outside) (block : Block) (height : Nat)
    (action : BlockAction) (isBest : Bool) (work : Nat) (batch : DbBatch) (c : Chain) :
    ¬ Raises bad (applyBlockAction env o block height action isBest work batch c).1 := by
  unfold applyBlockAction Locking.applyBlockAction
  simp only [lock_aside, pure_aside, bind_aside]
  split
  · simp [errors]
  · split
    · simp [errors]
    · split
      · rename_i fault raised
        exact not_raises_passed (not_raises_headerHash errors _) raised
      · split
        · rename_i fault raised
          exact not_raises_passed (not_raises_applyUtxoChanges errors _ _ _ _ _ _ _) raised
        · split
          · simp [errors]
          · split
            · split
              · split
                · rename_i fault raised
                  exact not_raises_passed (not_raises_prune errors _ _) raised
                · exact not_raises_ok _
              · exact not_raises_ok _
            · exact not_raises_ok _

private theorem not_raises_finish (o : Outside) (block : Block) (height : Nat) (reorg : Bool)
    (r : Result Unit × Chain) (safe : ¬ Raises bad r.1) :
    ¬ Raises bad (finish env o block height reorg r).1 := by
  have saves (c : Chain) : ¬ Raises bad (saveBlock env o height block c).1 := by
    unfold saveBlock
    split
    · rename_i fault raised
      exact not_raises_passed (not_raises_headerHash errors _) raised
    · split
      · simp [errors]
      · exact not_raises_ok ()
  obtain ⟨fault | done, c⟩ := r
  · exact not_raises_passed safe rfl
  · have saved := saves c
    unfold finish
    simp only
    split
    · rename_i fault c' raised
      exact not_raises_passed_pair saved raised
    · exact not_raises_ok _

theorem not_raises_validateState (c : Chain) : ¬ Raises bad (validateState c) := by
  unfold validateState
  split
  · exact not_raises_ok ()
  · simp [raises_ite, errors]

variable (env bad) in
/-- `validate_block`, called for a new block with a known parent, ends in one of the faults. -/
def Breaks (world : World) (block : Block) (c : Chain) : Prop :=
  ∃ hash prevHeight, headerHash env block.header = .ok hash ∧ hash ∉ c.state.hashToHeight ∧
    c.state.hashToHeight.lookup block.header.prevHash = some prevHeight ∧
    Raises bad (validateBlock env c.db c.bestHeight (world.outside c.tick).nowMs block
      (prevHeight + 1))

theorem raises_submit_iff {world : World} (block : Block) (c : Chain) :
    Raises bad (submit env world block c).1 ↔ Breaks env bad world block c := by
  unfold submit Locking.submit Breaks
  simp only [pure_aside]
  cases hashed : headerHash env block.header with
  | error e =>
      have safe : ¬ Raises bad (.error e : Result Submitted) :=
        not_raises_passed (not_raises_headerHash errors block.header) hashed
      simpa using safe
  | ok hash =>
      simp only [Except.ok.injEq, exists_and_left, exists_eq_left']
      by_cases there : hash ∈ c.state.hashToHeight
      · simp [there]
      · simp only [there, if_false, not_false_eq_true, true_and]
        cases c.state.hashToHeight.lookup block.header.prevHash with
        | none => simp
        | some prevHeight =>
            simp only [Option.some.injEq, exists_eq_left']
            unfold Locking.connectNew
            simp only [pure_aside, bind_aside]
            cases valid : validateBlock env c.db c.bestHeight (world.outside c.tick).nowMs block
                (prevHeight + 1) with
            | error e => simp [Raises]
            | ok done =>
                simp only [not_raises_ok, iff_false]
                split
                · rename_i fault raised
                  exact not_raises_passed (not_raises_compactToTarget errors _) raised
                · split
                  · split
                    · simp [errors]
                    · split
                      · simp [errors]
                      · exact not_raises_finish errors _ _ _ _ _
                          (not_raises_reorganise errors _ _ _ _)
                  · refine not_raises_finish errors _ _ _ _ _ ?_
                    rw [raises_map]
                    exact not_raises_applyBlockAction errors _ _ _ _ _ _ _ _

end Errors

/-- The faults without those that one block can end in: error values, the two panics on what the
database has, and the one on a commitment that is not of 32 bytes. -/
structure Tame (bad : Fault → Bool) : Prop where
  errors : ∀ e, bad (.error e) = false
  unwrap : bad (.panic "load_header unwrap") = false
  decode : bad (.panic "Deserialize failed") = false
  slice : bad (.panic "CompressedRistretto::from_slice") = false

/-- The faults without those that the chain code can end in, the bound on the orphan loop
included. -/
structure Quiet (bad : Fault → Bool) : Prop extends Tame bad where
  fuel : bad .outOfFuel = false

section Blocks

variable {env : Env} {world : World} {bad : Fault → Bool} (tame : Tame bad)
include tame

private theorem not_raises_pointFromSlice (comm : Bytes) : ¬ Raises bad (pointFromSlice env comm) :=
    by
  simp [pointFromSlice, raises_ite, tame.errors, tame.slice]

private theorem not_raises_commitmentPoint (out : TXOutput) :
    ¬ Raises bad (commitmentPoint env out) := by
  simp [commitmentPoint, raises_bind, tame.errors, not_raises_pointFromSlice tame]

private theorem not_raises_anonymousInputs (db : Db) (tx : Transaction)
    (outputs : Map Outpoint TXOutput) (inputs : List TXInput) (seen : List Bytes) (sum : UInt64)
    (points : List env.Point) :
    ¬ Raises bad (anonymousInputs env db tx outputs inputs seen sum points) := by
  induction inputs generalizing seen sum points with
  | nil => exact not_raises_ok _
  | cons vin rest ih =>
      simp [anonymousInputs, raises_ite, raises_bind, tame.errors, ih,
        not_raises_commitmentPoint tame]

private theorem not_raises_queueProofs (tx : Transaction) : ¬ Raises bad (queueProofs env tx) := by
  apply not_raises_mapM
  intro entry
  simp [queueProof, raises_bind, tame.errors, not_raises_commitmentPoint tame]

private theorem not_raises_validateAnonymousTx (tx : Transaction) (outputs : Map Outpoint TXOutput)
    (db : Db) : ¬ Raises bad (validateAnonymousTx env tx outputs db) := by
  simp [validateAnonymousTx, raises_bind, raises_ite, tame.errors, not_raises_queueProofs tame,
    not_raises_anonymousInputs tame, not_raises_mapM (not_raises_commitmentPoint tame)]

private theorem not_raises_validateTransaction (db : Db) (bestHeight : Nat) (tx : Transaction)
    (height : Nat) : ¬ Raises bad (validateTransaction env db bestHeight tx height) := by
  have sums : ¬ Raises bad (inputSumOf env db tx) := by
    unfold inputSumOf
    split
    · exact not_raises_bind (not_raises_gatherStored tame.errors _ _ _ _ _) fun _ =>
        not_raises_bind (not_raises_validateAnonymousTx tame _ _ _) fun _ => not_raises_pure 0
    · exact not_raises_bind (not_raises_gatherUtxos tame.errors _ _ _ _) fun _ => not_raises_pure _
  have payment (sum : UInt64) : ¬ Raises bad (checkPayment tx sum) := by
    have required : ¬ Raises bad (requiredFee tx) := by
      unfold requiredFee
      split <;> simp [tame.errors]
    simp [checkPayment, raises_bind, raises_ite, tame.errors, required]
  unfold validateTransaction
  split
  · exact not_raises_ok ()
  · simp [raises_ite, raises_bind, tame.errors, not_raises_checkInputs tame.errors, sums, payment]

private theorem not_raises_checkCommitments (outputs : Map Outpoint TXOutput) (fees : UInt64)
    (txs : List Transaction) : ¬ Raises bad (checkCommitments env outputs fees txs) := by
  have each (tx : Transaction) : ¬ Raises bad (commitmentsOf env outputs tx) := by
    have points (commitments : List Bytes) :
        ¬ Raises bad (commitments.mapM (pointFromSlice env)) :=
      not_raises_mapM (not_raises_pointFromSlice tame) commitments
    unfold commitmentsOf
    split
    · simp [raises_bind, points, not_raises_queueProofs tame]
    · exact not_raises_pure _
  simp [checkCommitments, raises_bind, raises_ite, tame.errors, not_raises_mapM each]

private theorem not_raises_checkTransactions (db : Db) (bestHeight : Nat) (coinbase : Transaction)
    (rest : List Transaction) (height : Nat) :
    ¬ Raises bad (checkTransactions env db bestHeight coinbase rest height) := by
  have each (tx : Transaction) : ¬ Raises bad (validateTransaction env db bestHeight tx height) :=
    not_raises_validateTransaction tame db bestHeight tx height
  simp [-List.forM_eq_forM, checkTransactions, raises_bind, raises_ite, tame.errors,
    not_raises_collectOutputs tame.errors, not_raises_forM each, not_raises_checkCommitments tame]

private theorem not_raises_headerAt (db : Db) (height : Nat) : ¬ Raises bad (headerAt db height) :=
    by
  unfold headerAt
  split
  · exact not_raises_ok _
  · simp [tame.unwrap]

private theorem not_raises_getMedianTimestamp (db : Db) (height : Nat) :
    ¬ Raises bad (getMedianTimestamp db height) := by
  have times (heights : List Nat) : ¬ Raises bad (storedTimes db heights) := by
    induction heights with
    | nil => exact not_raises_ok []
    | cons i rest ih =>
        unfold storedTimes
        split
        · exact ih
        · exact not_raises_bind (by simp [tame.decode]) fun _ =>
            not_raises_bind ih fun _ => not_raises_pure _
  exact not_raises_bind (times _) fun _ => not_raises_pure _

private theorem not_raises_calculateNextBits (db : Db) (height : Nat) :
    ¬ Raises bad (calculateNextBits db height) := by
  unfold calculateNextBits
  split
  · exact not_raises_bind (not_raises_headerAt tame _ _) fun _ => not_raises_pure _
  · simp [raises_bind, raises_ite, not_raises_headerAt tame, not_raises_getMedianTimestamp tame,
      not_raises_compactToTarget tame.errors]

private theorem not_raises_validateBlock (db : Db) (bestHeight : Nat) (nowMs : Option Nat)
    (block : Block) (height : Nat) : ¬ Raises bad
    (validateBlock env db bestHeight nowMs block height) := by
  have header : ¬ Raises bad (checkHeader env db block height) := by
    simp [checkHeader, raises_bind, raises_ite, tame.errors, not_raises_headerHash tame.errors,
      not_raises_compactToTarget tame.errors, not_raises_calculateNextBits tame]
  have context (hash : Hash) : ¬ Raises bad (checkContext env db nowMs block height hash) := by
    simp [checkContext, raises_bind, raises_ite, tame.errors,
      not_raises_getMedianTimestamp tame]
  refine not_raises_bind header fun hash => ?_
  split
  · simp [tame.errors]
  · simp [raises_bind, raises_ite, tame.errors, not_raises_checkTransactions tame, context]

omit tame in
theorem validateBlock_crash {db : Db} {bestHeight : Nat} {nowMs : Option Nat} {block : Block}
    {height : Nat} {fault : Fault}
    (failed : validateBlock env db bestHeight nowMs block height = .error fault)
    (crash : fault.isCrash = true) :
    fault ∈ [.panic "load_header unwrap", .panic "Deserialize failed",
      .panic "CompressedRistretto::from_slice"] := by
  by_contra other
  have tame : Tame fun fault => fault.isCrash && decide (fault ∉ [Fault.panic "load_header unwrap",
      .panic "Deserialize failed", .panic "CompressedRistretto::from_slice"]) :=
    ⟨fun _ => rfl, by decide, by decide, by decide⟩
  refine not_raises_validateBlock tame db bestHeight nowMs block height ⟨fault, ?_, failed⟩
  simp only [crash, Bool.true_and]
  exact decide_eq_true other

variable (env world) in
theorem not_raises_submit (block : Block) (c : Chain) :
    ¬ Raises bad (submit env world block c).1 := by
  rw [raises_submit_iff tame.errors]
  rintro ⟨_, _, -, -, -, raised⟩
  exact not_raises_validateBlock tame _ _ _ _ _ raised

end Blocks

section OrphanLoop

variable {env : Env} {world : World} {bad : Fault → Bool}

private theorem not_raises_iff_post {α : Type} {r : Result α × Chain} :
    ¬ Raises bad r.1 ↔ Post (fun _ _ => True) (fun e _ => bad e = false) r := by
  obtain ⟨e | a, c⟩ := r
  · simp [Post]
  · simp [Post]

variable (env world) in
private theorem not_raises_addBlockWith (tame : Tame bad) {orphans : Chain → Result Unit × Chain}
    (safe : ∀ c, ¬ Raises bad (orphans c).1) (block : Block) (c : Chain) :
    ¬ Raises bad (addBlockWith env world orphans block c).1 := by
  refine not_raises_iff_post.mpr (addBlockWith_rule (fun _ _ => True) _ _ ?_ ?_ ?_)
  · refine (not_raises_iff_post.mp (not_raises_submit env world tame block c)).imp ?_
      fun _ _ fine => fine
    intro result c' _
    cases result <;> trivial
  · intro reorg c' _
    exact not_raises_iff_post.mp (safe c')
  · intro reorg c' e _ invalid
    have fine := not_raises_validateState tame.errors c'
    rw [invalid] at fine
    simpa using fine

variable (quiet : Quiet bad)
include quiet

private theorem not_raises_processOrphans (fuel : Nat) (c : Chain) :
    ¬ Raises bad (processOrphans env world fuel c).1 := by
  induction fuel generalizing c with
  | zero =>
      change ¬ Raises bad (.error .outOfFuel : Result Unit)
      simp [quiet.fuel]
  | succ fuel ih =>
      have adding (block : Block) (c : Chain) := not_raises_iff_post.mp
        (not_raises_addBlockWith env world quiet.toTame ih block c)
      have round (pending : List Orphan) (c : Chain) : Post (fun _ _ => True)
          (fun e _ => bad e = false) (orphanRound (addBlockWith env world
            (processOrphans env world fuel)) pending false [] c) :=
        orphanRound_rule (fun _ _ _ _ => True) _ (fun _ _ x _ c _ => adding x.block c) pending
          trivial
      refine not_raises_iff_post.mpr ((processOrphans_rule (fun _ _ => True) (fun _ _ => True) _
        ?_ fun _ _ _ => trivial).imp (fun _ _ _ => trivial) fun _ _ fine => fine)
      refine orphanRounds_rule (fun _ _ => True) _ _ (fun _ _ _ => trivial) ?_ 500 trivial
      intro pending c _
      exact (round pending c).imp (fun _ _ _ => by simp) fun _ _ fine => fine

theorem not_raises_addBlock (block : Block) (c : Chain) :
    ¬ Raises bad (addBlock env world block c).1 :=
  not_raises_addBlockWith env world quiet.toTame (not_raises_processOrphans quiet _) block c

end OrphanLoop

end Lyrion.Node
