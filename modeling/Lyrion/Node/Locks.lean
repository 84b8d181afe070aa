/- GID: Lyrion/Node/Locks
   digest: The node's state lock, which is not re-entrant, and when add_block waits for itself. -/

import Lyrion.Node.OrphanDepth
import Lyrion.Node.Reorg

set_option autoImplicit false
set_option relaxedAutoImplicit false

namespace Lyrion.Node

open Library.ByteCodec Library.KeyValue Data Utils Tx

namespace Locked

/-! The calls under the lock. -/

variable (env : Env) (world : World)

def submit (held : Bool) (block : Block) (c : Chain) : Option (Result Submitted × Chain) :=
  Locking.submit env world held block c

def processOrphans (fuel : Nat) (held : Bool) (c : Chain) : Option (Result Unit × Chain) :=
  Locking.processOrphans env world fuel held c

def addBlock (block : Block) (c : Chain) : Option (Result Bool × Chain) :=
  Locking.addBlock env world block c

theorem addBlockWith_free (loop : Bool → Chain → Option (Result Unit × Chain)) (block : Block)
    (c : Chain) :
    Locking.addBlockWith env world loop false block c =
      submit env world true block c >>= fun
      | (.error e, c) => some (.error e, c)
      | (.ok (.accepted height reorg), c) =>
          loop true c >>= fun
          | (.error e, c) => some (.error e, c)
          | (.ok (), c) =>
              if height % 1000 = 0 then some ((validateState c).map fun _ => reorg, c)
              else some (.ok reorg, c)
      | (.ok _, c) => some (.ok false, c) :=
  rfl

theorem processOrphans_succ (fuel : Nat) (held : Bool) (c : Chain) :
    processOrphans env world (fuel + 1) held c =
      Locking.orphanRounds (Locking.addBlockWith env world (processOrphans env world fuel) held) 500
          (drained world c) { c with tick := c.tick + 1, orphanBlocks := [] } >>= fun
      | (.error e, c) => some (.error e, c)
      | (.ok left, c) => some (.ok (), { c with
          tick := c.tick + 1
          orphanBlocks := refiled (world.outside c.tick).instant left c.orphanBlocks }) :=
  rfl

end Locked

section Refinement

variable {α β : Type}

/-- A call waits for ever, or it does what the model without locks does. -/
def Follows (x : Option α) (y : α) : Prop :=
  x = none ∨ x = some y

private theorem follows_some (y : α) : Follows (some y) y := Or.inr rfl

private theorem Follows.lock {x : Option α} {y : α} (follows : Follows x y) (held : Bool) :
    Follows (StateLock.lock held x) y := by
  cases held with
  | false => exact follows
  | true => exact Or.inl rfl

private theorem Follows.bind {x : Option α} {y : α} {f : α → Option β} {z : β}
    (follows : Follows x y) (next : Follows (f y) z) : Follows (x >>= f) z := by
  rcases follows with rfl | rfl
  · exact Or.inl rfl
  · exact next

variable (env : Env) (world : World)

private theorem applyBlockAction_follows (held : Bool) (o : Outside) (block : Block) (height : Nat)
    (action : BlockAction) (isBest : Bool) (work : Nat) (batch : DbBatch) (c : Chain) :
    Follows (Locking.applyBlockAction (m := Option) env held o block height action isBest work
        batch c)
      (applyBlockAction env o block height action isBest work batch c) := by
  refine Follows.lock ?_ held
  unfold applyBlockAction Locking.applyBlockAction
  simp only [lock_aside, pure_aside, bind_aside]
  split
  · exact follows_some _
  · split
    · exact follows_some _
    · cases headerHash env block.header with
      | error e => exact follows_some _
      | ok hash =>
          simp only
          cases applyUtxoChanges env c.db c.state.utxoSetHash c.state.totalSupply block height
              (action = .connect) batch with
          | error e => exact follows_some _
          | ok acc =>
              simp only
              split
              · exact follows_some _
              · split
                · split
                  · exact Or.inl rfl
                  · exact follows_some _
                · exact follows_some _

private theorem connectNew_follows (held : Bool) (o : Outside) (block : Block) (prevHeight : Nat)
    (c : Chain) :
    Follows (Locking.connectNew (m := Option) env held o block prevHeight c)
      (connectNew env o block prevHeight c) := by
  unfold connectNew Locking.connectNew
  simp only [pure_aside, bind_aside]
  cases validateBlock env c.db c.bestHeight o.nowMs block (prevHeight + 1) with
  | error e => exact follows_some _
  | ok done =>
      cases compactToTarget block.header.bits with
      | error e => exact follows_some _
      | ok target =>
          simp only
          split
          · split
            · exact follows_some _
            · split <;> exact follows_some _
          · exact (applyBlockAction_follows env held o block _ _ _ _ _ c).bind (follows_some _)

theorem submit_follows (held : Bool) (block : Block) (c : Chain) :
    Follows (Locked.submit env world held block c) (submit env world block c) := by
  unfold Locked.submit submit Locking.submit
  simp only [pure_aside]
  cases headerHash env block.header with
  | error e => exact follows_some _
  | ok hash =>
      simp only
      split
      · exact follows_some _
      · cases c.state.hashToHeight.lookup block.header.prevHash with
        | none => exact follows_some _
        | some prevHeight => exact connectNew_follows env held _ block prevHeight _

private theorem addBlockWith_follows {locked : Bool → Chain → Option (Result Unit × Chain)}
    {orphans : Chain → Result Unit × Chain}
    (loop : ∀ held c, Follows (locked held c) (orphans c)) (held : Bool) (block : Block)
    (c : Chain) :
    Follows (Locking.addBlockWith env world locked held block c)
      (addBlockWith env world orphans block c) := by
  refine Follows.lock ((submit_follows env world true block c).bind ?_) held
  rw [addBlockWith_eq]
  generalize submit env world block c = result
  obtain ⟨e | (_ | _ | ⟨height, reorg⟩), c⟩ := result
  · exact follows_some _
  · exact follows_some _
  · exact follows_some _
  · refine (loop true c).bind ?_
    simp only
    generalize orphans c = result
    obtain ⟨e | done, c⟩ := result
    · exact follows_some _
    · simp only
      split <;> exact follows_some _

private theorem orphanRound_follows {locked : Block → Chain → Option (Result Bool × Chain)}
    {add : Block → Chain → Result Bool × Chain}
    (adding : ∀ block c, Follows (locked block c) (add block c)) (pending : List Orphan)
    (added : Bool) (next : List Orphan) (c : Chain) :
    Follows (Locking.orphanRound locked pending added next c)
      (orphanRound add pending added next c) := by
  induction pending generalizing added next c with
  | nil => exact follows_some _
  | cons x pending ih =>
      refine (adding x.block c).bind ?_
      rw [orphanRound_cons]
      generalize add x.block c = result
      obtain ⟨e | (_ | _), c⟩ := result
      · exact follows_some _
      · exact ih added (next ++ [x]) c
      · exact ih true next c

private theorem orphanRounds_follows {locked : Block → Chain → Option (Result Bool × Chain)}
    {add : Block → Chain → Result Bool × Chain}
    (adding : ∀ block c, Follows (locked block c) (add block c)) (depth : Nat)
    (pending : List Orphan) (c : Chain) :
    Follows (Locking.orphanRounds locked depth pending c) (orphanRounds add depth pending c) := by
  induction depth generalizing pending c with
  | zero => exact follows_some _
  | succ depth ih =>
      rw [Locking.orphanRounds, orphanRounds_succ]
      split
      · exact follows_some _
      · refine (orphanRound_follows adding pending false [] c).bind ?_
        generalize orphanRound add pending false [] c = result
        obtain ⟨e | ⟨_ | _, rest⟩, c⟩ := result
        · exact follows_some _
        · exact follows_some _
        · exact ih rest c

theorem processOrphans_follows (fuel : Nat) (held : Bool) (c : Chain) :
    Follows (Locked.processOrphans env world fuel held c) (processOrphans env world fuel c) := by
  induction fuel generalizing held c with
  | zero => exact follows_some _
  | succ fuel ih =>
      rw [Locked.processOrphans_succ, processOrphans_succ]
      refine (orphanRounds_follows (addBlockWith_follows env world ih held) 500 _ _).bind ?_
      generalize orphanRounds (addBlockWith env world (processOrphans env world fuel)) 500
        (drained world c) { c with tick := c.tick + 1, orphanBlocks := [] } = result
      obtain ⟨e | left, c⟩ := result
      · exact follows_some _
      · exact follows_some _

private theorem addBlock_follows (block : Block) (c : Chain) :
    Follows (Locked.addBlock env world block c) (addBlock env world block c) :=
  addBlockWith_follows env world (processOrphans_follows env world _) false block c

end Refinement

section Waiting

variable {env : Env} {world : World}

variable (env world) in
/-- A valid new child of an indexed block that brings no more work than the tip has: the blocks
that `add_block` hands to `apply_block_action`. -/
def GoesAside (block : Block) (c : Chain) : Prop :=
  ∃ hash prevHeight target, headerHash env block.header = .ok hash ∧
    hash ∉ c.state.hashToHeight ∧
    c.state.hashToHeight.lookup block.header.prevHash = some prevHeight ∧
    validateBlock env c.db c.bestHeight (world.outside c.tick).nowMs block (prevHeight + 1) =
      .ok () ∧
    compactToTarget block.header.bits = .ok target ∧
    newWork c prevHeight target ≤ currentWork c

private theorem connectNew_waits_iff (o : Outside) (block : Block) (prevHeight : Nat) (c : Chain) :
    Locking.connectNew (m := Option) env true o block prevHeight c = none ↔
      validateBlock env c.db c.bestHeight o.nowMs block (prevHeight + 1) = .ok () ∧
        ∃ target, compactToTarget block.header.bits = .ok target ∧
          newWork c prevHeight target ≤ currentWork c := by
  unfold Locking.connectNew
  cases validateBlock env c.db c.bestHeight o.nowMs block (prevHeight + 1) with
  | error e => simp
  | ok done =>
      cases compactToTarget block.header.bits with
      | error e => simp
      | ok target =>
          simp only [true_and, Except.ok.injEq, exists_eq_left']
          by_cases more : newWork c prevHeight target > currentWork c
          · have beyond : ¬ newWork c prevHeight target ≤ currentWork c := Nat.not_le.mpr more
            simp only [newWork, currentWork] at more beyond ⊢
            rw [if_pos more]
            split
            · simp [beyond]
            · split <;> simp [beyond]
          · have less : newWork c prevHeight target ≤ currentWork c := Nat.not_lt.mp more
            simp only [newWork, currentWork] at more less ⊢
            rw [if_neg more]
            simp [Locking.applyBlockAction, StateLock.lock, less]

theorem submit_waits_iff (block : Block) (c : Chain) :
    Locked.submit env world true block c = none ↔ GoesAside env world block c := by
  unfold Locked.submit Locking.submit GoesAside
  cases headerHash env block.header with
  | error e => simp
  | ok hash =>
      simp only [Except.ok.injEq, exists_and_left, exists_eq_left']
      by_cases there : hash ∈ c.state.hashToHeight
      · simp [there]
      · simp only [there, if_false, not_false_eq_true, true_and]
        cases c.state.hashToHeight.lookup block.header.prevHash with
        | none => simp
        | some prevHeight =>
            simp only [connectNew_waits_iff, Option.some.injEq, exists_eq_left']
            exact Iff.rfl

theorem locked_submit_eq_some {block : Block} {c : Chain} {r : Result Submitted × Chain} :
    Locked.submit env world true block c = some r ↔
      r = submit env world block c ∧ ¬ GoesAside env world block c := by
  rw [← submit_waits_iff]
  rcases submit_follows env world true block c with waits | same
  · simp [waits]
  · simp [same, eq_comm]

variable (env world) in
/-- The blocks that nothing but a failing clock or write keeps `add_block` from saving: valid new
children of an indexed block with more work than the tip has, not too far below it, for which the
batch of the reorganisation can be built. -/
def Deserves (block : Block) (c : Chain) : Prop :=
  ∃ hash prevHeight target batch, headerHash env block.header = .ok hash ∧
    hash ∉ c.state.hashToHeight ∧
    c.state.hashToHeight.lookup block.header.prevHash = some prevHeight ∧
    validateBlock env c.db c.bestHeight (world.outside c.tick).nowMs block (prevHeight + 1) =
      .ok () ∧
    compactToTarget block.header.bits = .ok target ∧ currentWork c < newWork c prevHeight target ∧
    c.bestHeight - prevHeight ≤ reorgMaxDepth ∧
    reorgBatch env c.db c.state.utxoSetHash c.state.totalSupply prevHeight
      (c.bestHeight - prevHeight) block = .ok batch

variable (env world) in
def Saves (block : Block) (c : Chain) : Prop :=
  Deserves env world block c ∧ Working (world.outside c.tick)

theorem locked_submit_accepted_iff (block : Block) (c : Chain) :
    (∃ height reorg c', Locked.submit env world true block c =
      some (.ok (.accepted height reorg), c')) ↔ Saves env world block c := by
  constructor
  · rintro ⟨height, reorg, c', submitted⟩
    obtain ⟨same, ahead⟩ := locked_submit_eq_some.mp submitted
    have accepted := congrArg Prod.fst same.symm
    have cases := submit_cases env world block c
    generalize submit env world block c = result at cases accepted
    cases cases with
    | unhashed e failed => exact absurd accepted (by simp)
    | known hash hashed there => exact absurd accepted (by simp)
    | orphan hash hashed fresh parentless => exact absurd accepted (by simp)
    | child hash hashed fresh prevHeight parent =>
        cases valid : validateBlock env c.db c.bestHeight (world.outside c.tick).nowMs block
            (prevHeight + 1) with
        | error e => exact absurd accepted (by simp [connectNew, Locking.connectNew, valid])
        | ok done =>
            cases compact : compactToTarget block.header.bits with
            | error e =>
                exact absurd accepted (by simp [connectNew, Locking.connectNew, valid, compact])
            | ok target =>
                have more : currentWork c < newWork c prevHeight target := Nat.lt_of_not_le
                  fun less => ahead ⟨hash, prevHeight, target, hashed, fresh, parent, valid,
                    compact, less⟩
                obtain ⟨depth, working, batch, built⟩ :=
                  (connectNew_accepted_iff (c := { c with tick := c.tick + 1 }) hashed valid compact
                    more).mp ⟨height, reorg, accepted⟩
                exact ⟨⟨hash, prevHeight, target, batch, hashed, fresh, parent, valid, compact,
                  more, depth, built⟩, working⟩
  · rintro ⟨⟨hash, prevHeight, target, batch, hashed, fresh, parent, valid, compact, more, depth,
      built⟩, working⟩
    obtain ⟨height, reorg, accepted⟩ :=
      (connectNew_accepted_iff (c := { c with tick := c.tick + 1 }) hashed valid compact more).mpr
        ⟨depth, working, batch, built⟩
    have submitted : submit env world block c = connectNew env (world.outside c.tick) block
        prevHeight { c with tick := c.tick + 1 } := by
      simp only [submit, Locking.submit, hashed, fresh, if_false, parent]
      rfl
    refine ⟨height, reorg, (submit env world block c).2, locked_submit_eq_some.mpr ⟨?_, ?_⟩⟩
    · exact Prod.ext (by rw [submitted, accepted]) rfl
    · rintro ⟨_, other, other', -, -, parent', -, compact', less⟩
      obtain rfl := Option.some.inj (parent.symm.trans parent')
      obtain rfl := Except.ok.inj (compact.symm.trans compact')
      exact absurd less (Nat.not_le.mpr more)

/-- What `add_block` under its lock leaves in memory. Of the two ways to connect a block, the one
that updates the indexes and the tip waits for ever; the other one moves the best height alone. -/
inductive Filed (block : Block) (c : Chain) : Result Submitted × Chain → Prop
  | refused (r : Result Submitted) (c' : Chain)
      (unaccepted : ∀ height reorg, r ≠ .ok (.accepted height reorg)) (state : c'.state = c.state)
      (tip : c'.bestTip = c.bestTip) (saved : c'.saved = c.saved)
      (height : c'.bestHeight = c.bestHeight ∨ ∃ prevHeight,
        c.state.hashToHeight.lookup block.header.prevHash = some prevHeight ∧
          c'.bestHeight = prevHeight + 1) : Filed block c (r, c')
  | accepted (prevHeight : Nat) (c' : Chain) (state : c'.state = c.state)
      (parent : c.state.hashToHeight.lookup block.header.prevHash = some prevHeight)
      (tip : c'.bestTip = c.bestTip) (saved : c'.saved = (prevHeight + 1, block) :: c.saved)
      (height : c'.bestHeight = prevHeight + 1) :
      Filed block c (.ok (.accepted (prevHeight + 1) true), c')

theorem locked_submit_filed {block : Block} {c : Chain} {r : Result Submitted × Chain}
    (submitted : Locked.submit env world true block c = some r) : Filed block c r := by
  obtain ⟨rfl, inline⟩ := locked_submit_eq_some.mp submitted
  have cases := submit_cases env world block c
  generalize submit env world block c = result at cases
  cases cases with
  | unhashed e failed => exact .refused _ _ (by simp) rfl rfl rfl (Or.inl rfl)
  | known hash hashed there => exact .refused _ _ (by simp) rfl rfl rfl (Or.inl rfl)
  | orphan hash hashed fresh parentless => exact .refused _ _ (by simp) rfl rfl rfl (Or.inl rfl)
  | child hash hashed fresh prevHeight parent =>
      have connection := connectNew_cases env (world.outside c.tick) block
        { c with tick := c.tick + 1 } prevHeight
      generalize connectNew env (world.outside c.tick) block prevHeight
        { c with tick := c.tick + 1 } = result at connection
      cases connection with
      | refused e => exact .refused _ _ (by simp) rfl rfl rfl (Or.inl rfl)
      | lighter target valid compact less r applied =>
          refine absurd ?_ inline
          exact ⟨hash, prevHeight, target, hashed, fresh, parent, valid, compact, less⟩
      | heavier target valid compact more =>
          have course := reorganise_cases env (world.outside c.tick) block
            { c with tick := c.tick + 1 } prevHeight
          generalize reorganise env (world.outside c.tick) block prevHeight
            { c with tick := c.tick + 1 } = result at course
          cases course with
          | stopped e => exact .refused _ _ (by simp) rfl rfl rfl (Or.inl rfl)
          | journalled e id journal => exact .refused _ _ (by simp) rfl rfl rfl (Or.inl rfl)
          | written e id journal batch built =>
              exact .refused _ _ (by simp) rfl rfl rfl (Or.inl rfl)
          | done id journal batch built =>
              simp only [finish]
              generalize moved : { c with
                tick := c.tick + 1
                db := _
                bestHeight := prevHeight + 1 } = after
              have saving := saveBlock_cases env (world.outside c.tick) block after (prevHeight + 1)
              generalize saveBlock env (world.outside c.tick) (prevHeight + 1) block after = result
                at saving
              subst moved
              cases saving with
              | unsaved e =>
                  exact .refused _ _ (by simp) rfl rfl rfl (Or.inr ⟨prevHeight, parent, rfl⟩)
              | saved hash hashed => exact .accepted prevHeight _ rfl parent rfl rfl rfl

theorem submit_pool_of_ne {block : Block} {c : Chain}
    (other : (submit env world block c).1 ≠ .ok .orphan) :
    (submit env world block c).2.orphanBlocks = c.orphanBlocks := by
  have cases := submit_cases env world block c
  generalize submit env world block c = result at cases other
  cases cases with
  | unhashed e failed => rfl
  | known hash hashed there => rfl
  | orphan hash hashed fresh lost => exact absurd rfl other
  | child hash hashed fresh prevHeight parent => exact connectNew_pool _ _ _ _

private theorem orphanRounds_waits_iff {add : Block → Chain → Option (Result Bool × Chain)}
    (waits : ∀ block c, add block c = none) (depth : Nat) (pending : List Orphan) (c : Chain) :
    Locking.orphanRounds add (depth + 1) pending c = none ↔ pending ≠ [] := by
  unfold Locking.orphanRounds
  cases pending with
  | nil => simp
  | cons x rest => simp [Locking.orphanRound, waits]

theorem processOrphans_waits_iff (fuel : Nat) (c : Chain) :
    Locked.processOrphans env world (fuel + 1) true c = none ↔ drained world c ≠ [] := by
  -- The first block that is tried waits for ever.
  have first : Locking.orphanRounds (Locking.addBlockWith env world
      (Locked.processOrphans env world fuel) true) 500 (drained world c)
      { c with tick := c.tick + 1, orphanBlocks := [] } = none ↔ drained world c ≠ [] :=
    orphanRounds_waits_iff (fun _ _ => rfl) 499 _ _
  rw [Locked.processOrphans_succ, ← first]
  generalize Locking.orphanRounds (m := Option) _ _ (drained world c)
    { c with tick := c.tick + 1, orphanBlocks := [] } = result
  rcases result with _ | ⟨e | left, c⟩
  · simp
  · simp
  · simp

private theorem addBlockWith_waits_iff (loop : Bool → Chain → Option (Result Unit × Chain))
    (block : Block) (c : Chain) :
    Locking.addBlockWith env world loop false block c = none ↔
      Locked.submit env world true block c = none ∨
        ∃ height reorg c', Locked.submit env world true block c =
          some (.ok (.accepted height reorg), c') ∧ loop true c' = none := by
  rw [Locked.addBlockWith_free]
  generalize Locked.submit env world true block c = result
  rcases result with _ | ⟨e | (_ | _ | ⟨height, reorg⟩), c'⟩
  · simp
  · simp
  · simp
  · simp
  · cases looped : loop true c' with
    | none => simp [looped]
    | some result =>
        obtain ⟨e | done, c''⟩ := result
        · simp [looped]
        · simp only [bind, Option.bind_some, looped]
          split <;> simp [looped]

/-- `add_block` returns exactly where it neither goes to `apply_block_action` nor, with its block
accepted, to an orphan loop that has something to try. -/
theorem addBlock_returns_iff (env : Env) (world : World) (block : Block) (c : Chain) :
    Locked.addBlock env world block c = some (addBlock env world block c) ↔
      ¬ GoesAside env world block c ∧
        ∀ height reorg c', submit env world block c = (.ok (.accepted height reorg), c') →
          drained world c' = [] := by
  have waits : Locked.addBlock env world block c = none ↔ GoesAside env world block c ∨
      ∃ height reorg c', Locked.submit env world true block c =
        some (.ok (.accepted height reorg), c') ∧ drained world c' ≠ [] := by
    have loops : Locked.addBlock env world block c = none ↔ _ := addBlockWith_waits_iff
      (Locked.processOrphans env world (c.orphanBlocks.length + 2)) block c
    simp only [submit_waits_iff, processOrphans_waits_iff] at loops
    exact loops
  have returns : Locked.addBlock env world block c = some (addBlock env world block c) ↔
      Locked.addBlock env world block c ≠ none := by
    constructor
    · intro same
      rw [same]
      simp
    · exact (addBlock_follows env world block c).resolve_left
  rw [returns, Ne, waits, not_or]
  refine and_congr_right fun stays => ?_
  have submitted : Locked.submit env world true block c = some (submit env world block c) :=
    (submit_follows env world true block c).resolve_left fun none_ =>
      stays ((submit_waits_iff block c).mp none_)
  simp only [submitted, Option.some.injEq, not_exists, not_and, not_not]

/-- A valid block without more work than the tip leaves the chain alone only if it is indexed
already: any other one is handed to `apply_block_action`, and the call never returns. Were the lock
free there, it would change the chain unless something else stops it first. -/
theorem lighter_block_unchanged_iff (env : Env) (world : World) (c : Chain) (block : Block)
    (hash : Hash) (prevHeight target : Nat) (consistent : IndexConsistent c) (stored : TipStored c)
    (hashed : headerHash env block.header = .ok hash)
    (parent : c.state.hashToHeight.lookup block.header.prevHash = some prevHeight)
    (valid : validateBlock env c.db c.bestHeight (world.outside c.tick).nowMs block
      (prevHeight + 1) = .ok ())
    (compact : compactToTarget block.header.bits = .ok target)
    (less : newWork c prevHeight target ≤ currentWork c) :
    ((∃ result after, Locked.addBlock env world block c = some (result, after) ∧
        Unchanged c after) ↔ hash ∈ c.state.hashToHeight) ∧
      ((world.outside c.tick).actionWrite = true → (world.outside c.tick).saveWrite = true →
        (Unchanged c (addBlock env world block c).2 ↔
          hash ∈ c.state.hashToHeight ∨ c.batchPending = true ∨ c.readOnlyMode = true ∨
            ¬ Connectable env c block (prevHeight + 1))) := by
  refine ⟨⟨?_, ?_⟩, lighter_block_aside_iff env world c block hash prevHeight target consistent
    stored hashed parent valid compact less⟩
  · rintro ⟨result, after, returned, -⟩
    by_contra fresh
    have waits : Locked.submit env world true block c = none := (submit_waits_iff block c).mpr
      ⟨hash, prevHeight, target, hashed, fresh, parent, valid, compact, less⟩
    have never : Locked.addBlock env world block c = none := by
      unfold Locked.addBlock Locking.addBlock
      rw [Locked.addBlockWith_free, waits]
      rfl
    exact absurd (never.symm.trans returned) (by simp)
  · intro known
    refine ⟨.ok false, { c with tick := c.tick + 1 }, ?_, Unchanged.of_flags c _ _⟩
    unfold Locked.addBlock Locking.addBlock
    rw [Locked.addBlockWith_free]
    simp [Locked.submit, Locking.submit, hashed, known]

/-- The second child of the genesis block has no more work than the first. The call for it does not
return, and without the lock it would take the place of the first in the database. -/
theorem equal_work_block_not_left :
    IndexConsistent (sampleFork false) ∧ TipStored (sampleFork false) ∧
      (sampleFork false).state.hashToHeight.lookup (sampleRival 2).header.prevHash = some 0 ∧
      validateBlock sampleEnv (sampleFork false).db 1 (some 2000000000000) (sampleRival 2) 1 =
        .ok () ∧
      newWork (sampleFork false) 0 (0xffff * 2 ^ 208) ≤ currentWork (sampleFork false) ∧
      (¬ ∃ result after, Locked.addBlock sampleEnv sampleWorld (sampleRival 2) (sampleFork false) =
        some (result, after) ∧ Unchanged (sampleFork false) after) ∧
      ¬ Unchanged (sampleFork false)
        (addBlock sampleEnv sampleWorld (sampleRival 2) (sampleFork false)).2 := by
  have never : Locked.addBlock sampleEnv sampleWorld (sampleRival 2) (sampleFork false) = none :=
    Option.isNone_iff_eq_none.mp (by decide +kernel)
  refine ⟨sampleFork_consistent false, sampleFork_stored false, by decide +kernel,
    by decide +kernel, by decide +kernel, ?_, ?_⟩
  · rintro ⟨result, after, returned, -⟩
    exact absurd (never.symm.trans returned) (by simp)
  · intro same
    have kept := same.entries tipKey (by simp)
    exact absurd kept (by decide +kernel)

theorem known_child_unchanged :
    ∃ result after, Locked.addBlock sampleEnv sampleWorld (sampleRival 1) (sampleFork false) =
      some (result, after) ∧ Unchanged (sampleFork false) after :=
  (lighter_block_unchanged_iff sampleEnv sampleWorld (sampleFork false) (sampleRival 1)
    (sampleHash (sampleRival 1)) 0 (0xffff * 2 ^ 208) (sampleFork_consistent false)
    (sampleFork_stored false) (by decide +kernel) (by decide +kernel) (by decide +kernel)
    (by decide +kernel) (by decide +kernel)).1.mpr (by decide +kernel)

theorem locked_processOrphans_eq_some {fuel : Nat} {c c' : Chain} {r : Result Unit}
    (returned : Locked.processOrphans env world (fuel + 1) true c = some (r, c')) :
    r = .ok () ∧ c' = { c with tick := c.tick + 2, orphanBlocks := [] } := by
  have nothing : drained world c = [] := by
    by_contra some_
    rw [(processOrphans_waits_iff fuel c).mpr some_] at returned
    exact absurd returned (by simp)
  rw [Locked.processOrphans_succ, nothing] at returned
  obtain ⟨rfl, rfl⟩ := Prod.mk.inj (Option.some.inj returned)
  exact ⟨rfl, rfl⟩

theorem locked_addBlock_saved {block : Block} {c c' c'' : Chain} {height : Nat} {reorg : Bool}
    {result : Result Bool} (accepted : Locked.submit env world true block c =
      some (.ok (.accepted height reorg), c'))
    (returned : Locked.addBlock env world block c = some (result, c'')) :
    c''.saved = c'.saved := by
  unfold Locked.addBlock Locking.addBlock at returned
  rw [Locked.addBlockWith_free, accepted] at returned
  obtain ⟨⟨done, after⟩, looped, ended⟩ :=
    Option.bind_eq_some_iff.mp ((Option.bind_some ..).symm.trans returned)
  obtain ⟨rfl, rfl⟩ := locked_processOrphans_eq_some looped
  simp only at ended
  split at ended
  · rw [← (Prod.mk.inj (Option.some.inj ended)).2]
  · rw [← (Prod.mk.inj (Option.some.inj ended)).2]

section Light

variable (env world) (header : BlockHeader) (c : Chain)

private theorem light_invalid {height : Nat} {nowMs : Option Nat} :
    validateBlock env c.db c.bestHeight nowMs ⟨header, []⟩ height ≠ .ok () := by
  intro valid
  obtain ⟨first, rest, txs, -⟩ := (validateBlock_txs valid).coinbase
  simp at txs

theorem submit_light :
    (∀ height reorg, (submit env world ⟨header, []⟩ c).1 ≠ .ok (.accepted height reorg)) ∧
      (submit env world ⟨header, []⟩ c).2.db = c.db ∧
        (submit env world ⟨header, []⟩ c).2.state = c.state := by
  -- A header alone is filed as an orphan or refused, since a block needs its coinbase.
  have cases := submit_cases env world ⟨header, []⟩ c
  generalize submit env world ⟨header, []⟩ c = result at cases
  cases cases with
  | unhashed e failed => simp
  | known hash hashed there => simp
  | orphan hash hashed fresh parentless => simp
  | child hash hashed fresh prevHeight parent =>
      cases valid : validateBlock env c.db c.bestHeight (world.outside c.tick).nowMs ⟨header, []⟩
          (prevHeight + 1) with
      | error e => simp [connectNew, Locking.connectNew, valid]
      | ok done => exact absurd valid (light_invalid env header c)

theorem locked_submit_light :
    Locked.submit env world true ⟨header, []⟩ c = some (submit env world ⟨header, []⟩ c) := by
  refine locked_submit_eq_some.mpr ⟨rfl, ?_⟩
  rintro ⟨_, _, _, -, -, -, valid, -⟩
  exact light_invalid env header c valid

theorem addBlock_light :
    addBlock env world ⟨header, []⟩ c =
      ((submit env world ⟨header, []⟩ c).1.map fun _ => false,
        (submit env world ⟨header, []⟩ c).2) := by
  have refused := (submit_light env world header c).1
  rw [addBlock, addBlockWith_eq]
  generalize submit env world ⟨header, []⟩ c = result at refused
  obtain ⟨e | (_ | _ | ⟨height, reorg⟩), c'⟩ := result
  · rfl
  · rfl
  · rfl
  · exact absurd rfl (refused height reorg)

theorem locked_addBlock_light :
    Locked.addBlock env world ⟨header, []⟩ c = some (addBlock env world ⟨header, []⟩ c) := by
  refine (addBlock_returns_iff env world ⟨header, []⟩ c).mpr ⟨?_, ?_⟩
  · rintro ⟨_, _, _, -, -, -, valid, -⟩
    exact light_invalid env header c valid
  · intro height reorg c' accepted
    exact absurd (congrArg Prod.fst accepted) ((submit_light env world header c).1 height reorg)

end Light

theorem equal_work_block_waits :
    (sampleFork false).orphanBlocks = [] ∧
      validateBlock sampleEnv (sampleFork false).db 1 (some 2000000000000) (sampleRival 2) 1 =
        .ok () ∧
      Locked.addBlock sampleEnv sampleWorld (sampleRival 2) (sampleFork false) = none :=
  ⟨rfl, by decide +kernel, Option.isNone_iff_eq_none.mp (by decide +kernel)⟩

end Waiting

end Lyrion.Node
