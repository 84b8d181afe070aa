/- GID: Lyrion/Node/OrphanPool
   digest: The size of the orphan pool after every call, those made within other calls included. -/

import Lyrion.Node.Orphans

set_option autoImplicit false
set_option relaxedAutoImplicit false

namespace Lyrion.Node

open Library.Runs Data Utils Tx

variable {block : Block} {pending : List Orphan} {orphans : Chain → Result Unit × Chain}

section Returns

variable (env : Env) (world : World)

/-- The states in which the calls of one round return, and before each of them those of the calls
within it. -/
def roundReturns (add : Block → Chain → Result Bool × Chain) (within : Block → Chain → List Chain) :
    List Orphan → Chain → List Chain
  | [], _ => []
  | x :: rest, c =>
      within x.block c ++
        match add x.block c with
        | (.error _, _) => []
        | (.ok _, c) => roundReturns add within rest c

def roundsReturns (add : Block → Chain → Result Bool × Chain)
    (within : Block → Chain → List Chain) : Nat → List Orphan → Chain → List Chain
  | 0, _, _ => []
  | depth + 1, pending, c =>
      if pending.isEmpty then []
      else
        roundReturns add within pending c ++
          match orphanRound add pending false [] c with
          | (.ok (true, next), c) => roundsReturns add within depth next c
          | _ => []

/-- The states in which `add_block` and the calls within it return. -/
def addReturns (orphans : Chain → Result Unit × Chain) (within : Chain → List Chain)
    (block : Block) (c : Chain) : List Chain :=
  (match submit env world block c with
    | (.ok (.accepted _ _), c) => within c
    | _ => []) ++ [(addBlockWith env world orphans block c).2]

/-- The states in which `process_orphans` and the calls within it return. -/
def processReturns : Nat → Chain → List Chain
  | 0, _ => []
  | fuel + 1, c =>
      roundsReturns (addBlockWith env world (processOrphans env world fuel))
          (addReturns env world (processOrphans env world fuel) (processReturns fuel)) 500
          (drained world c) { c with tick := c.tick + 1, orphanBlocks := [] } ++
        [(processOrphans env world (fuel + 1) c).2]

inductive PoolCall
  | addBlock (block : Block)
  | processOrphans

def PoolCall.after (c : Chain) : PoolCall → Chain
  | .addBlock block => (Node.addBlock env world block c).2
  | .processOrphans => (Node.processOrphans env world (c.orphanBlocks.length + 1) c).2

def PoolCall.returns (c : Chain) : PoolCall → List Chain
  | .addBlock block =>
      addReturns env world (Node.processOrphans env world (c.orphanBlocks.length + 2))
        (processReturns env world (c.orphanBlocks.length + 2)) block c
  | .processOrphans => processReturns env world (c.orphanBlocks.length + 1) c

def runReturns : Chain → List PoolCall → List Chain
  | _, [] => []
  | c, call :: calls =>
      call.returns env world c ++ runReturns (call.after env world c) calls

end Returns

section Pools

variable {env : Env} {world : World} {S : Finset Hash} {pool : List Orphan}

/-- The pool is one that a hash map with these keys can hold, filed by header hash. -/
def PoolIn (env : Env) (S : Finset Hash) (c : Chain) : Prop := Inside env S c.orphanBlocks

def FiledIn (env : Env) (S : Finset Hash) (xs : List Orphan) : Prop :=
  ∀ x ∈ xs, x.hash ∈ S ∧ headerHash env x.block.header = .ok x.hash

private theorem Inside.keys (within : Inside env S pool) :
    ∃ T : Finset Hash, T.card ≤ pool.length ∧ Inside env T pool := by
  refine ⟨(pool.map Orphan.hash).toFinset, ?_, within.distinct, ?_, within.keyed⟩
  · exact (List.toFinset_card_le _).trans (List.length_map _).le
  · intro x member
    exact List.mem_toFinset.mpr (List.mem_map_of_mem member)

private theorem oldest_eq_none {xs : List Orphan} : oldest xs = none ↔ xs = [] := by
  cases xs with
  | nil => simp [oldest]
  | cons x rest =>
      simp only [oldest, reduceCtorEq, iff_false]
      cases oldest rest with
      | none => simp
      | some y =>
          simp only
          split <;> simp

private theorem mem_of_oldest {xs : List Orphan} {victim : Orphan}
    (found : oldest xs = some victim) :
    victim ∈ xs := by
  induction xs with
  | nil => simp [oldest] at found
  | cons x rest ih =>
      cases later : oldest rest with
      | none =>
          simp only [oldest, later, Option.some.injEq] at found
          exact found ▸ List.mem_cons_self
      | some y =>
          simp only [oldest, later] at found
          split at found
          · obtain rfl := Option.some.inj found
            exact List.mem_cons_self
          · obtain rfl := Option.some.inj found
            exact List.mem_cons_of_mem x (ih later)

private theorem length_trimOrphans_le (world : World) (tick : Nat) (few : pool.length ≤ 501) :
    (trimOrphans world tick pool).length ≤ 500 := by
  unfold trimOrphans
  split
  · rename_i many
    have order := world.drain_perm tick pool
    split
    · rename_i victim found
      have member : victim ∈ pool := order.mem_iff.mp (mem_of_oldest found)
      have shorter : (pool.filter fun x => decide (x.hash ≠ victim.hash)).length < pool.length :=
        List.length_filter_lt_length_iff_exists.mpr ⟨victim, member, by simp⟩
      omega
    · rename_i missing
      have empty := order.length_eq
      rw [oldest_eq_none.mp missing, List.length_nil] at empty
      omega
  · omega

private theorem length_insertOrphan_le (pool : List Orphan) (entry : Orphan) :
    (insertOrphan pool entry).length ≤ pool.length + 1 := by
  rw [insertOrphan, List.length_append, List.length_singleton]
  exact Nat.add_le_add_right (List.length_filter_le _ _) 1

end Pools

section Keeping

variable {env : Env} {world : World} {S : Finset Hash}

private theorem PoolIn.submit (world : World) {c : Chain} (holds : PoolIn env S c)
    (fits : ∀ hash, headerHash env block.header = .ok hash → hash ∈ S) :
    PoolIn env S (submit env world block c).2 := by
  have cases := submit_cases env world block c
  generalize Node.submit env world block c = result at cases
  cases cases with
  | unhashed e failed => exact holds
  | known hash hashed there => exact holds
  | orphan hash hashed fresh lost =>
      exact (Inside.insert holds (fits hash hashed) hashed).sublist (trimOrphans_sublist world _ _)
  | child hash hashed fresh prevHeight parent =>
      unfold PoolIn
      rw [connectNew_pool]
      exact holds

private theorem addBlockWith_keeps {Inv : Chain → Prop} (loop : ∀ c, Inv c → Inv (orphans c).2)
    {c : Chain} (submitted : Inv (submit env world block c).2) :
    Inv (addBlockWith env world orphans block c).2 := by
  refine post_state.mp (addBlockWith_rule (fun _ => Inv) (fun _ => Inv) (fun _ => Inv) ?_ ?_ ?_)
  · refine (post_state.mpr submitted).imp ?_ fun _ _ inv => inv
    intro result c' inv
    cases result <;> exact inv
  · intro reorg c' inv
    exact post_state.mpr (loop c' inv)
  · intro reorg c' e inv _
    exact inv

variable {add : Block → Chain → Result Bool × Chain} {within : Block → Chain → List Chain}

private theorem orphanRound_keeps
    (call : ∀ x c, FiledIn env S [x] → PoolIn env S c → PoolIn env S (add x.block c).2)
    (filed : FiledIn env S pending) {c : Chain} (holds : PoolIn env S c) :
    Post (fun result c' => PoolIn env S c' ∧ FiledIn env S result.2) (fun _ c' => PoolIn env S c')
      (orphanRound add pending false [] c) := by
  refine (orphanRound_rule (fun _ next pending c =>
    PoolIn env S c ∧ FiledIn env S next ∧ FiledIn env S pending) _ ?_ pending
      ⟨holds, by simp [FiledIn], filed⟩).imp ?_ fun _ _ kept => kept
  · rintro added next x pending c ⟨holds, kept, waiting⟩
    obtain ⟨here, later⟩ := List.forall_mem_cons.mp waiting
    have single : FiledIn env S [x] := List.forall_mem_singleton.mpr here
    refine (post_state.mpr (call x c single holds)).imp ?_ fun _ _ holds => holds
    intro ok c' holds
    refine ⟨holds, ?_, later⟩
    cases ok with
    | true => exact kept
    | false => exact List.forall_mem_append.mpr ⟨kept, single⟩
  · rintro result c' ⟨holds, kept, -⟩
    exact ⟨holds, kept⟩

private theorem orphanRounds_keeps
    (call : ∀ x c, FiledIn env S [x] → PoolIn env S c → PoolIn env S (add x.block c).2)
    (depth : Nat) (filed : FiledIn env S pending) {c : Chain} (holds : PoolIn env S c) :
    Post (fun left c' => PoolIn env S c' ∧ FiledIn env S left) (fun _ c' => PoolIn env S c')
      (orphanRounds add depth pending c) := by
  refine orphanRounds_rule (fun pending c => PoolIn env S c ∧ FiledIn env S pending) _ _
    (fun _ _ kept => kept) ?_ depth ⟨holds, filed⟩
  rintro pending c ⟨holds, filed⟩
  refine (orphanRound_keeps call filed holds).imp ?_ fun _ _ kept => kept
  intro result c' kept
  simpa using kept

private theorem PoolIn.drained (world : World) {c : Chain} (holds : PoolIn env S c) :
    FiledIn env S (drained world c) := by
  intro x member
  have inside := mem_of_mem_drained member
  exact ⟨Inside.inside holds x inside, Inside.keyed holds x inside⟩

private theorem fits_of_filedIn {x : Orphan} (filed : FiledIn env S [x]) (hash : Hash)
    (hashed : headerHash env x.block.header = .ok hash) : hash ∈ S := by
  obtain ⟨member, keyed⟩ := filed x List.mem_cons_self
  obtain rfl := Except.ok.inj (keyed.symm.trans hashed)
  exact member

variable (world) in
private theorem PoolIn.processOrphans (fuel : Nat) {c : Chain} (holds : PoolIn env S c) :
    PoolIn env S (processOrphans env world fuel c).2 := by
  induction fuel generalizing c with
  | zero => exact holds
  | succ fuel ih =>
      have call (x : Orphan) (c : Chain) (filed : FiledIn env S [x]) (holds : PoolIn env S c) :
          PoolIn env S (addBlockWith env world (Node.processOrphans env world fuel) x.block c).2 :=
        addBlockWith_keeps (fun _ => ih) (holds.submit world (fits_of_filedIn filed))
      have rounds := orphanRounds_keeps call 500 (holds.drained world)
        (c := { c with tick := c.tick + 1, orphanBlocks := [] }) inside_nil
      refine post_state.mp ((processOrphans_rule _ (fun _ c' => PoolIn env S c') _ rounds ?_).imp
        ?_ fun _ _ kept => kept)
      · rintro left c' ⟨kept, filed⟩
        exact Inside.refile kept _ (fun x member => (filed x member).1)
          fun x member => (filed x member).2
      · rintro _ c' ⟨-, kept⟩
        exact kept

private theorem roundReturns_holds
    (call : ∀ x c, FiledIn env S [x] → PoolIn env S c →
      PoolIn env S (add x.block c).2 ∧ ∀ d ∈ within x.block c, PoolIn env S d)
    {pending : List Orphan} (filed : FiledIn env S pending) {c : Chain} (holds : PoolIn env S c) :
    ∀ d ∈ roundReturns add within pending c, PoolIn env S d := by
  induction pending generalizing c with
  | nil => simp [roundReturns]
  | cons x pending ih =>
      obtain ⟨here, later⟩ := List.forall_mem_cons.mp filed
      obtain ⟨kept, inner⟩ := call x c (List.forall_mem_singleton.mpr here) holds
      unfold roundReturns
      refine List.forall_mem_append.mpr ⟨inner, ?_⟩
      generalize add x.block c = result at kept
      obtain ⟨e | ok, c'⟩ := result
      · simp
      · exact ih later kept

private theorem roundsReturns_holds
    (call : ∀ x c, FiledIn env S [x] → PoolIn env S c →
      PoolIn env S (add x.block c).2 ∧ ∀ d ∈ within x.block c, PoolIn env S d)
    (depth : Nat) {pending : List Orphan} (filed : FiledIn env S pending) {c : Chain}
    (holds : PoolIn env S c) : ∀ d ∈ roundsReturns add within depth pending c, PoolIn env S d := by
  induction depth generalizing pending c with
  | zero => simp [roundsReturns]
  | succ depth ih =>
      unfold roundsReturns
      split
      · simp
      · refine List.forall_mem_append.mpr ⟨roundReturns_holds call filed holds, ?_⟩
        have round := orphanRound_keeps (fun x c filed holds => (call x c filed holds).1) filed
          holds
        generalize orphanRound add pending false [] c = result at round
        obtain ⟨e | ⟨_ | _, next⟩, c'⟩ := result
        · simp
        · simp
        · exact ih round.2 round.1

private theorem addReturns_holds {inner : Chain → List Chain}
    (loop : ∀ c, PoolIn env S c → PoolIn env S (orphans c).2 ∧ ∀ d ∈ inner c, PoolIn env S d)
    {c : Chain} (submitted : PoolIn env S (submit env world block c).2) :
    ∀ d ∈ addReturns env world orphans inner block c, PoolIn env S d := by
  have last := addBlockWith_keeps (fun c holds => (loop c holds).1) submitted
  unfold addReturns
  refine List.forall_mem_append.mpr ⟨?_, List.forall_mem_singleton.mpr last⟩
  generalize Node.submit env world block c = result at submitted
  obtain ⟨e | (_ | _ | ⟨height, reorg⟩), c'⟩ := result
  · simp
  · simp
  · simp
  · exact (loop c' submitted).2

variable (world) in
private theorem processReturns_holds (fuel : Nat) {c : Chain} (holds : PoolIn env S c) :
    ∀ d ∈ processReturns env world fuel c, PoolIn env S d := by
  induction fuel generalizing c with
  | zero => simp [processReturns]
  | succ fuel ih =>
      have loop (c : Chain) (holds : PoolIn env S c) :
          PoolIn env S (Node.processOrphans env world fuel c).2 ∧
            ∀ d ∈ processReturns env world fuel c, PoolIn env S d :=
        ⟨holds.processOrphans world fuel, ih holds⟩
      unfold processReturns
      refine List.forall_mem_append.mpr ⟨?_, List.forall_mem_singleton.mpr
        (holds.processOrphans world (fuel + 1))⟩
      refine roundsReturns_holds ?_ 500 (holds.drained world) inside_nil
      intro x c filed holds
      have submitted := holds.submit world (fits_of_filedIn filed)
      exact ⟨addBlockWith_keeps (fun c holds => (loop c holds).1) submitted,
        addReturns_holds loop submitted⟩

end Keeping

section Bound

variable {env : Env} {world : World} {c : Chain}

def Bounded (env : Env) (c : Chain) : Prop := ∃ S : Finset Hash, S.card ≤ 500 ∧ PoolIn env S c

private theorem Bounded.length_le (bounded : Bounded env c) : c.orphanBlocks.length ≤ 500 := by
  obtain ⟨S, few, holds⟩ := bounded
  exact (Inside.length_le holds).trans few

private theorem Bounded.submit_orphan (bounded : Bounded env c)
    (lost : (submit env world block c).1 = .ok .orphan) :
    Bounded env (submit env world block c).2 := by
  obtain ⟨S, few, holds⟩ := bounded
  rcases (submit_filed block c).of_ok lost with kept | ⟨-, hash, tick, time, hashed, filed⟩
  · exact ⟨S, few, by unfold PoolIn; rwa [kept]⟩
  · have entered : Inside env (insert hash S) (insertOrphan c.orphanBlocks ⟨hash, block, time⟩) :=
      (Inside.mono holds (Finset.subset_insert hash S)).insert (Finset.mem_insert_self hash S)
        hashed
    have size : (insertOrphan c.orphanBlocks ⟨hash, block, time⟩).length ≤ 501 := by
      have before := (Inside.length_le holds).trans few
      have grown := length_insertOrphan_le c.orphanBlocks ⟨hash, block, time⟩
      omega
    obtain ⟨T, card, inside⟩ := (entered.sublist (trimOrphans_sublist world tick _)).keys
    refine ⟨T, card.trans (length_trimOrphans_le world tick size), ?_⟩
    unfold PoolIn
    rwa [filed]

private theorem addReturns_of_orphan {inner : Chain → List Chain}
    (lost : (submit env world block c).1 = .ok .orphan) :
    addReturns env world orphans inner block c = [(submit env world block c).2] := by
  rw [addReturns, addBlockWith_eq]
  generalize submit env world block c = result at lost
  obtain ⟨r, c'⟩ := result
  obtain rfl : r = .ok .orphan := lost
  rfl

variable (env world) in
private theorem Bounded.returns (bounded : Bounded env c) (call : PoolCall) :
    ∀ d ∈ call.returns env world c, Bounded env d := by
  obtain ⟨S, few, holds⟩ := bounded
  cases call with
  | processOrphans =>
      intro d member
      exact ⟨S, few, processReturns_holds world _ holds d member⟩
  | addBlock block =>
      by_cases lost : (submit env world block c).1 = .ok .orphan
      · have waiting := Bounded.submit_orphan ⟨S, few, holds⟩ lost
        rw [PoolCall.returns, addReturns_of_orphan lost]
        exact List.forall_mem_singleton.mpr waiting
      · have kept : PoolIn env S (submit env world block c).2 := by
          unfold PoolIn
          rwa [submit_pool_of_ne lost]
        have loop (c' : Chain) (holds : PoolIn env S c') := And.intro
          (holds.processOrphans world (c.orphanBlocks.length + 2))
          (processReturns_holds world (c.orphanBlocks.length + 2) holds)
        intro d member
        exact ⟨S, few, addReturns_holds loop kept d member⟩

variable (env world) in
private theorem after_mem_returns (call : PoolCall) :
    call.after env world c ∈ call.returns env world c := by
  cases call with
  | addBlock block => exact List.mem_append_right _ (List.mem_singleton_self _)
  | processOrphans => exact List.mem_append_right _ (List.mem_singleton_self _)

private theorem Bounded.runReturns (bounded : Bounded env c) (calls : List PoolCall) :
    ∀ d ∈ runReturns env world c calls, Bounded env d := by
  induction calls generalizing c with
  | nil => simp [Node.runReturns]
  | cons call calls ih =>
      have returned := Bounded.returns env world bounded call
      exact List.forall_mem_append.mpr
        ⟨returned, ih (returned _ (after_mem_returns env world call))⟩

end Bound

/-- From an empty pool on, after every call of `add_block` and `process_orphans` and after every
call that these make, the pool holds at most 500 blocks. -/
theorem orphan_pool_bounded (env : Env) (world : World) (c : Chain) (calls : List PoolCall)
    (d : Chain) (returned : d ∈ runReturns env world { c with orphanBlocks := [] } calls) :
    d.orphanBlocks.length ≤ 500 := by
  have empty : Bounded env { c with orphanBlocks := [] } := ⟨∅, by simp, inside_nil⟩
  exact (empty.runReturns calls d returned).length_le

theorem sample_pool_bounded :
    ((runReturns sampleEnv sampleWorld (sampleWaiting []) [.addBlock sampleStray,
        .processOrphans]).map fun d => d.orphanBlocks.length) = [1, 1, 1] ∧
      (addBlock sampleEnv sampleWorld sampleStray (sampleWaiting [])).2.orphanBlocks.length ≤
        500 := by
  refine ⟨by decide +kernel, ?_⟩
  exact orphan_pool_bounded sampleEnv sampleWorld (sampleWaiting []) [.addBlock sampleStray] _
    (List.mem_append_left _ (after_mem_returns sampleEnv sampleWorld (.addBlock sampleStray)))

end Lyrion.Node
