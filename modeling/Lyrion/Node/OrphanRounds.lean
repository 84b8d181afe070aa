/- GID: Lyrion/Node/OrphanRounds
   digest: What one round of the orphan loop does with the blocks that it takes out of the pool. -/

import Lyrion.Node.Locks

set_option autoImplicit false
set_option relaxedAutoImplicit false

namespace Lyrion.Node

open Library.KeyValue Data Utils Tx

/-- `save_block` has filed the block, at some height. -/
def Saved (block : Block) (c : Chain) : Prop :=
  ∃ height, (height, block) ∈ c.saved

def Connected (x : Orphan) (c : Chain) : Prop :=
  x.hash ∈ c.state.hashToHeight ∨ Saved x.block c

def InPool (x : Orphan) (c : Chain) : Prop :=
  ∃ y ∈ c.orphanBlocks, y.hash = x.hash ∧ y.block = x.block

/-- `add_block` has nothing to decide about the block: it is known, or its parent is not. -/
def IsIdle (x : Orphan) (c : Chain) : Prop :=
  x.hash ∈ c.state.hashToHeight ∨ c.state.hashToHeight.lookup x.block.header.prevHash = none

section Attempts

variable {env : Env} {world : World} {fuel : Nat} {x : Orphan} {c : Chain}

variable (env world) in
/-- The call of `add_block` for one of the drained blocks, without the lock. -/
def attempt (fuel : Nat) (block : Block) (c : Chain) : Option (Result Bool × Chain) :=
  Locking.addBlockWith env world (Locked.processOrphans env world fuel) false block c

variable (env world) in
inductive Attempted (x : Orphan) (c : Chain) : Result Bool × Chain → Prop
  | idle (idle : IsIdle x c) (pool : List Orphan)
      (filed : ∀ y ∈ pool, y ∈ c.orphanBlocks ∨ y.hash = x.hash ∧ y.block = x.block) :
      Attempted x c (.ok false, { c with tick := c.tick + 1, orphanBlocks := pool })
  | refused (ready : ¬ IsIdle x c) (unsaved : ¬ Saves env world x.block c) (e : Fault) (c' : Chain)
      (state : c'.state = c.state) (saved : c'.saved = c.saved)
      (pool : c'.orphanBlocks = c.orphanBlocks) : Attempted x c (.error e, c')
  | saved (saves : Saves env world x.block c) (r : Result Bool) (answer : r ≠ .ok false)
      (height : Nat) (c' : Chain) (state : c'.state = c.state)
      (saved : c'.saved = (height, x.block) :: c.saved) (pool : c'.orphanBlocks = []) :
      Attempted x c (r, c')

variable (env world) in
private theorem locked_submit_of_idle (keyed : headerHash env x.block.header = .ok x.hash)
    (idle : IsIdle x c) :
    ∃ result pool, Locked.submit env world true x.block c =
        some (.ok result, { c with tick := c.tick + 1, orphanBlocks := pool }) ∧
      (∀ height reorg, result ≠ .accepted height reorg) ∧
      pool = if x.hash ∈ c.state.hashToHeight then c.orphanBlocks
        else trimOrphans world (c.tick + 1)
          (insertOrphan c.orphanBlocks ⟨x.hash, x.block, (world.outside c.tick).instant⟩) := by
  by_cases there : x.hash ∈ c.state.hashToHeight
  · refine ⟨.known, _, ?_, by simp, rfl⟩
    simp [Locked.submit, Locking.submit, keyed, there]
  · have parentless := idle.resolve_left there
    refine ⟨.orphan, _, ?_, by simp, rfl⟩
    simp [Locked.submit, Locking.submit, keyed, there, parentless]

theorem attempt_of_idle (keyed : headerHash env x.block.header = .ok x.hash) (idle : IsIdle x c) :
    attempt env world fuel x.block c = some (.ok false, { c with
      tick := c.tick + 1
      orphanBlocks := if x.hash ∈ c.state.hashToHeight then c.orphanBlocks
        else trimOrphans world (c.tick + 1)
          (insertOrphan c.orphanBlocks ⟨x.hash, x.block, (world.outside c.tick).instant⟩) }) := by
  obtain ⟨result, pool, submitted, other, same⟩ := locked_submit_of_idle env world keyed idle
  rw [attempt, Locked.addBlockWith_free, submitted, ← same]
  cases result with
  | accepted height reorg => exact absurd rfl (other height reorg)
  | known => rfl
  | orphan => rfl

private theorem submit_of_ready {hash : Hash} {prevHeight : Nat} {block : Block}
    (hashed : headerHash env block.header = .ok hash) (fresh : hash ∉ c.state.hashToHeight)
    (parent : c.state.hashToHeight.lookup block.header.prevHash = some prevHeight)
    {result : Submitted} (submitted : (submit env world block c).1 = .ok result) :
    ∃ height reorg, result = .accepted height reorg := by
  have finished (o : Outside) (height : Nat) (reorg : Bool) (r : Result Unit × Chain)
      (done : (finish env o block height reorg r).1 = .ok result) :
      ∃ height reorg, result = .accepted height reorg := by
    obtain ⟨e | _, d⟩ := r
    · simp [finish] at done
    · simp only [finish] at done
      split at done
      · simp at done
      · exact ⟨height, reorg, (Except.ok.inj done).symm⟩
  have cases := submit_cases env world block c
  generalize submit env world block c = outcome at cases submitted
  cases cases with
  | unhashed e failed => simp at submitted
  | known other hashed' there =>
      obtain rfl := Except.ok.inj (hashed.symm.trans hashed')
      exact absurd there fresh
  | orphan other hashed' fresh' parentless => simp [parent] at parentless
  | child other hashed' fresh' prevHeight parent' =>
      have connection := connectNew_cases env (world.outside c.tick) block
        { c with tick := c.tick + 1 } prevHeight
      generalize connectNew env (world.outside c.tick) block prevHeight
        { c with tick := c.tick + 1 } = outcome at connection submitted
      cases connection with
      | refused e => simp at submitted
      | heavier target valid compact more => exact finished _ _ _ _ submitted
      | lighter target valid compact less r applied => exact finished _ _ _ _ submitted

theorem attempted (keyed : headerHash env x.block.header = .ok x.hash) {r : Result Bool × Chain}
    (returned : attempt env world (fuel + 1) x.block c = some r) : Attempted env world x c r := by
  by_cases idle : IsIdle x c
  · rw [attempt_of_idle keyed idle] at returned
    obtain rfl := Option.some.inj returned
    refine .idle idle _ fun y member => ?_
    split at member
    · exact Or.inl member
    · have inside := mem_trimOrphans member
      simp only [insertOrphan, List.mem_append, List.mem_filter, List.mem_singleton] at inside
      rcases inside with ⟨old, -⟩ | rfl
      · exact Or.inl old
      · exact Or.inr ⟨rfl, rfl⟩
  · obtain ⟨fresh, prevHeight, parent⟩ : x.hash ∉ c.state.hashToHeight ∧
        ∃ prevHeight, c.state.hashToHeight.lookup x.block.header.prevHash = some prevHeight := by
      simpa [IsIdle, not_or, ← Option.isSome_iff_exists, Option.isSome_iff_ne_none] using idle
    rw [attempt, Locked.addBlockWith_free] at returned
    obtain ⟨⟨result, d⟩, submitted, rest⟩ := Option.bind_eq_some_iff.mp returned
    have same := (locked_submit_eq_some.mp submitted).1
    have filed := locked_submit_filed submitted
    cases result with
    | error e =>
        obtain rfl := Option.some.inj rest
        have pool : (submit env world x.block c).2.orphanBlocks = c.orphanBlocks :=
          submit_pool_of_ne (by rw [← same]; simp)
        rw [← same] at pool
        cases filed with
        | refused _ _ unaccepted state tip saved height =>
            refine .refused idle (fun saves => ?_) e d state saved pool
            obtain ⟨height, reorg, d', accepted⟩ := (locked_submit_accepted_iff _ _).mpr saves
            simp [submitted] at accepted
    | ok result =>
        obtain ⟨height, reorg, rfl⟩ := submit_of_ready keyed fresh parent
          (congrArg Prod.fst same.symm)
        have saves : Saves env world x.block c :=
          (locked_submit_accepted_iff _ _).mp ⟨height, reorg, d, submitted⟩
        obtain ⟨⟨done, d'⟩, looped, ended⟩ := Option.bind_eq_some_iff.mp rest
        obtain ⟨rfl, rfl⟩ := locked_processOrphans_eq_some looped
        cases filed with
        | refused _ _ unaccepted state tip saved height => exact absurd rfl (unaccepted _ _)
        | accepted prevHeight _ state parent tip saved height =>
            simp only at ended
            split at ended
            · obtain rfl := Option.some.inj ended
              refine .saved saves _ ?_ (prevHeight + 1) _ state saved rfl
              generalize validateState _ = checked
              cases checked <;> simp [Except.map]
            · obtain rfl := Option.some.inj ended
              exact .saved saves _ (by simp) (prevHeight + 1) _ state saved rfl

end Attempts

section Rounds

variable {add : Block → Chain → Option (Result Bool × Chain)} {pending pre post next : List Orphan}
  {added : Bool} {c d : Chain}

theorem orphanRound_append {more : Bool} {left : List Orphan}
    (first : Locking.orphanRound add pre added next c = some (.ok (more, left), d)) :
    Locking.orphanRound add (pre ++ post) added next c =
      Locking.orphanRound add post more left d := by
  induction pre generalizing added next c with
  | nil =>
      obtain ⟨same, rfl⟩ := Prod.mk.inj (Option.some.inj first)
      obtain ⟨rfl, rfl⟩ := Prod.mk.inj (Except.ok.inj same)
      rfl
  | cons x pre ih =>
      rw [Locking.orphanRound] at first
      rw [List.cons_append, Locking.orphanRound]
      rcases called : add x.block c with _ | ⟨e | (_ | _), c'⟩
      · simp [called] at first
      · simp [called] at first
      · simp only [called, bind, Option.bind_some] at first ⊢
        exact ih first
      · simp only [called, bind, Option.bind_some] at first ⊢
        exact ih first

theorem orphanRound_eq_error {e : Fault}
    (failed : Locking.orphanRound add pending added next c = some (.error e, d)) :
    ∃ pre x post c' more left, pending = pre ++ x :: post ∧
      Locking.orphanRound add pre added next c = some (.ok (more, left), c') ∧
      add x.block c' = some (.error e, d) := by
  induction pending generalizing added next c with
  | nil => exact absurd failed (by simp [Locking.orphanRound])
  | cons x rest ih =>
      rw [Locking.orphanRound] at failed
      rcases called : add x.block c with _ | ⟨e' | (_ | _), c'⟩
      · simp [called] at failed
      · simp only [called, bind, Option.bind_some] at failed
        obtain ⟨same, rfl⟩ := Prod.mk.inj (Option.some.inj failed)
        obtain rfl := Except.error.inj same
        exact ⟨[], x, rest, c, added, next, rfl, rfl, called⟩
      · simp only [called, bind, Option.bind_some] at failed
        obtain ⟨pre, y, post, c'', more, left, rfl, tried, stopped⟩ := ih failed
        refine ⟨x :: pre, y, post, c'', more, left, rfl, ?_, stopped⟩
        simpa only [Locking.orphanRound, called, bind, Option.bind_some] using tried
      · simp only [called, bind, Option.bind_some] at failed
        obtain ⟨pre, y, post, c'', more, left, rfl, tried, stopped⟩ := ih failed
        refine ⟨x :: pre, y, post, c'', more, left, rfl, ?_, stopped⟩
        simpa only [Locking.orphanRound, called, bind, Option.bind_some] using tried

def Keyed (env : Env) (xs : List Orphan) : Prop :=
  ∀ x ∈ xs, headerHash env x.block.header = .ok x.hash

/-- What some calls of `add_block` for the blocks `tried` can have changed. -/
structure Touched (c : Chain) (tried : List Orphan) (d : Chain) : Prop where
  state : d.state = c.state
  grown : ∀ block, Saved block c → Saved block d
  own : ∀ block, Saved block d → Saved block c ∨ ∃ y ∈ tried, y.block = block
  pool : ∀ z ∈ d.orphanBlocks, ∃ y ∈ tried, y.block = z.block

/-- A round that has gone through `pre` and kept `next`. -/
structure Progress (c : Chain) (pre next : List Orphan) (d : Chain) : Prop
    extends Touched c pre d where
  part : next.Sublist pre
  kept : ∀ y ∈ pre, Saved y.block d ∨ y ∈ next
  idle : ∀ y ∈ next, IsIdle y c

variable {env : Env} {world : World} {fuel : Nat} {x : Orphan}

theorem Touched.idle_iff (touched : Touched c pre d) : IsIdle x d ↔ IsIdle x c := by
  rw [IsIdle, IsIdle, touched.state]

theorem Touched.wider (touched : Touched c pre d) (wider : pre ⊆ post) : Touched c post d where
  state := touched.state
  grown := touched.grown
  own block after := (touched.own block after).imp id fun ⟨y, member, same⟩ =>
    ⟨y, wider member, same⟩
  pool z member := by
    obtain ⟨y, inside, same⟩ := touched.pool z member
    exact ⟨y, wider inside, same⟩

private theorem Touched.more (touched : Touched c pre d) (x : Orphan) {d' : Chain}
    (state : d'.state = d.state)
    (saved : ∀ block, Saved block d' → Saved block d ∨ x.block = block)
    (grown : ∀ block, Saved block d → Saved block d')
    (pool : ∀ z ∈ d'.orphanBlocks, z ∈ d.orphanBlocks ∨ z.block = x.block) :
    Touched c (pre ++ [x]) d' where
  state := state.trans touched.state
  grown block before := grown block (touched.grown block before)
  own block after := by
    rcases saved block after with before | rfl
    · rcases touched.own block before with first | ⟨y, member, same⟩
      · exact Or.inl first
      · exact Or.inr ⟨y, List.mem_append_left _ member, same⟩
    · exact Or.inr ⟨x, List.mem_append_right _ List.mem_cons_self, rfl⟩
  pool z member := by
    rcases pool z member with old | same
    · obtain ⟨y, inside, same⟩ := touched.pool z old
      exact ⟨y, List.mem_append_left _ inside, same⟩
    · exact ⟨x, List.mem_append_right _ List.mem_cons_self, same.symm⟩

theorem saved_cons {height : Nat} {block other : Block} {c c' : Chain}
    (saved : c'.saved = (height, block) :: c.saved) :
    Saved other c' ↔ Saved other c ∨ block = other := by
  simp only [Saved, saved, List.mem_cons, Prod.mk.injEq]
  constructor
  · rintro ⟨height, ⟨-, rfl⟩ | member⟩
    · exact Or.inr rfl
    · exact Or.inl ⟨height, member⟩
  · rintro (⟨height, member⟩ | rfl)
    · exact ⟨height, Or.inr member⟩
    · exact ⟨height, Or.inl ⟨rfl, rfl⟩⟩

theorem Touched.call (touched : Touched c pre d) {r : Result Bool × Chain}
    (called : Attempted env world x d r) : Touched c (pre ++ [x]) r.2 := by
  cases called with
  | idle idle pool filed =>
      exact touched.more x rfl (fun _ => Or.inl) (fun _ => id) fun z member =>
        (filed z member).imp id And.right
  | refused ready unsaved e c' state saved pool =>
      refine touched.more x state ?_ ?_ ?_
      · exact fun block after => Or.inl (by rwa [Saved, saved] at after)
      · exact fun block before => by rwa [Saved, saved]
      · exact fun z member => Or.inl (pool ▸ member)
  | saved saves r answer height c' state saved pool =>
      refine touched.more x state ?_ ?_ ?_
      · exact fun block after => (saved_cons saved).mp after
      · exact fun block before => (saved_cons saved).mpr (Or.inl before)
      · exact fun z member => by simp [pool] at member

theorem Touched.round (keyed : Keyed env pending) (touched : Touched c pre d)
    {more : Bool} {left : List Orphan} {d' : Chain}
    (tried : Locking.orphanRound (attempt env world (fuel + 1)) pending added next d =
      some (.ok (more, left), d')) : Touched c (pre ++ pending) d' := by
  induction pending generalizing added next pre d with
  | nil =>
      obtain ⟨-, rfl⟩ := Prod.mk.inj (Option.some.inj tried)
      rwa [List.append_nil]
  | cons x rest ih =>
      obtain ⟨here, later⟩ := List.forall_mem_cons.mp keyed
      rw [Locking.orphanRound] at tried
      obtain ⟨⟨r, d''⟩, called, tried⟩ := Option.bind_eq_some_iff.mp tried
      have after := touched.call (attempted here called)
      rw [List.append_cons]
      rcases r with e | (_ | _)
      · exact absurd tried (by simp)
      · exact ih later after tried
      · exact ih later after tried

theorem Progress.round (keyed : Keyed env pending) (progress : Progress c pre next d)
    {more : Bool} {left : List Orphan} {d' : Chain}
    (tried : Locking.orphanRound (attempt env world (fuel + 1)) pending added next d =
      some (.ok (more, left), d')) :
    Progress c (pre ++ pending) left d' := by
  induction pending generalizing added next pre d with
  | nil =>
      obtain ⟨same, rfl⟩ := Prod.mk.inj (Option.some.inj tried)
      obtain ⟨-, rfl⟩ := Prod.mk.inj (Except.ok.inj same)
      rwa [List.append_nil]
  | cons x rest ih =>
      obtain ⟨here, later⟩ := List.forall_mem_cons.mp keyed
      rw [Locking.orphanRound] at tried
      obtain ⟨r, called, tried⟩ := Option.bind_eq_some_iff.mp tried
      have outcome := attempted here called
      have touched := progress.toTouched.call outcome
      rw [List.append_cons]
      cases outcome with
      | idle idle pool filed =>
          refine ih later ⟨touched, progress.part.append (.refl _), ?_, ?_⟩ tried
          · intro y member
            rcases List.mem_append.mp member with inside | inside
            · exact (progress.kept y inside).imp id (List.mem_append_left _)
            · exact Or.inr (List.mem_append_right _ inside)
          · intro y member
            rcases List.mem_append.mp member with inside | inside
            · exact progress.idle y inside
            · obtain rfl := List.mem_singleton.mp inside
              exact progress.idle_iff.mp idle
      | refused ready unsaved e c' state saved pool => exact absurd tried (by simp)
      | saved saves r answer height c' state saved pool =>
          rcases r with e | (_ | _)
          · exact absurd tried (by simp)
          · exact absurd rfl answer
          · refine ih later ⟨touched, progress.part.trans (List.sublist_append_left _ _), ?_,
              progress.idle⟩ tried
            intro y member
            rcases List.mem_append.mp member with inside | inside
            · exact (progress.kept y inside).imp (fun old => (saved_cons saved).mpr (Or.inl old)) id
            · obtain rfl := List.mem_singleton.mp inside
              exact Or.inl ((saved_cons saved).mpr (Or.inr rfl))

theorem orphanRound_idle (world : World) (fuel : Nat) (added : Bool) (next : List Orphan)
    (keyed : Keyed env pending) (idle : ∀ y ∈ pending, IsIdle y c) :
    ∃ pool, Locking.orphanRound (attempt env world fuel) pending added next c =
        some (.ok (added, next ++ pending), { c with
          tick := c.tick + pending.length
          orphanBlocks := pool }) ∧
      (c.orphanBlocks.length + pending.length ≤ 500 → (pending.map Orphan.hash).Nodup →
        (∀ z ∈ c.orphanBlocks, z.hash ∉ pending.map Orphan.hash → z ∈ pool) ∧
        ∀ y ∈ pending, y.hash ∈ c.state.hashToHeight ∨
          ∃ z ∈ pool, z.hash = y.hash ∧ z.block = y.block) := by
  induction pending generalizing next c with
  | nil =>
      refine ⟨c.orphanBlocks, by rw [List.append_nil]; rfl, fun _ _ => ⟨?_, ?_⟩⟩
      · exact fun z member _ => member
      · exact fun y member => absurd member (by simp)
  | cons x rest ih =>
      obtain ⟨here, later⟩ := List.forall_mem_cons.mp keyed
      obtain ⟨first, others⟩ := List.forall_mem_cons.mp idle
      rw [Locking.orphanRound, attempt_of_idle here first]
      simp only [bind, Option.bind_some]
      generalize filed : (if x.hash ∈ c.state.hashToHeight then c.orphanBlocks else
        trimOrphans world (c.tick + 1) (insertOrphan c.orphanBlocks
          ⟨x.hash, x.block, (world.outside c.tick).instant⟩)) = between
      obtain ⟨pool, tried, room⟩ := ih (next ++ [x]) later (c := { c with
        tick := c.tick + 1
        orphanBlocks := between }) others
      refine ⟨pool, ?_, fun few distinct => ?_⟩
      · rw [tried, List.append_assoc, List.singleton_append, List.length_cons]
        simp only [Nat.add_assoc, Nat.add_comm 1]
      · simp only [List.map_cons, List.nodup_cons] at distinct
        rw [List.length_cons] at few
        have inserted : (insertOrphan c.orphanBlocks
            ⟨x.hash, x.block, (world.outside c.tick).instant⟩).length ≤
              c.orphanBlocks.length + 1 := by
          simpa [insertOrphan] using List.length_filter_le _ _
        have whole : trimOrphans world (c.tick + 1) (insertOrphan c.orphanBlocks
            ⟨x.hash, x.block, (world.outside c.tick).instant⟩) = insertOrphan c.orphanBlocks
              ⟨x.hash, x.block, (world.outside c.tick).instant⟩ := by
          rw [trimOrphans, if_neg (by omega)]
        rw [whole] at filed
        have fits : between.length ≤ c.orphanBlocks.length + 1 := by
          rw [← filed]
          split
          · exact Nat.le_succ _
          · exact inserted
        obtain ⟨old, new⟩ := room (by change between.length + _ ≤ 500; omega) distinct.2
        refine ⟨fun z member other => ?_, List.forall_mem_cons.mpr ⟨?_, new⟩⟩
        · simp only [List.map_cons, List.mem_cons, not_or] at other
          refine old z ?_ other.2
          rw [← filed]
          split
          · exact member
          · simp [insertOrphan, member, other.1]
        · by_cases there : x.hash ∈ c.state.hashToHeight
          · exact Or.inl there
          · refine Or.inr ⟨_, old ⟨x.hash, x.block, (world.outside c.tick).instant⟩ ?_ distinct.1,
              rfl, rfl⟩
            rw [← filed, if_neg there]
            simp [insertOrphan]

end Rounds

end Lyrion.Node
