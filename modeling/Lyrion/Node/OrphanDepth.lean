/- GID: Lyrion/Node/OrphanDepth
   digest: How deep add_block and process_orphans call one another. -/

import Lyrion.Node.Faults

set_option autoImplicit false
set_option relaxedAutoImplicit false

namespace Lyrion.Node

open Library.Runs Data Utils Tx

variable {orphans : Chain → Result Unit × Chain} {c : Chain}

section Hashes

variable {env : Env}

variable (env) in
def hashes (xs : List Orphan) : Finset Hash :=
  (xs.filterMap fun x => (headerHash env x.block.header).toOption).toFinset

private theorem hashes_append (xs ys : List Orphan) :
    hashes env (xs ++ ys) = hashes env xs ∪ hashes env ys := by
  rw [hashes, List.filterMap_append, List.toFinset_append]
  rfl

private theorem card_hashes_le (xs : List Orphan) : (hashes env xs).card ≤ xs.length :=
  (List.toFinset_card_le _).trans (List.length_filterMap_le _ _)

private theorem mem_hashes {xs : List Orphan} {hash : Hash} :
    hash ∈ hashes env xs ↔ ∃ x ∈ xs, headerHash env x.block.header = .ok hash := by
  have ok (r : Result Hash) : r.toOption = some hash ↔ r = .ok hash := by
    cases r <;> simp [Except.toOption]
  simp [hashes, ok]

private theorem hashes_mono {xs ys : List Orphan} (subset : xs ⊆ ys) : hashes env xs ⊆ hashes env
    ys := by
  intro hash member
  obtain ⟨x, inside, hashed⟩ := mem_hashes.mp member
  exact mem_hashes.mpr ⟨x, subset inside, hashed⟩

variable (env) in
/-- A pool as a hash map has it, with all its keys in one set. -/
structure Inside (S : Finset Hash) (pool : List Orphan) : Prop where
  distinct : (pool.map Orphan.hash).Nodup
  inside : ∀ x ∈ pool, x.hash ∈ S
  keyed : ∀ x ∈ pool, headerHash env x.block.header = .ok x.hash

variable {S T : Finset Hash} {pool : List Orphan}

theorem inside_nil : Inside env S [] := ⟨List.nodup_nil, by simp, by simp⟩

theorem Inside.mono (within : Inside env S pool) (subset : S ⊆ T) : Inside env T pool :=
  ⟨within.distinct, fun x member => subset (within.inside x member), within.keyed⟩

theorem Inside.sublist (within : Inside env S pool) {part : List Orphan}
    (sublist : part.Sublist pool) : Inside env S part :=
  ⟨within.distinct.sublist (sublist.map _), fun x member => within.inside x (sublist.subset member),
    fun x member => within.keyed x (sublist.subset member)⟩

theorem Inside.insert (within : Inside env S pool) {entry : Orphan} (member : entry.hash ∈ S)
    (keyed : headerHash env entry.block.header = .ok entry.hash) :
    Inside env S (insertOrphan pool entry) where
  distinct := by
    have others := (within.sublist (List.filter_sublist
      (p := fun x : Orphan => decide (x.hash ≠ entry.hash)))).distinct
    unfold insertOrphan
    rw [List.map_append, List.nodup_append]
    refine ⟨others, by simp, ?_⟩
    intro hash before last after
    simp only [List.mem_map, List.mem_filter, decide_eq_true_eq] at before
    obtain ⟨x, ⟨-, other⟩, rfl⟩ := before
    obtain rfl : last = entry.hash := by simpa using after
    exact other
  inside x here := by
    rcases mem_insertOrphan here with rfl | here
    · exact member
    · exact within.inside x here
  keyed x here := by
    rcases mem_insertOrphan here with rfl | here
    · exact keyed
    · exact within.keyed x here

theorem Inside.refile (within : Inside env S pool) (time : Nat) {left : List Orphan}
    (inside : ∀ x ∈ left, x.hash ∈ S)
    (keyed : ∀ x ∈ left, headerHash env x.block.header = .ok x.hash) :
    Inside env S (refiled time left pool) := by
  induction left generalizing pool with
  | nil => exact within
  | cons x left ih =>
      obtain ⟨here, later⟩ := List.forall_mem_cons.mp inside
      obtain ⟨hashed, others⟩ := List.forall_mem_cons.mp keyed
      rw [refiled_cons]
      exact ih (within.insert here hashed) later others

theorem Inside.length_le (within : Inside env S pool) : pool.length ≤ S.card := by
  rw [← List.length_map Orphan.hash, ← List.toFinset_card_of_nodup within.distinct]
  apply Finset.card_le_card
  intro hash member
  obtain ⟨x, inside, rfl⟩ := List.mem_map.mp (List.mem_toFinset.mp member)
  exact within.inside x inside

private theorem length_drained_le (world : World) (c : Chain) :
    (drained world c).length ≤ c.orphanBlocks.length := by
  unfold drained
  rw [(world.drain_perm _ _).length_eq]
  exact ((trimOrphans_sublist world _ _).trans List.filter_sublist).length_le

end Hashes

section Depth

variable {env : Env} {world : World} {n : Nat}

variable (env) in
/-- An orphan loop that comes to an end on fewer than `n` keys, and files under them only. -/
def Minds (n : Nat) (orphans : Chain → Result Unit × Chain) : Prop :=
  ∀ S c, Inside env S c.orphanBlocks → S.card < n →
    Post (fun _ c' => Inside env S c'.orphanBlocks) (fun e _ => e ≠ .outOfFuel) (orphans c)

private theorem tame_outOfFuel : Tame fun fault => decide (fault = .outOfFuel) :=
  ⟨by simp, by simp, by simp, by simp⟩

private theorem validateState_ends (c : Chain) : validateState c ≠ .error .outOfFuel := by
  intro out
  have quiet : ¬ Raises (fun fault => decide (fault = .outOfFuel)) (validateState c) :=
    not_raises_validateState tame_outOfFuel.errors c
  rw [out] at quiet
  exact quiet (by simp)

theorem submit_filed (block : Block) (c : Chain) :
    Post (fun result c' => c'.orphanBlocks = c.orphanBlocks ∨ result = .orphan ∧
        ∃ hash tick time, headerHash env block.header = .ok hash ∧ c'.orphanBlocks =
          trimOrphans world tick (insertOrphan c.orphanBlocks ⟨hash, block, time⟩))
      (fun e _ => e ≠ .outOfFuel) (submit env world block c) := by
  have faults := not_raises_submit env world tame_outOfFuel block c
  have cases := submit_cases env world block c
  generalize submit env world block c = result at cases faults
  cases cases with
  | unhashed e failed => simpa [Post] using faults
  | known hash hashed there => exact Or.inl rfl
  | orphan hash hashed fresh parentless => exact Or.inr ⟨rfl, hash, _, _, hashed, rfl⟩
  | child hash hashed fresh prevHeight parent =>
      have pool : (connectNew env (world.outside c.tick) block prevHeight
          { c with tick := c.tick + 1 }).2.orphanBlocks = c.orphanBlocks :=
        connectNew_pool _ _ _ _
      generalize connectNew env (world.outside c.tick) block prevHeight
        { c with tick := c.tick + 1 } = result at pool faults
      obtain ⟨e | submitted, c'⟩ := result
      · simpa [Post] using faults
      · exact Or.inl pool

private theorem addBlockWith_inside (minds : Minds env n orphans) {S : Finset Hash}
    (few : S.card < n) (x : Orphan) (within : Inside env S c.orphanBlocks) :
    Post (fun ok c' => Inside env (if ok then S else S ∪ hashes env [x]) c'.orphanBlocks)
      (fun e _ => e ≠ .outOfFuel) (addBlockWith env world orphans x.block c) := by
  refine addBlockWith_rule (fun _ c' => Inside env S c'.orphanBlocks) _ _ ?_ ?_ ?_
  · refine (submit_filed x.block c).imp ?_ fun _ _ fault => fault
    rintro result c' (kept | ⟨rfl, hash, tick, time, hashed, filed⟩)
    · have within : Inside env S c'.orphanBlocks := kept.symm ▸ within
      cases result with
      | known => exact within.mono Finset.subset_union_left
      | orphan => exact within.mono Finset.subset_union_left
      | accepted height reorg => exact within
    · have fits : hash ∈ S ∪ hashes env [x] :=
        Finset.mem_union_right _ (mem_hashes.mpr ⟨x, List.mem_singleton_self x, hashed⟩)
      simp only [Bool.false_eq_true, if_false, filed]
      exact ((within.mono Finset.subset_union_left).insert fits hashed).sublist
        (trimOrphans_sublist world _ _)
  · intro reorg c' kept
    refine (minds S c' kept few).imp ?_ fun _ _ fault => fault
    intro _ c'' kept
    refine kept.mono ?_
    split
    · exact Finset.Subset.refl S
    · exact Finset.subset_union_left
  · rintro reorg c' e - invalid rfl
    exact validateState_ends c' invalid

variable (env) in
/-- Whatever proper part of the pending blocks comes to lie beside the keys `B`, fewer than `n` keys
are in use. -/
def Room (n : Nat) (B : Finset Hash) (pending : List Orphan) : Prop :=
  ∀ part : List Orphan, part.Sublist pending → part.length < pending.length →
    (B ∪ hashes env part).card < n

private theorem orphanRound_inside (minds : Minds env n orphans) {B : Finset Hash}
    {all : List Orphan} (room : Room env n B all) (within : Inside env B c.orphanBlocks) :
    Post (fun result c' => Inside env (B ∪ hashes env result.2) c'.orphanBlocks ∧
        result.2.Sublist all ∧ (result.1 = true → result.2.length < all.length))
      (fun e _ => e ≠ .outOfFuel)
      (orphanRound (addBlockWith env world orphans) all false [] c) := by
  -- Each call finds a proper part of the pending blocks in the pool: the block at hand is not among
  -- them.
  have start : Inside env (B ∪ hashes env []) c.orphanBlocks ∧ ([] ++ all).Sublist all ∧
      (false = true → ([] ++ all).length < all.length) :=
    ⟨within.mono Finset.subset_union_left, List.Sublist.refl _, by simp⟩
  refine (orphanRound_rule (fun added next pending c =>
    Inside env (B ∪ hashes env next) c.orphanBlocks ∧ (next ++ pending).Sublist all ∧
      (added = true → (next ++ pending).length < all.length)) _ ?_ all start).imp ?_
        fun _ _ fault => fault
  · rintro added next x pending c ⟨within, part, shorter⟩
    have proper : next.length < all.length := by
      have := part.length_le
      simp only [List.length_append, List.length_cons] at this
      omega
    have few := room next ((List.sublist_append_left next _).trans part) proper
    refine (addBlockWith_inside minds few x within).imp ?_ fun _ _ fault => fault
    intro ok c' filed
    cases ok with
    | false =>
        simp only [Bool.false_eq_true, if_false, Bool.or_false, List.append_assoc,
          List.singleton_append] at filed ⊢
        rw [Finset.union_assoc, ← hashes_append] at filed
        exact ⟨filed, part, shorter⟩
    | true =>
        simp only [if_true, Bool.or_true] at filed ⊢
        have dropped : (next ++ pending).Sublist (next ++ x :: pending) :=
          .append_left (List.sublist_cons_self x pending) next
        refine ⟨filed, dropped.trans part, ?_⟩
        intro _
        have := part.length_le
        simp only [List.length_append, List.length_cons] at this ⊢
        omega
  · intro result c' ended
    rwa [List.append_nil] at ended

variable (world) in
private theorem orphanRounds_inside (minds : Minds env n orphans) {all : List Orphan}
    (bound : all.length ≤ n) (empty : c.orphanBlocks = []) :
    Post (fun left c' => Inside env (hashes env all) c'.orphanBlocks ∧ left.Sublist all)
      (fun e _ => e ≠ .outOfFuel)
      (orphanRounds (addBlockWith env world orphans) 500 all c) := by
  refine orphanRounds_rule (fun pending c => ∃ B, Inside env B c.orphanBlocks ∧
    Room env n B pending ∧ B ⊆ hashes env all ∧ pending.Sublist all) _ _ ?_ ?_ 500 ?_
  · rintro pending c ⟨B, within, -, known, part⟩
    exact ⟨within.mono known, part⟩
  · rintro pending c ⟨B, within, room, known, part⟩
    refine (orphanRound_inside minds room within).imp ?_ fun _ _ fault => fault
    rintro ⟨added, next⟩ c' ⟨filed, kept, shorter⟩
    have inside : B ∪ hashes env next ⊆ hashes env all :=
      Finset.union_subset known (hashes_mono (kept.trans part).subset)
    cases added with
    | false => exact ⟨filed.mono inside, kept.trans part⟩
    | true =>
        refine ⟨B ∪ hashes env next, filed, ?_, inside, kept.trans part⟩
        intro rest sublist _
        rw [Finset.union_assoc, ← hashes_append, hashes_append,
          Finset.union_eq_left.mpr (hashes_mono sublist.subset)]
        exact room next kept (shorter rfl)
  · refine ⟨∅, by rw [empty]; exact inside_nil, ?_, Finset.empty_subset _, List.Sublist.refl _⟩
    intro part _ shorter
    rw [Finset.empty_union]
    exact (card_hashes_le part).trans_lt (shorter.trans_le bound)

variable (env world)

private theorem processOrphans_minds (n : Nat) : Minds env n (processOrphans env world n) := by
  -- By induction on the bound: a loop that is called from within finds one key less.
  induction n with
  | zero =>
      intro S c _ few
      exact absurd few (Nat.not_lt_zero _)
  | succ n minds =>
      intro S c within few
      have members (x : Orphan) (member : x ∈ drained world c) := mem_of_mem_drained member
      have bound : (drained world c).length ≤ n := by
        have keys := within.length_le
        exact (length_drained_le world c).trans (by omega)
      have known : hashes env (drained world c) ⊆ S := by
        intro hash member
        obtain ⟨x, inside, hashed⟩ := mem_hashes.mp member
        have keyed := within.keyed x (members x inside)
        obtain rfl := Except.ok.inj (keyed.symm.trans hashed)
        exact within.inside x (members x inside)
      have rounds := orphanRounds_inside world minds bound
        (c := { c with tick := c.tick + 1, orphanBlocks := [] }) rfl
      have processed := processOrphans_rule _ (fun _ c' => Inside env S c'.orphanBlocks) _ rounds ?_
      · refine processed.imp ?_ fun _ _ fault => fault
        rintro _ c' ⟨-, kept⟩
        exact kept
      · rintro left c' ⟨kept, part⟩
        refine (kept.mono known).refile _ ?_ ?_
        · intro x member
          exact within.inside x (members x (part.subset member))
        · intro x member
          exact within.keyed x (members x (part.subset member))

private theorem processOrphans_ends (c : Chain) :
    (processOrphans env world (c.orphanBlocks.length + 1) c).1 ≠ .error .outOfFuel := by
  intro out
  have rounds := orphanRounds_inside world (processOrphans_minds env world _)
    (length_drained_le world c) (c := { c with tick := c.tick + 1, orphanBlocks := [] }) rfl
  have processed := processOrphans_rule _ (fun _ _ => True) _ rounds fun _ _ _ => trivial
  exact processed.of_error out rfl

end Depth

section Budget

variable {env : Env} {world : World}

/-- The second computation does what the first one does, unless that one exceeds its budget. -/
def Extends {α : Type} (r r' : Result α × Chain) : Prop :=
  r' = r ∨ r.1 = .error .outOfFuel

variable (env world) in
private theorem addBlockWith_extends {orphans' : Chain → Result Unit × Chain}
    (more : ∀ c, Extends (orphans c) (orphans' c)) (block : Block) (c : Chain) :
    Extends (addBlockWith env world orphans block c) (addBlockWith env world orphans' block c) := by
  rw [addBlockWith_eq, addBlockWith_eq]
  generalize submit env world block c = result
  obtain ⟨e | (_ | _ | ⟨height, reorg⟩), c⟩ := result
  · exact Or.inl rfl
  · exact Or.inl rfl
  · exact Or.inl rfl
  · simp only
    rcases more c with same | out
    · rw [same]
      exact Or.inl rfl
    · generalize orphans c = result at out
      obtain ⟨e | done, c'⟩ := result
      · exact Or.inr (by simpa using out)
      · exact absurd out (by simp)

private theorem orphanRound_extends {add add' : Block → Chain → Result Bool × Chain}
    (more : ∀ block c, Extends (add block c) (add' block c)) (pending : List Orphan) (added : Bool)
    (next : List Orphan) (c : Chain) :
    Extends (orphanRound add pending added next c) (orphanRound add' pending added next c) := by
  induction pending generalizing added next c with
  | nil => exact Or.inl rfl
  | cons x pending ih =>
      rw [orphanRound_cons, orphanRound_cons]
      rcases more x.block c with same | out
      · rw [same]
        generalize add x.block c = result
        obtain ⟨e | (_ | _), c'⟩ := result
        · exact Or.inl rfl
        · exact ih added (next ++ [x]) c'
        · exact ih true next c'
      · generalize add x.block c = result at out
        obtain ⟨e | ok, c'⟩ := result
        · exact Or.inr (by simpa using out)
        · exact absurd out (by simp)

private theorem orphanRounds_extends {add add' : Block → Chain → Result Bool × Chain}
    (more : ∀ block c, Extends (add block c) (add' block c)) (depth : Nat) (pending : List Orphan)
    (c : Chain) :
    Extends (orphanRounds add depth pending c) (orphanRounds add' depth pending c) := by
  induction depth generalizing pending c with
  | zero => exact Or.inl rfl
  | succ depth ih =>
      rw [orphanRounds_succ, orphanRounds_succ]
      split
      · exact Or.inl rfl
      · rcases orphanRound_extends more pending false [] c with same | out
        · rw [same]
          generalize orphanRound add pending false [] c = result
          obtain ⟨e | ⟨_ | _, rest⟩, c'⟩ := result
          · exact Or.inl rfl
          · exact Or.inl rfl
          · exact ih rest c'
        · generalize orphanRound add pending false [] c = result at out
          obtain ⟨e | ok, c'⟩ := result
          · exact Or.inr (by simpa using out)
          · exact absurd out (by simp)

variable (env world)

private theorem processOrphans_extends (fuel : Nat) (c : Chain) :
    Extends (processOrphans env world fuel c) (processOrphans env world (fuel + 1) c) := by
  induction fuel generalizing c with
  | zero => exact Or.inr rfl
  | succ fuel ih =>
      have rounds := orphanRounds_extends (addBlockWith_extends env world ih) 500 (drained world c)
        { c with tick := c.tick + 1, orphanBlocks := [] }
      rw [processOrphans_succ, processOrphans_succ]
      rcases rounds with same | out
      · rw [same]
        exact Or.inl rfl
      · generalize orphanRounds (addBlockWith env world (processOrphans env world fuel)) 500
          (drained world c) { c with tick := c.tick + 1, orphanBlocks := [] } = result at out
        obtain ⟨e | left, c'⟩ := result
        · exact Or.inr (by simpa using out)
        · exact absurd out (by simp)

private theorem processOrphans_add (c : Chain) (extra : Nat) :
    processOrphans env world (c.orphanBlocks.length + 1 + extra) c =
      processOrphans env world (c.orphanBlocks.length + 1) c := by
  induction extra with
  | zero => rfl
  | succ extra ih =>
      rw [← Nat.add_assoc, ← ih]
      refine (processOrphans_extends env world _ c).resolve_right ?_
      rw [ih]
      exact processOrphans_ends env world c

private theorem addBlockWith_ends (block : Block) (c : Chain)
    (ends : ∀ c', c'.orphanBlocks = c.orphanBlocks → (orphans c').1 ≠ .error .outOfFuel) :
    (addBlockWith env world orphans block c).1 ≠ .error .outOfFuel := by
  intro out
  refine (addBlockWith_rule (fun _ c' => c'.orphanBlocks = c.orphanBlocks) (fun _ _ => True)
    (fun e _ => e ≠ .outOfFuel) ?_ ?_ ?_).of_error out rfl
  · refine (submit_filed block c).imp ?_ fun _ _ fault => fault
    rintro result c' (kept | ⟨rfl, -⟩)
    · cases result with
      | known => trivial
      | orphan => trivial
      | accepted height reorg => exact kept
    · trivial
  · intro reorg c' kept
    have ended := ends c' kept
    generalize orphans c' = result at ended
    obtain ⟨e | done, c''⟩ := result
    · intro same
      exact ended (congrArg Except.error same)
    · trivial
  · rintro reorg c' e - invalid rfl
    exact validateState_ends c' invalid

private theorem addBlockWith_congr {orphans' : Chain → Result Unit × Chain} (block : Block)
    (c : Chain) (same : ∀ c', c'.orphanBlocks = c.orphanBlocks → orphans' c' = orphans c') :
    addBlockWith env world orphans' block c = addBlockWith env world orphans block c := by
  have submitted : Post _ _ (submit env world block c) := submit_filed block c
  rw [addBlockWith_eq, addBlockWith_eq]
  generalize submit env world block c = result at submitted
  obtain ⟨e | (_ | _ | ⟨height, reorg⟩), c'⟩ := result
  · rfl
  · rfl
  · rfl
  · have kept : c'.orphanBlocks = c.orphanBlocks := by
      rcases submitted with kept | ⟨other, -⟩
      · exact kept
      · exact absurd other (by simp)
    simp only [same c' kept]

/-- `add_block` and `process_orphans` come to an end. With `n` blocks in the pool `n + 1` loops
within one another are enough, and a larger budget changes nothing. -/
theorem orphan_processing_terminates (block : Block) (c : Chain) (extra : Nat) :
    (processOrphans env world (c.orphanBlocks.length + 1) c).1 ≠ .error .outOfFuel ∧
      processOrphans env world (c.orphanBlocks.length + 1 + extra) c =
        processOrphans env world (c.orphanBlocks.length + 1) c ∧
      (addBlock env world block c).1 ≠ .error .outOfFuel ∧
      addBlockWith env world (processOrphans env world (c.orphanBlocks.length + 1 + extra)) block
        c = addBlock env world block c := by
  have ends (c' : Chain) (kept : c'.orphanBlocks = c.orphanBlocks) :
      (processOrphans env world (c.orphanBlocks.length + 1) c').1 ≠ .error .outOfFuel := by
    rw [← kept]
    exact processOrphans_ends env world c'
  have same (extra : Nat) (c' : Chain) (kept : c'.orphanBlocks = c.orphanBlocks) :
      processOrphans env world (c.orphanBlocks.length + 1 + extra) c' =
        processOrphans env world (c.orphanBlocks.length + 1) c' := by
    rw [← kept]
    exact processOrphans_add env world c' extra
  have whole : addBlock env world block c = addBlockWith env world
      (processOrphans env world (c.orphanBlocks.length + 1)) block c :=
    addBlockWith_congr env world block c (same 1)
  refine ⟨ends c rfl, same extra c rfl, ?_, ?_⟩
  · rw [whole]
    exact addBlockWith_ends env world block c ends
  · rw [whole]
    exact addBlockWith_congr env world block c (same extra)

end Budget

end Lyrion.Node
