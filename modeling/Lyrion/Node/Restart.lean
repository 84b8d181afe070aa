/- GID: Lyrion/Node/Restart
   digest: Recovery as a walk that can be taken up again or ends anywhere, and the chain that a
     process starts with. -/

import Lyrion.Node.Coinless

set_option autoImplicit false
set_option relaxedAutoImplicit false

namespace Lyrion.Node

open Library.ByteCodec Library.KeyValue Library.Runs Data Utils Tx

section Walk

variable (env : Env) (setHash : Hash) (supply : UInt64)

/-- The loop of `recover_pending_reorgs` with the database it leaves, also where it stops at an
error. -/
def recoverWalk (entry : Bytes → Bytes) : List Bytes → Db → Result Unit × Db
  | [], db => (.ok (), db)
  | key :: rest, db =>
      match recoverReorg env setHash supply db key (entry key) with
      | .error e => (.error e, db)
      | .ok db => recoverWalk entry rest db

def entryOf (db : Db) (key : Bytes) : Bytes := (get db .default key).getD []

def recoverLeaves (db : Db) : Result Unit × Db :=
  recoverWalk env setHash supply (entryOf db) (pendingKeys db) db

variable {env setHash supply}

private theorem foldlM_eq_recoverWalk (entry : Bytes → Bytes) (keys : List Bytes) (db : Db) :
    keys.foldlM (fun current key => recoverReorg env setHash supply current key (entry key)) db =
      (recoverWalk env setHash supply entry keys db).1.map fun _ =>
        (recoverWalk env setHash supply entry keys db).2 := by
  induction keys generalizing db with
  | nil => rfl
  | cons key keys ih =>
      rw [List.foldlM_cons, recoverWalk]
      cases recoverReorg env setHash supply db key (entry key) with
      | error e => rfl
      | ok after => exact ih after

theorem recoverPendingReorgs_eq_leaves (db : Db) :
    recoverPendingReorgs env setHash supply db =
      (recoverLeaves env setHash supply db).1.map fun _ =>
        (recoverLeaves env setHash supply db).2 :=
  foldlM_eq_recoverWalk (entryOf db) (pendingKeys db) db

private theorem recoverWalk_append (entry : Bytes → Bytes) (first rest : List Bytes) {db mid : Db}
    (walked : recoverWalk env setHash supply entry first db = (.ok (), mid)) :
    recoverWalk env setHash supply entry (first ++ rest) db =
      recoverWalk env setHash supply entry rest mid := by
  induction first generalizing db with
  | nil =>
      obtain ⟨-, rfl⟩ := Prod.mk.inj walked
      rfl
  | cons key first ih =>
      rw [recoverWalk] at walked
      rw [List.cons_append, recoverWalk]
      cases one : recoverReorg env setHash supply db key (entry key) with
      | error e => simp [one] at walked
      | ok after =>
          rw [one] at walked
          exact ih walked

private theorem recoverWalk_congr {entry other : Bytes → Bytes} {keys : List Bytes}
    (same : ∀ key ∈ keys, entry key = other key) (db : Db) :
    recoverWalk env setHash supply entry keys db =
      recoverWalk env setHash supply other keys db := by
  induction keys generalizing db with
  | nil => rfl
  | cons key keys ih =>
      obtain ⟨here, later⟩ := List.forall_mem_cons.mp same
      rw [recoverWalk, recoverWalk, here]
      cases recoverReorg env setHash supply db key (other key) with
      | error e => rfl
      | ok after => exact ih later after

private theorem get_recoverReorg {db after : Db} {key value : Bytes}
    (recovered : recoverReorg env setHash supply db key value = .ok after) (id : Bytes) :
    get after .default (reorgKey id) =
      if reorgKey id = key then none else get db .default (reorgKey id) := by
  have deleted (base : Db) : get (write base [deleteCf .default key]) .default (reorgKey id) =
      if reorgKey id = key then none else get base .default (reorgKey id) := by
    by_cases same : reorgKey id = key
    · rw [if_pos same, ← same]
      simp [Data.get, write, deleteCf, applyWrite]
    · rw [if_neg same]
      apply get_write_of_notMem
      simpa [defaultKeys, deleteCf, Write.key] using same
  rcases recoverReorg_eq_ok recovered with ⟨-, rfl⟩ | ⟨journal, below, batch, -, -, stores, rfl⟩
  · exact deleted db
  · rw [deleted, stores.get_of_other _ (fun counter => counter.ne_reorgKey id rfl)
      ((IndexKey.header _).ne_reorgKey id).symm]

private theorem get_recoverWalk {entry : Bytes → Bytes} {keys : List Bytes} {db after : Db}
    (walked : recoverWalk env setHash supply entry keys db = (.ok (), after)) (id : Bytes) :
    (reorgKey id ∈ keys → get after .default (reorgKey id) = none) ∧
      (reorgKey id ∉ keys → get after .default (reorgKey id) = get db .default (reorgKey id)) := by
  induction keys generalizing db with
  | nil =>
      obtain ⟨-, rfl⟩ := Prod.mk.inj walked
      simp
  | cons key keys ih =>
      rw [recoverWalk] at walked
      cases one : recoverReorg env setHash supply db key (entry key) with
      | error e => simp [one] at walked
      | ok next =>
          rw [one] at walked
          obtain ⟨met, unmet⟩ := ih walked
          rw [get_recoverReorg one] at unmet
          constructor
          · intro member
            by_cases later : reorgKey id ∈ keys
            · exact met later
            · have here : reorgKey id = key := (List.mem_cons.mp member).resolve_right later
              rw [unmet later, if_pos here]
          · intro apart
            rw [List.mem_cons, not_or] at apart
            rw [unmet apart.2, if_neg apart.1]

end Walk

section Order

/-- The bytes of a key as the numbers that the database orders keys by. -/
def keyOrder (key : Bytes) : List Nat := key.map UInt8.toNat

private theorem map_ofNat_keyOrder (key : Bytes) : (keyOrder key).map UInt8.ofNat = key := by
  simp [keyOrder, List.map_map, Function.comp_def]

private theorem keyOrder_injective {key other : Bytes} (same : keyOrder key = keyOrder other) :
    key = other := by
  rw [← map_ofNat_keyOrder key, same, map_ofNat_keyOrder]

private theorem map_keyOrder_pendingKeys (db : Db) :
    (pendingKeys db).map keyOrder =
      (((db .default).keys.filter fun k => reorgPrefix.isPrefixOf k).image keyOrder).sort
        (· ≤ ·) := by
  rw [pendingKeys, List.map_map]
  refine (List.map_congr_left ?_).trans (List.map_id _)
  intro numbers member
  obtain ⟨key, -, rfl⟩ := Finset.mem_image.mp ((Finset.mem_sort _).mp member)
  show keyOrder ((keyOrder key).map UInt8.ofNat) = keyOrder key
  rw [map_ofNat_keyOrder]

private theorem pendingKeys_increasing (db : Db) :
    ((pendingKeys db).map keyOrder).Pairwise (· ≤ ·) ∧ (pendingKeys db).Nodup := by
  have list := map_keyOrder_pendingKeys db
  refine ⟨?_, List.Nodup.of_map keyOrder ?_⟩
  · rw [list]
    exact Finset.pairwise_sort _ _
  · rw [list]
    exact Finset.sort_nodup _ _

private theorem pendingKeys_eq_rest {db other : Db} {done rest : List Bytes}
    (split : pendingKeys db = done ++ rest)
    (same : ∀ key, key ∈ pendingKeys other ↔ key ∈ rest) : pendingKeys other = rest := by
  obtain ⟨sorted, nodup⟩ := pendingKeys_increasing db
  obtain ⟨sorted', nodup'⟩ := pendingKeys_increasing other
  rw [split] at sorted nodup
  rw [List.map_append] at sorted
  have perm : (pendingKeys other).Perm rest :=
    (List.perm_ext_iff_of_nodup nodup' nodup.of_append_right).mpr same
  refine List.map_injective_iff.mpr (fun _ _ => keyOrder_injective) ?_
  exact (perm.map keyOrder).eq_of_pairwise' sorted' (List.pairwise_append.mp sorted).2.1

end Order

variable {env : Env} {world : World} {setHash : Hash} {supply : UInt64}

variable (env setHash supply) in
private theorem recoverWalk_ends (entry : Bytes → Bytes) (keys : List Bytes) (db : Db) :
    ∃ done rest, keys = done ++ rest ∧ recoverWalk env setHash supply entry done db =
      (.ok (), (recoverWalk env setHash supply entry keys db).2) := by
  induction keys generalizing db with
  | nil => exact ⟨[], [], rfl, rfl⟩
  | cons key keys ih =>
      rw [recoverWalk]
      cases one : recoverReorg env setHash supply db key (entry key) with
      | error e => exact ⟨[], key :: keys, rfl, rfl⟩
      | ok after =>
          obtain ⟨done, rest, split, walked⟩ := ih after
          refine ⟨key :: done, rest, by rw [split, List.cons_append], ?_⟩
          rw [recoverWalk, one]
          exact walked

private theorem recoverLeaves_of_walked {db mid : Db} {done rest : List Bytes}
    (split : pendingKeys db = done ++ rest)
    (walked : recoverWalk env setHash supply (entryOf db) done db = (.ok (), mid)) :
    recoverLeaves env setHash supply mid = recoverLeaves env setHash supply db := by
  have nodup := (pendingKeys_increasing db).2
  rw [split] at nodup
  have unfinished {id : Bytes} (member : reorgKey id ∈ rest) : reorgKey id ∉ done :=
    fun finished => (List.disjoint_of_nodup_append nodup) finished member
  have left : ∀ key, key ∈ pendingKeys mid ↔ key ∈ rest := by
    intro key
    rw [mem_pendingKeys]
    constructor
    · rintro ⟨id, rfl, stored⟩
      obtain ⟨met, unmet⟩ := get_recoverWalk walked id
      have apart : reorgKey id ∉ done := fun finished => stored (met finished)
      rw [unmet apart] at stored
      have pending := mem_pendingKeys.mpr ⟨id, rfl, stored⟩
      rw [split] at pending
      exact (List.mem_append.mp pending).resolve_left apart
    · intro member
      have pending : key ∈ pendingKeys db := by
        rw [split]
        exact List.mem_append_right _ member
      obtain ⟨id, rfl, stored⟩ := mem_pendingKeys.mp pending
      refine ⟨id, rfl, ?_⟩
      rwa [(get_recoverWalk walked id).2 (unfinished member)]
  have entries : ∀ key ∈ rest, entryOf mid key = entryOf db key := by
    intro key member
    obtain ⟨id, rfl, -⟩ := mem_pendingKeys.mp ((left key).mpr member)
    rw [entryOf, entryOf, (get_recoverWalk walked id).2 (unfinished member)]
  rw [recoverLeaves, recoverLeaves, pendingKeys_eq_rest split left, recoverWalk_congr entries,
    split, recoverWalk_append _ _ _ walked]

section Halting

variable (env setHash supply)

def recoverBatch (db : Db) (value : Bytes) : Result DbBatch := do
  let journal ← orFail (.anyhow "bincode") (reorgJournalCodec.read value)
  let currentHeight ← loadCurrentHeight db
  let currentTip ← loadCurrentTip db
  if currentHeight = journal.oldTipHeight.toNat ∧ currentTip = journal.oldTipHash then do
    let (height, batch) ←
      recoverDisconnects env setHash supply db journal.disconnectDepth.toNat currentHeight []
    buildBlockOps env db setHash supply journal.newBlock ((height + 1) % 2 ^ 64) .connect batch
  else pure []

/-- The database of a process that ends in its recovery: after some journals, and, with `half`,
between the two writes of the next one. -/
def recoverHalted (db : Db) (journals : Nat) (half : Bool) : Db :=
  let current :=
    (recoverWalk env setHash supply (entryOf db) ((pendingKeys db).take journals) db).2
  match (pendingKeys db).drop journals with
  | [] => current
  | key :: _ =>
      match recoverBatch env setHash supply current (entryOf db key) with
      | .error _ => current
      | .ok batch => if half then write current batch else current

variable {env setHash supply}

private theorem recoverReorg_eq_recoverBatch (db : Db) (key value : Bytes) :
    recoverReorg env setHash supply db key value =
      (recoverBatch env setHash supply db value).map fun batch =>
        write (write db batch) [deleteCf .default key] := by
  unfold recoverReorg recoverBatch
  cases orFail (.anyhow "bincode") (reorgJournalCodec.read value) with
  | error e => rfl
  | ok journal =>
      cases loadCurrentHeight db with
      | error e => rfl
      | ok height =>
          cases loadCurrentTip db with
          | error e => rfl
          | ok tip =>
              simp only [bind, Except.bind]
              split
              · cases recoverDisconnects env setHash supply db journal.disconnectDepth.toNat height
                  [] with
                | error e => rfl
                | ok disconnected =>
                    simp only
                    cases buildBlockOps env db setHash supply journal.newBlock
                      ((disconnected.1 + 1) % 2 ^ 64) .connect disconnected.2 <;> rfl
              · rfl

private theorem recoverHalted_between (db : Db) (journals : Nat) :
    recoverHalted env setHash supply db journals false =
      (recoverWalk env setHash supply (entryOf db) ((pendingKeys db).take journals) db).2 := by
  unfold recoverHalted
  simp only
  split
  · rfl
  · split <;> rfl

theorem recoverHalted_all (db : Db) :
    recoverHalted env setHash supply db (pendingKeys db).length false =
      (recoverLeaves env setHash supply db).2 := by
  rw [recoverHalted_between, List.take_length]
  rfl

/-- A recovery that ends between two journals is finished by the next one as if it had not ended,
with the same error if there is one; and after a recovery without error none has anything to do. -/
theorem recovery_taken_up (env : Env) (setHash : Hash) (supply : UInt64) (db : Db)
    (journals : Nat) :
    recoverLeaves env setHash supply (recoverHalted env setHash supply db journals false) =
        recoverLeaves env setHash supply db ∧
      ((recoverLeaves env setHash supply db).1 = .ok () → ∀ setHash' supply',
        recoverLeaves env setHash' supply' (recoverLeaves env setHash supply db).2 =
          (.ok (), (recoverLeaves env setHash supply db).2)) := by
  constructor
  · rw [recoverHalted_between]
    obtain ⟨done, rest, split, walked⟩ := recoverWalk_ends env setHash supply (entryOf db)
      ((pendingKeys db).take journals) db
    have whole : pendingKeys db = done ++ (rest ++ (pendingKeys db).drop journals) := by
      rw [← List.append_assoc, ← split, List.take_append_drop]
    exact recoverLeaves_of_walked whole walked
  · intro finished setHash' supply'
    have clear : pendingKeys (recoverLeaves env setHash supply db).2 = [] := by
      apply noJournal_iff.mp
      intro id
      have all : recoverWalk env setHash supply (entryOf db) (pendingKeys db) db =
          (.ok (), (recoverLeaves env setHash supply db).2) := Prod.ext finished rfl
      obtain ⟨met, unmet⟩ := get_recoverWalk all id
      by_cases pending : reorgKey id ∈ pendingKeys db
      · exact met pending
      · rw [unmet pending]
        by_contra stored
        exact pending (mem_pendingKeys.mpr ⟨id, rfl, stored⟩)
    rw [recoverLeaves, clear]
    rfl

section Rules

variable {Inv : Db → Prop} {entry : Bytes → Bytes} {keys : List Bytes} {db : Db}

private theorem recoverWalk_invariant (start : Inv db)
    (kept : ∀ key ∈ keys, ∀ db batch, Inv db →
      recoverBatch env setHash supply db (entry key) = .ok batch →
      Inv (write db batch) ∧ Inv (write (write db batch) [deleteCf .default key])) :
    Inv (recoverWalk env setHash supply entry keys db).2 := by
  induction keys generalizing db with
  | nil => exact start
  | cons key keys ih =>
      obtain ⟨here, later⟩ := List.forall_mem_cons.mp kept
      rw [recoverWalk, recoverReorg_eq_recoverBatch]
      cases built : recoverBatch env setHash supply db (entry key) with
      | error e => exact start
      | ok batch => exact ih (here db batch start built).2 later

theorem recoverHalted_invariant (start : Inv db)
    (kept : ∀ key ∈ pendingKeys db, ∀ current batch, Inv current →
      recoverBatch env setHash supply current (entryOf db key) = .ok batch →
      Inv (write current batch) ∧ Inv (write (write current batch) [deleteCf .default key]))
    (journals : Nat) (half : Bool) : Inv (recoverHalted env setHash supply db journals half) := by
  have walked : Inv (recoverWalk env setHash supply (entryOf db)
      ((pendingKeys db).take journals) db).2 :=
    recoverWalk_invariant start fun key member => kept key (List.mem_of_mem_take member)
  unfold recoverHalted
  simp only
  split
  · exact walked
  · rename_i key rest next
    have pending : key ∈ pendingKeys db := by
      apply List.mem_of_mem_drop (i := journals)
      rw [next]
      exact List.mem_cons_self
    split
    · exact walked
    · rename_i batch built
      split
      · exact (kept key pending _ batch walked built).1
      · exact walked

end Rules

end Halting

section Start

/-- `InitDb`: the hash of a genesis block for a new key is stored, and nothing else. -/
def initDb (env : Env) (pubkey : Bytes) (db : Db) : Result Db := do
  let genesis ← createGenesisBlock env pubkey
  let hash ← headerHash env genesis.header
  pure (write db [putCf .default genesisHashKey hash.toList])

/-- The chain of `RunNode`: the stored one, or, where that cannot be loaded, a new one on whatever
the attempt has left. An error of `Chain::new` is unwrapped, and a panic of the load is not
caught. -/
def startChain (env : Env) (world : World) (setHash : Hash) (supply : UInt64) (genesis : Block)
    (db : Db) : Result Chain × Db :=
  match loadFromDb env setHash supply db with
  | .ok c => (.ok c, c.db)
  | .error (.error _) => Chain.new env world (recoverLeaves env setHash supply db).2 genesis
  | .error fault => (.error fault, (recoverLeaves env setHash supply db).2)

/-- The end of `RunNode`: the best block is saved once more where memory has it. -/
def stopChain (env : Env) (o : Outside) (c : Chain) : Db :=
  match c.state.blocks.lookup c.bestHeight with
  | none => c.db
  | some block => (saveBlock env o c.bestHeight block c).2.db

private theorem loadFromDb_eq_ok {db : Db} {c : Chain}
    (loaded : loadFromDb env setHash supply db = .ok c) :
    (recoverLeaves env setHash supply db).1 = .ok () ∧
      c.db = (recoverLeaves env setHash supply db).2 ∧ c.saved = [] := by
  simp only [loadFromDb, bind_eq_ok, fail_bind, guard_eq_ok] at loaded
  obtain ⟨after, recovered, _, -, tip, -, _, -, -, _, -, root, -, ⟨state, work⟩, -, -, _, -,
    smart⟩ := loaded
  rw [recoverPendingReorgs_eq_leaves] at recovered
  obtain ⟨_, finished, rfl⟩ := map_eq_ok.mp recovered
  refine ⟨finished, ?_⟩
  unfold validateSupplySmart at smart
  split at smart
  · simp only [fail_bind, bind_eq_ok, guard_eq_ok, pure_eq_ok] at smart
    obtain ⟨_, -, -, -, rfl⟩ := smart
    exact ⟨rfl, rfl⟩
  · simp only [bind_eq_ok, pure_eq_ok] at smart
    obtain ⟨_, -, rfl⟩ := smart
    exact ⟨rfl, rfl⟩

end Start

section Coins

variable {db : Db}

private theorem sterile_recoverDisconnects (coinless : Coinless db) {depth height below : Nat}
    {batch result : DbBatch} (before : Sterile batch)
    (done : recoverDisconnects env setHash supply db depth height batch = .ok (below, result)) :
    Sterile result := by
  induction depth generalizing height batch with
  | zero =>
      obtain ⟨-, rfl⟩ := Prod.mk.inj (Except.ok.inj done)
      exact before
  | succ depth ih =>
      simp only [recoverDisconnects, bind_eq_ok] at done
      obtain ⟨blk, -, next, ops, rest⟩ := done
      exact ih (coinless.sterile_buildBlockOps before (by simp) ops) rest

private theorem Barren.pending (barren : Barren db) {key : Bytes} (pending : key ∈ pendingKeys db)
    (journal : ReorgJournal) (read : reorgJournalCodec.read (entryOf db key) = some journal) :
    CoinbaseOnly journal.newBlock := by
  obtain ⟨id, rfl, stored⟩ := mem_pendingKeys.mp pending
  obtain ⟨value, found⟩ := Option.ne_none_iff_exists'.mp stored
  refine barren.journals id value journal found ?_
  rwa [entryOf, found] at read

private theorem sterile_recoverBatch (coinless : Coinless db) {value : Bytes} {batch : DbBatch}
    (only : ∀ journal, reorgJournalCodec.read value = some journal → CoinbaseOnly journal.newBlock)
    (done : recoverBatch env setHash supply db value = .ok batch) : Sterile batch := by
  simp only [recoverBatch, bind_eq_ok, orFail_eq_ok] at done
  obtain ⟨journal, read, height, -, tip, -, rest⟩ := done
  split at rest
  · obtain ⟨⟨below, disconnects⟩, undone, built⟩ := bind_eq_ok.mp rest
    exact coinless.sterile_buildBlockOps (sterile_recoverDisconnects coinless sterile_nil undone)
      (fun _ => only journal read) built
  · obtain rfl := Except.ok.inj rest
    exact sterile_nil

private theorem Barren.recoverBatch (start : Barren db) {key : Bytes}
    (pending : key ∈ pendingKeys db) {current : Db} {batch : DbBatch} (barren : Barren current)
    (built : recoverBatch env setHash supply current (entryOf db key) = .ok batch) :
    Barren (Library.KeyValue.write current batch) ∧
      Barren (Library.KeyValue.write (Library.KeyValue.write current batch)
        [deleteCf .default key]) := by
  have written := barren.write
    (sterile_recoverBatch barren.coinless (start.pending pending) built)
  obtain ⟨id, rfl, -⟩ := mem_pendingKeys.mp pending
  exact ⟨written, written.write (sterile_journalDelete id)⟩

private theorem Barren.recoverLeaves (barren : Barren db) :
    Barren (recoverLeaves env setHash supply db).2 :=
  recoverWalk_invariant barren fun _ pending _ _ kept built =>
    barren.recoverBatch pending kept built

theorem Barren.recoverHalted (barren : Barren db) (journals : Nat) (half : Bool) :
    Barren (recoverHalted env setHash supply db journals half) :=
  recoverHalted_invariant barren
    (fun _ pending _ _ kept built => barren.recoverBatch pending kept built) journals half

def StartsIdle : Result Chain × Db → Prop
  | (.ok c, _) => Idle c
  | (.error _, left) => Barren left

private theorem Barren.new (barren : Barren db) {genesis : Block} (only : CoinbaseOnly genesis) :
    StartsIdle (Chain.new env world db genesis) := by
  unfold Chain.new
  cases headerHash env genesis.header with
  | error e => exact barren
  | ok hash =>
      cases compactToTarget genesis.header.bits with
      | error e => exact barren
      | ok target =>
          have applied : Barren (Node.applyBlockAction env (world.outside 0) genesis 0 .connect
              true (blockWork target) [] (blank db hash)).2.db :=
            Barren.applyBlockAction barren only _ _ _
          have course := applyBlockAction_cases env (world.outside 0) genesis (blank db hash) 0
            .connect true (blockWork target) []
          simp only [blank] at applied course ⊢
          generalize Node.applyBlockAction env (world.outside 0) genesis 0 .connect true
            (blockWork target) [] _ = result at applied course ⊢
          obtain ⟨e | batch, c⟩ := result
          · exact applied
          · refine ⟨applied, ?_⟩
            cases course
            simp

theorem Barren.startChain (barren : Barren db) {genesis : Block} (only : CoinbaseOnly genesis) :
    StartsIdle (startChain env world setHash supply genesis db) := by
  have recovered : Barren (Node.recoverLeaves env setHash supply db).2 := barren.recoverLeaves
  unfold Node.startChain
  cases loaded : loadFromDb env setHash supply db with
  | ok c =>
      obtain ⟨-, same, saved⟩ := loadFromDb_eq_ok loaded
      exact ⟨same ▸ recovered, by simp [saved]⟩
  | error fault =>
      cases fault with
      | error e => exact recovered.new only
      | _ => exact recovered

theorem Barren.stopChain {c : Chain} (barren : Barren c.db) (o : Outside) :
    Barren (stopChain env o c) := by
  unfold Node.stopChain
  split
  · exact barren
  · rename_i block _
    have cases := saveBlock_cases env o block c c.bestHeight
    generalize saveBlock env o c.bestHeight block c = result at cases
    cases cases with
    | unsaved e => exact barren
    | saved hash hashed => exact barren.write (sterile_saveOps hash)

end Coins

end Lyrion.Node
