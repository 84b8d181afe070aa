/- GID: Lyrion/Node/Crash
   digest: The writes of a reorganisation one by one, what recovery makes of the database after
     each of them, and which crashes it repairs. -/

import Lyrion.Node.Load

set_option autoImplicit false
set_option relaxedAutoImplicit false

namespace Lyrion.Node

open Library.ByteCodec Library.KeyValue Library.Runs Data Utils Tx

/-- The journal that `add_block` writes before a reorganisation. -/
def reorgJournal (c : Chain) (block : Block) (prevHeight nowMs : Nat) : ReorgJournal :=
  ⟨journalIdOf nowMs, UInt64.ofNat c.bestHeight, c.bestTip,
    UInt64.ofNat (usizeSub c.bestHeight prevHeight), block⟩

section Writes

variable (env : Env) (c : Chain) (block : Block) (hash : Hash) (prevHeight nowMs : Nat)

def chainBatch : Result DbBatch :=
  reorgBatch env c.db c.state.utxoSetHash c.state.totalSupply prevHeight (c.bestHeight - prevHeight)
    block

/-- The writes of the heavier-block path, in their order. Without a batch only the journal is
written. -/
def reorgWrites : List DbBatch :=
  [putCf .default (reorgKey (journalIdOf nowMs))
      (reorgJournalCodec.encode (reorgJournal c block prevHeight nowMs))] ::
    match chainBatch env c block prevHeight with
    | .error _ => []
    | .ok batch => [batch, [deleteCf .default (reorgKey (journalIdOf nowMs))],
        saveOps (prevHeight + 1) block hash]

def stopped (writes : Nat) : Db :=
  ((reorgWrites env c block hash prevHeight nowMs).take writes).foldl write c.db

def landed (o : Outside) : Nat :=
  if !o.journalPut then 0
  else if !o.reorgWrite then 1
  else if !o.journalDelete then 2
  else if !o.saveWrite then 3
  else 4

variable {env c block hash prevHeight nowMs}

theorem reorgBatch_eq_chainBatch (id journal : Bytes) :
    reorgBatch env (write c.db [putCf .default (reorgKey id) journal]) c.state.utxoSetHash
      c.state.totalSupply prevHeight (c.bestHeight - prevHeight) block =
        chainBatch env c block prevHeight :=
  reorgBatch_journalled c id journal c.state.utxoSetHash c.state.totalSupply prevHeight
    (c.bestHeight - prevHeight) block

/-- The writes are those of `add_block`: where one fails, the database is the one of a process that
stops there. -/
theorem reorganise_stopped {o : Outside} (clock : o.journalMs = some nowMs)
    (hashed : headerHash env block.header = .ok hash) :
    (finish env o block (prevHeight + 1) true (reorganise env o block prevHeight c)).2.db =
      stopped env c block hash prevHeight nowMs (landed o) := by
  simp only [stopped, reorgWrites, landed, reorganise, clock, reorgBatch_eq_chainBatch,
    reorgJournal]
  cases put : o.journalPut with
  | false => rfl
  | true =>
      cases built : chainBatch env c block prevHeight with
      | error e =>
          cases o.reorgWrite <;> cases o.journalDelete <;> cases o.saveWrite <;> rfl
      | ok batch =>
          cases o.reorgWrite <;> cases o.journalDelete <;> cases save : o.saveWrite <;>
            simp [finish, saveBlock, hashed, save, fail]

end Writes

structure SameIndex (db other : Db) : Prop where
  stores : ∀ family, family ≠ .default → db family = other family
  index : ∀ k, IndexKey k → get db .default k = get other .default k

private theorem SameIndex.trans {db middle other : Db} (first : SameIndex db middle)
    (second : SameIndex middle other) : SameIndex db other where
  stores family plain := (first.stores family plain).trans (second.stores family plain)
  index k index := (first.index k index).trans (second.index k index)

private theorem sameIndex_write {db : Db} {batch : DbBatch}
    (journals : ∀ op ∈ batch, op.1 = .default ∧ ∃ id, op.2.key = reorgKey id) :
    SameIndex (write db batch) db := by
  constructor
  · intro family plain
    apply write_of_no_writes
    intro op member same
    exact plain (same.symm.trans (journals op member).1)
  · intro k index
    apply get_write_of_notMem
    intro member
    obtain ⟨w, inside, rfl⟩ := List.mem_map.mp member
    obtain ⟨-, id, same⟩ := journals _ (mem_writesTo.mp inside)
    exact index.ne_reorgKey id same

def NoJournal (db : Db) : Prop := ∀ id, get db .default (reorgKey id) = none

def OneJournal (db : Db) (id : Bytes) : Prop :=
  ∀ other, get db .default (reorgKey other) ≠ none → other = id

private theorem reorgKey_ne {id other : Bytes} (different : id ≠ other) : reorgKey id ≠ reorgKey
    other :=
  fun same => different (List.append_cancel_left same)

private theorem OneJournal.delete {db : Db} {id : Bytes} (one : OneJournal db id) :
    NoJournal (write db [deleteCf .default (reorgKey id)]) := by
  intro other
  by_cases own : other = id
  · subst own
    simp [Data.get, write, deleteCf, applyWrite]
  · rw [get_journalDelete (reorgKey_ne own)]
    by_contra found
    exact own (one other found)

section Recovery

variable {env : Env} {setHash : Hash} {supply : UInt64}

theorem noJournal_iff {db : Db} : NoJournal db ↔ pendingKeys db = [] := by
  rw [List.eq_nil_iff_forall_not_mem]
  constructor
  · intro clear key member
    obtain ⟨id, rfl, stored⟩ := mem_pendingKeys.mp member
    exact stored (clear id)
  · intro empty id
    by_contra stored
    exact empty _ (mem_pendingKeys.mpr ⟨id, rfl, stored⟩)

private theorem NoJournal.recover {db : Db} (clear : NoJournal db) :
    recoverPendingReorgs env setHash supply db = .ok db := by
  rw [recoverPendingReorgs, noJournal_iff.mp clear]
  rfl

/-- The entry can be read and was written for another tip than the stored one. -/
def StaleEntry (db : Db) (value : Bytes) : Prop :=
  ∃ journal height tip, reorgJournalCodec.read value = some journal ∧
    loadCurrentHeight db = .ok height ∧ loadCurrentTip db = .ok tip ∧
    ¬ (height = journal.oldTipHeight.toNat ∧ tip = journal.oldTipHash)

def Stale (db : Db) : Prop :=
  ∀ id value, get db .default (reorgKey id) = some value → StaleEntry db value

private theorem SameIndex.staleEntry {db other : Db} (same : SameIndex db other) {value : Bytes}
    (stale : StaleEntry other value) : StaleEntry db value := by
  obtain ⟨journal, height, tip, read, atHeight, atTip, differs⟩ := stale
  refine ⟨journal, height, tip, read, ?_, ?_, differs⟩
  · rw [← atHeight, loadCurrentHeight, loadCurrentHeight, same.index _ .bestHeight]
  · rw [← atTip, loadCurrentTip, loadCurrentTip, same.index _ .tip]

private theorem StaleEntry.recoverReorg {db : Db} {key value : Bytes}
    (stale : StaleEntry db value) :
    recoverReorg env setHash supply db key value = .ok (write db [deleteCf .default key]) := by
  obtain ⟨journal, height, tip, read, atHeight, atTip, differs⟩ := stale
  simp only [Node.recoverReorg, read, orFail, atHeight, atTip]
  exact if_neg differs

private theorem foldlM_stale (db : Db) (keys : List Bytes) (current : Db)
    (same : SameIndex current db)
    (stale : ∀ key ∈ keys, ∃ id value, key = reorgKey id ∧ get db .default key = some value ∧
      StaleEntry db value) :
    keys.foldlM (fun current key => recoverReorg env setHash supply current key
      ((get db .default key).getD [])) current =
        .ok (write current (keys.map (deleteCf .default))) := by
  induction keys generalizing current with
  | nil => rfl
  | cons key keys ih =>
      obtain ⟨id, value, rfl, stored, entry⟩ := stale key List.mem_cons_self
      have dropped : SameIndex (write current [deleteCf .default (reorgKey id)]) current := by
        apply sameIndex_write
        intro op member
        obtain rfl := List.mem_singleton.mp member
        exact ⟨rfl, id, rfl⟩
      have rest := ih _ (dropped.trans same) fun other inside =>
        stale other (List.mem_cons_of_mem _ inside)
      rw [List.foldlM_cons, stored, Option.getD_some, (same.staleEntry entry).recoverReorg]
      change List.foldlM _ _ keys = _
      rw [rest, ← write_append, List.map_cons, List.singleton_append]

private theorem Stale.recover {db : Db} (stale : Stale db) :
    ∃ after, recoverPendingReorgs env setHash supply db = .ok after ∧ SameIndex after db ∧
      NoJournal after := by
  refine ⟨_, foldlM_stale db (pendingKeys db) db ⟨fun _ _ => rfl, fun _ _ => rfl⟩ ?_, ?_, ?_⟩
  · intro key member
    obtain ⟨id, rfl, stored⟩ := mem_pendingKeys.mp member
    obtain ⟨value, found⟩ := Option.ne_none_iff_exists'.mp stored
    exact ⟨id, value, rfl, found, stale id value found⟩
  · apply sameIndex_write
    intro op member
    obtain ⟨key, inside, rfl⟩ := List.mem_map.mp member
    obtain ⟨id, rfl, -⟩ := mem_pendingKeys.mp inside
    exact ⟨rfl, id, rfl⟩
  · intro id
    by_cases pending : reorgKey id ∈ pendingKeys db
    · refine lookup_applyWrites_of_agree _ _ _ _ ?_ ⟨.delete (reorgKey id), ?_, rfl⟩
      · intro w member same
        obtain ⟨key, -, entry⟩ := List.mem_map.mp (mem_writesTo.mp member)
        rw [← (Prod.mk.inj entry).2]
        rfl
      · exact mem_writesTo.mpr (List.mem_map.mpr ⟨_, pending, rfl⟩)
    · rw [get_write_of_notMem]
      · by_contra stored
        exact pending (mem_pendingKeys.mpr ⟨id, rfl, stored⟩)
      · intro member
        obtain ⟨w, inside, same⟩ := List.mem_map.mp member
        obtain ⟨key, listed, entry⟩ := List.mem_map.mp (mem_writesTo.mp inside)
        rw [← (Prod.mk.inj entry).2] at same
        obtain rfl : key = reorgKey id := same
        exact pending listed

private theorem recoverPendingReorgs_single {db : Db} {id value : Bytes}
    (stored : get db .default (reorgKey id) = some value)
    (one : OneJournal db id) :
    recoverPendingReorgs env setHash supply db =
      recoverReorg env setHash supply db (reorgKey id) value := by
  have keys : ((db .default).keys.filter fun k => reorgPrefix.isPrefixOf k) = {reorgKey id} := by
    ext k
    simp only [Finset.mem_filter, Finmap.mem_keys, Finset.mem_singleton,
      List.isPrefixOf_iff_prefix]
    constructor
    · rintro ⟨inside, other, rfl⟩
      rw [one other fun missing => Finmap.lookup_eq_none.mp missing inside]
      rfl
    · rintro rfl
      refine ⟨?_, id, rfl⟩
      by_contra missing
      rw [Data.get, Finmap.lookup_eq_none.mpr missing] at stored
      exact absurd stored (by simp)
  have pending : pendingKeys db = [reorgKey id] := by
    rw [pendingKeys, keys, Finset.image_singleton, Finset.sort_singleton]
    simp [List.map_map, Function.comp_def]
  rw [recoverPendingReorgs, pending, List.foldlM_cons, stored, Option.getD_some]
  simp only [List.foldlM_nil, bind_pure]

private theorem usizeSub_one_add (height : Nat) :
    (usizeSub height 1 + 1) % 2 ^ 64 = height % 2 ^ 64 := by
  unfold usizeSub
  split <;> omega

private theorem recoverDisconnects_spec {db : Db} {depth height below : Nat}
    {batch result : DbBatch}
    (done : recoverDisconnects env setHash supply db depth height batch = .ok (below, result))
    (before : ∀ w ∈ writesTo .default batch, CounterKey w.key) :
    (below + depth) % 2 ^ 64 = height % 2 ^ 64 ∧
      ∀ w ∈ writesTo .default result, CounterKey w.key := by
  induction depth generalizing height batch with
  | zero =>
      simp only [recoverDisconnects, Except.ok.injEq, Prod.mk.injEq] at done
      obtain ⟨rfl, rfl⟩ := done
      exact ⟨rfl, before⟩
  | succ depth ih =>
      simp only [recoverDisconnects, bind_eq_ok] at done
      obtain ⟨blk, -, next, ops, rest⟩ := done
      obtain ⟨heights, written⟩ := ih rest (disconnect_counters ops before)
      have step := usizeSub_one_add height
      refine ⟨?_, written⟩
      omega

theorem recoverReorg_eq_ok {db after : Db} {key value : Bytes}
    (recovered : recoverReorg env setHash supply db key value = .ok after) :
    StaleEntry db value ∧ after = write db [deleteCf .default key] ∨
      ∃ journal below batch, reorgJournalCodec.read value = some journal ∧
        (below + journal.disconnectDepth.toNat) % 2 ^ 64 =
          journal.oldTipHeight.toNat % 2 ^ 64 ∧
        StoresHeader journal.newBlock ((below + 1) % 2 ^ 64) batch ∧
        after = write (write db batch) [deleteCf .default key] := by
  simp only [recoverReorg, bind_eq_ok, orFail_eq_ok] at recovered
  obtain ⟨journal, read, height, atHeight, tip, atTip, rest⟩ := recovered
  split at rest
  case isTrue current =>
    simp only [bind_eq_ok, pure_eq_ok] at rest
    obtain ⟨⟨below, first⟩, disconnects, batch, connects, rfl⟩ := rest
    obtain ⟨heights, counters⟩ := recoverDisconnects_spec disconnects (by simp)
    rw [current.1] at heights
    exact Or.inr ⟨journal, below, batch, read, heights, .of_connect connects counters, rfl⟩
  case isFalse differs =>
    obtain rfl := pure_eq_ok.mp rest
    exact Or.inl ⟨⟨journal, height, tip, read, atHeight, atTip, differs⟩, rfl⟩

end Recovery

/-- Recovery takes a database to one with the index of `before` or of `after`, without a journal,
and a second recovery changes nothing. -/
def Repaired (env : Env) (setHash : Hash) (supply : UInt64) (before after db : Db) : Prop :=
  ∃ repaired, recoverPendingReorgs env setHash supply db = .ok repaired ∧
    (SameIndex repaired before ∨ SameIndex repaired after) ∧ NoJournal repaired ∧
    recoverPendingReorgs env setHash supply repaired = .ok repaired

section Crash

variable {env : Env} {c : Chain} {block : Block} {hash : Hash} {prevHeight nowMs : Nat}
  {setHash : Hash} {supply : UInt64}

theorem sameIndex_journal (c : Chain) (id journal : Bytes) :
    SameIndex (journalled c id journal) c.db := by
  apply sameIndex_write
  intro op member
  obtain rfl := List.mem_singleton.mp member
  exact ⟨rfl, id, rfl⟩

private theorem stopped_one : stopped env c block hash prevHeight nowMs 1 =
    journalled c (journalIdOf nowMs)
      (reorgJournalCodec.encode (reorgJournal c block prevHeight nowMs)) :=
  rfl

private theorem stopped_of_error {e : Fault} (failed : chainBatch env c block prevHeight = .error e)
    (writes : Nat) : stopped env c block hash prevHeight nowMs (writes + 1) =
      stopped env c block hash prevHeight nowMs 1 := by
  simp [stopped, reorgWrites, failed]

private theorem stopped_complete (writes : Nat) : stopped env c block hash prevHeight nowMs
    (writes + 4) = stopped env c block hash prevHeight nowMs 4 := by
  simp only [stopped, reorgWrites]
  cases chainBatch env c block prevHeight <;> simp

private theorem sameIndex_stopped {writes : Nat}
    (safe : ∀ batch, chainBatch env c block prevHeight = .ok batch → writes ≠ 2 ∧ writes ≠ 3) :
    SameIndex (stopped env c block hash prevHeight nowMs writes) c.db ∨
      stopped env c block hash prevHeight nowMs writes =
        stopped env c block hash prevHeight nowMs 4 := by
  match writes with
  | 0 => exact Or.inl ⟨fun _ _ => rfl, fun _ _ => rfl⟩
  | 1 => exact Or.inl (sameIndex_journal c _ _)
  | writes + 4 => exact Or.inr (stopped_complete writes)
  | 2 | 3 =>
      cases built : chainBatch env c block prevHeight with
      | error e =>
          rw [stopped_of_error built]
          exact Or.inl (sameIndex_journal c _ _)
      | ok batch =>
          obtain ⟨notTwo, notThree⟩ := safe batch built
          omega

def HalfDone (c : Chain) (block : Block) (prevHeight : Nat) (db : Db) : Prop :=
  get db .default (headerKey (prevHeight + 1)) = some (headerCodec.encode block.header) ∧
    get db .default tipKey = get c.db .default tipKey

/-- The block is new to the database: neither its header nor its tip is there. -/
structure NewToDb (c : Chain) (block : Block) (hash : Hash) (prevHeight : Nat) : Prop where
  usize : prevHeight < 2 ^ 64
  header : get c.db .default (headerKey (prevHeight + 1)) ≠ some (headerCodec.encode block.header)
  tip : get c.db .default tipKey ≠ some hash.toList

private theorem get_stopped_four {batch : DbBatch}
    (built : chainBatch env c block prevHeight = .ok batch) :
    get (stopped env c block hash prevHeight nowMs 4) .default tipKey = some hash.toList := by
  simp only [stopped, reorgWrites, built]
  exact get_saveOps_tip ..

private theorem HalfDone.not_sameIndex {db : Db} (half : HalfDone c block prevHeight db)
    (new : NewToDb c block hash prevHeight) :
    ¬ (SameIndex db c.db ∨
      SameIndex db (stopped env c block hash prevHeight nowMs 4)) := by
  obtain ⟨header, tip⟩ := half
  have notBefore : ¬ SameIndex db c.db := by
    intro same
    rw [same.index _ (.header _)] at header
    exact new.header header
  rintro (before | same)
  · exact notBefore before
  cases built : chainBatch env c block prevHeight with
  | error e =>
      rw [stopped_of_error built 3, stopped_one] at same
      exact notBefore (same.trans (sameIndex_journal c _ _))
  | ok batch =>
      rw [same.index _ .tip, get_stopped_four built] at tip
      exact new.tip tip.symm

private theorem headerKey_congr {height other : Nat} (same : height % 2 ^ 64 = other % 2 ^ 64) :
    headerKey height = headerKey other := by
  rw [headerKey, headerKey, ← beBytes_mod 8 height, ← beBytes_mod 8 other]
  exact congrArg (fun low => _ ++ beBytes 8 low) same

private theorem reorgJournal_height {below : Nat} (usize : prevHeight < 2 ^ 64)
    (heights : (below + (reorgJournal c block prevHeight nowMs).disconnectDepth.toNat) % 2 ^ 64 =
      (reorgJournal c block prevHeight nowMs).oldTipHeight.toNat % 2 ^ 64) :
    headerKey ((below + 1) % 2 ^ 64) = headerKey (prevHeight + 1) := by
  apply headerKey_congr
  simp only [reorgJournal, UInt64.toNat_ofNat', usizeSub] at heights
  split at heights <;> omega

private theorem recover_reorgJournal {db after : Db} (usize : prevHeight < 2 ^ 64)
    (short : (reorgJournalCodec.encode (reorgJournal c block prevHeight nowMs)).length < 2 ^ 64)
    (stored : get db .default (reorgKey (journalIdOf nowMs)) =
      some (reorgJournalCodec.encode (reorgJournal c block prevHeight nowMs)))
    (one : OneJournal db (journalIdOf nowMs))
    (tip : get db .default tipKey = get c.db .default tipKey)
    (recovered : recoverPendingReorgs env setHash supply db = .ok after) :
    Stale db ∧ after = write db [deleteCf .default (reorgKey (journalIdOf nowMs))] ∨
      HalfDone c block prevHeight after := by
  rw [recoverPendingReorgs_single stored one] at recovered
  rcases recoverReorg_eq_ok recovered with ⟨stale, dropped⟩ | redone
  · refine Or.inl ⟨?_, dropped⟩
    intro id value found
    obtain rfl := one id (by simp [found])
    rw [stored] at found
    rwa [← Option.some.inj found]
  · obtain ⟨journal, below, batch, read, heights, stores, rfl⟩ := redone
    rw [Codec.read_encode _ _ short] at read
    obtain rfl := Option.some.inj read
    rw [HalfDone, ← reorgJournal_height usize heights,
      get_journalDelete (IndexKey.ne_reorgKey (.header _) _), stores.get_header,
      get_journalDelete (IndexKey.tip.ne_reorgKey _),
      stores.get_of_other _ IndexKey.tip.not_counter (tip_ne_headerKey _), tip]
    exact Or.inr ⟨rfl, rfl⟩

theorem get_journalled (c : Chain) (id journal : Bytes) :
    get (journalled c id journal) .default (reorgKey id) = some journal := by
  simp [Data.get, journalled, write, putCf, applyWrite]

private theorem NoJournal.journalled (clear : NoJournal c.db) (id journal : Bytes) :
    OneJournal (journalled c id journal) id := by
  intro other found
  by_contra different
  exact found ((get_journalPut (reorgKey_ne different)).trans (clear other))

section Built

variable {batch : DbBatch} (built : chainBatch env c block prevHeight = .ok batch)

include built

private theorem stopped_two : stopped env c block hash prevHeight nowMs 2 =
    write (stopped env c block hash prevHeight nowMs 1) batch := by
  simp [stopped, reorgWrites, built]

private theorem stopped_three : stopped env c block hash prevHeight nowMs 3 =
    write (stopped env c block hash prevHeight nowMs 2)
      [deleteCf .default (reorgKey (journalIdOf nowMs))] := by
  simp [stopped, reorgWrites, built]

private theorem stopped_four : stopped env c block hash prevHeight nowMs 4 =
    write (stopped env c block hash prevHeight nowMs 3) (saveOps (prevHeight + 1) block hash) := by
  simp [stopped, reorgWrites, built]

private theorem get_stopped_two (id : Bytes) :
    get (stopped env c block hash prevHeight nowMs 2) .default (reorgKey id) =
      get (stopped env c block hash prevHeight nowMs 1) .default (reorgKey id) := by
  rw [stopped_two built]
  exact (reorgBatch_default built).get_of_other _ (fun counter => counter.ne_reorgKey id rfl)
    (IndexKey.ne_reorgKey (.header _) id).symm

private theorem stopped_two_halfDone :
    HalfDone c block prevHeight (stopped env c block hash prevHeight nowMs 2) := by
  have stores : StoresHeader block (prevHeight + 1) batch := reorgBatch_default built
  rw [HalfDone, stopped_two built, stores.get_header,
    stores.get_of_other _ IndexKey.tip.not_counter (tip_ne_headerKey _)]
  exact ⟨rfl, (sameIndex_journal c _ _).index _ .tip⟩

private theorem stopped_two_oneJournal (clear : NoJournal c.db) :
    OneJournal (stopped env c block hash prevHeight nowMs 2) (journalIdOf nowMs) := by
  intro other found
  rw [get_stopped_two built] at found
  exact clear.journalled _ _ other found

private theorem stopped_three_noJournal (clear : NoJournal c.db) :
    NoJournal (stopped env c block hash prevHeight nowMs 3) := by
  rw [stopped_three built]
  exact (stopped_two_oneJournal built clear).delete

private theorem stopped_four_noJournal (clear : NoJournal c.db) :
    NoJournal (stopped env c block hash prevHeight nowMs 4) := by
  intro id
  rw [stopped_four built, get_write_of_notMem, stopped_three_noJournal built clear id]
  rw [defaultKeys_saveOps]
  simp only [List.mem_cons, List.not_mem_nil, or_false, not_or]
  exact ⟨(IndexKey.ne_reorgKey (.block _) id).symm, (IndexKey.ne_reorgKey (.hash _) id).symm,
    (IndexKey.ne_reorgKey .tip id).symm, (IndexKey.ne_reorgKey .bestHeight id).symm⟩

end Built

private theorem HalfDone.delete {db : Db} (half : HalfDone c block prevHeight db) (id : Bytes) :
    HalfDone c block prevHeight (write db [deleteCf .default (reorgKey id)]) := by
  rw [HalfDone, get_journalDelete (IndexKey.ne_reorgKey (.header _) _),
    get_journalDelete (IndexKey.tip.ne_reorgKey _)]
  exact half

private theorem halfDone_of_batch (clear : NoJournal c.db) (usize : prevHeight < 2 ^ 64)
    (short : (reorgJournalCodec.encode (reorgJournal c block prevHeight nowMs)).length < 2 ^ 64)
    {batch : DbBatch} (built : chainBatch env c block prevHeight = .ok batch) {after : Db}
    {writes : Nat} (late : writes = 2 ∨ writes = 3)
    (recovered : recoverPendingReorgs env setHash supply
      (stopped env c block hash prevHeight nowMs writes) = .ok after) :
    HalfDone c block prevHeight after := by
  have half := @stopped_two_halfDone env c block hash prevHeight nowMs batch built
  rcases late with rfl | rfl
  · have stored := (@get_stopped_two env c block hash prevHeight nowMs batch built _).trans
      (get_journalled c _ _)
    rcases recover_reorgJournal usize short stored (stopped_two_oneJournal built clear) half.2
      recovered with ⟨-, rfl⟩ | redone
    · exact half.delete _
    · exact redone
  · rw [(stopped_three_noJournal built clear).recover, stopped_three built] at recovered
    rw [← Except.ok.inj recovered]
    exact half.delete _

private theorem NoJournal.stale {db : Db} (clear : NoJournal db) : Stale db := by
  intro id value found
  rw [clear id] at found
  exact absurd found (by simp)

end Crash

section Main

variable (env : Env) (c : Chain) (block : Block) (hash : Hash) (prevHeight nowMs : Nat)

/-- The process does not stop between the batch and `save_block`, and the journals it leaves were
written for another tip than the stored one. -/
def SafeStop (writes : Nat) : Prop :=
  (∀ batch, chainBatch env c block prevHeight = .ok batch → writes ≠ 2 ∧ writes ≠ 3) ∧
    Stale (stopped env c block hash prevHeight nowMs writes)

/-- Safe stops are repaired. For a block that is new to a database without journals, no other stop
is: between the batch and `save_block` the stores have moved and the tip has not, and a current
journal brings recovery to the same place. -/
theorem crash_repaired (setHash : Hash) (supply : UInt64) (writes : Nat) :
    (SafeStop env c block hash prevHeight nowMs writes →
      Repaired env setHash supply c.db (stopped env c block hash prevHeight nowMs 4)
        (stopped env c block hash prevHeight nowMs writes)) ∧
    (NoJournal c.db → NewToDb c block hash prevHeight →
      (reorgJournalCodec.encode (reorgJournal c block prevHeight nowMs)).length < 2 ^ 64 →
      Repaired env setHash supply c.db (stopped env c block hash prevHeight nowMs 4)
        (stopped env c block hash prevHeight nowMs writes) →
      SafeStop env c block hash prevHeight nowMs writes) := by
  constructor
  · rintro ⟨safe, stale⟩
    obtain ⟨after, recovered, same, clear⟩ := @Stale.recover env setHash supply _ stale
    refine ⟨after, recovered, ?_, clear, clear.recover⟩
    rcases sameIndex_stopped safe with before | complete
    · exact Or.inl (same.trans before)
    · exact Or.inr (complete ▸ same)
  · rintro clear new short ⟨after, recovered, ends, -, -⟩
    have whole : ¬ HalfDone c block prevHeight after := fun half => half.not_sameIndex new ends
    have journalOnly {db : Db} (at_one : db = stopped env c block hash prevHeight nowMs 1)
        (recovered : recoverPendingReorgs env setHash supply db = .ok after) : Stale db := by
      subst at_one
      rcases recover_reorgJournal new.usize short (get_journalled c _ _)
        (clear.journalled _ _) ((sameIndex_journal c _ _).index _ .tip) recovered with
        ⟨stale, -⟩ | half
      · exact stale
      · exact absurd half whole
    have safe (batch : DbBatch) (built : chainBatch env c block prevHeight = .ok batch) :
        writes ≠ 2 ∧ writes ≠ 3 := by
      rw [← not_or]
      intro late
      exact whole (halfDone_of_batch clear new.usize short built late recovered)
    refine ⟨safe, ?_⟩
    rcases Nat.lt_or_ge 1 writes with late | early
    · cases built : chainBatch env c block prevHeight with
      | error e =>
          obtain ⟨rest, rfl⟩ := Nat.exists_eq_add_of_le' (Nat.le_of_lt late)
          exact journalOnly (stopped_of_error built rest) recovered
      | ok batch =>
          obtain ⟨notTwo, notThree⟩ := safe batch built
          obtain ⟨rest, rfl⟩ : ∃ rest, writes = rest + 4 := ⟨writes - 4, by omega⟩
          rw [stopped_complete rest]
          exact (stopped_four_noJournal built clear).stale
    · rcases Nat.le_one_iff_eq_zero_or_eq_one.mp early with rfl | rfl
      · exact clear.stale
      · exact journalOnly rfl recovered

end Main

private theorem sampleNode_noJournal : NoJournal (sampleNode false).db :=
  noJournal_iff.mpr (by decide +kernel)

private theorem sampleHeavy_new :
    NewToDb (sampleNode false) sampleHeavy (sampleHash sampleHeavy) 0 where
  usize := by decide
  header := by decide +kernel
  tip := by decide +kernel

/-- A node that takes a heavier block and stops after the batch cannot be repaired. -/
theorem crash_after_batch_not_repaired :
    ¬ Repaired sampleEnv zeroHash 20000 (sampleNode false).db
      (stopped sampleEnv (sampleNode false) sampleHeavy (sampleHash sampleHeavy) 0 0 4)
      (stopped sampleEnv (sampleNode false) sampleHeavy (sampleHash sampleHeavy) 0 0 2) := by
  rintro ⟨after, recovered, ends, -, -⟩
  obtain ⟨batch, built⟩ := exists_of_isOk (show (chainBatch sampleEnv (sampleNode false)
    sampleHeavy 0).isOk by decide +kernel)
  have half := halfDone_of_batch sampleNode_noJournal sampleHeavy_new.usize (by decide +kernel)
    built (Or.inl rfl) recovered
  exact half.not_sameIndex sampleHeavy_new ends

theorem finished_reorganisation_repaired :
    Repaired sampleEnv zeroHash 20000 (sampleNode false).db
      (stopped sampleEnv (sampleNode false) sampleHeavy (sampleHash sampleHeavy) 0 0 4)
      (stopped sampleEnv (sampleNode false) sampleHeavy (sampleHash sampleHeavy) 0 0 4) := by
  obtain ⟨batch, built⟩ := exists_of_isOk (show (chainBatch sampleEnv (sampleNode false)
    sampleHeavy 0).isOk by decide +kernel)
  exact (crash_repaired sampleEnv (sampleNode false) sampleHeavy (sampleHash sampleHeavy) 0 0
    zeroHash 20000 4).1
    ⟨fun _ _ => by decide, (stopped_four_noJournal built sampleNode_noJournal).stale⟩

end Lyrion.Node
