/- GID: Lyrion/Node/Coinless
   digest: A database without coins stays one: a coinbase stores no output, and nothing else is
     accepted where there is nothing to spend. -/

import Lyrion.Node.Crash

set_option autoImplicit false
set_option relaxedAutoImplicit false

namespace Lyrion.Node

open Library.ByteCodec Library.KeyValue Library.Runs Data Utils Tx

variable {tx : Transaction} {acc : UtxoAcc}

def Coinless (db : Db) : Prop := ∀ isAnonymous key, get db (coinFamily isAnonymous) key = none

def CoinbaseOnly (block : Block) : Prop := ∀ tx ∈ block.txs, isCoinbase tx = true

/-- No coins, and no pending journal of a block that would create some. -/
structure Barren (db : Db) : Prop where
  coinless : Coinless db
  journals : ∀ id value journal, get db .default (reorgKey id) = some value →
    reorgJournalCodec.read value = some journal → CoinbaseOnly journal.newBlock

structure Sterile (batch : DbBatch) : Prop where
  coins : ∀ isAnonymous, ∀ w ∈ writesTo (coinFamily isAnonymous) batch, w.left = none
  journals : ∀ w ∈ writesTo .default batch, ∀ id, w.key = reorgKey id → w.left = none

variable {env : Env} {world : World} {db : Db}

section Batches

variable {batch more : DbBatch}

private theorem Sterile.append (first : Sterile batch) (second : Sterile more) :
    Sterile (batch ++ more) := by
  constructor
  · intro isAnonymous w member
    rw [writesTo_append, List.mem_append] at member
    exact member.elim (first.coins isAnonymous w) (second.coins isAnonymous w)
  · intro w member
    rw [writesTo_append, List.mem_append] at member
    exact member.elim (first.journals w) (second.journals w)

theorem sterile_of_elsewhere
    (elsewhere : ∀ op ∈ batch, ∀ isAnonymous, op.1 ≠ coinFamily isAnonymous)
    (journals : ∀ k ∈ defaultKeys batch, ∀ id, k ≠ reorgKey id) : Sterile batch := by
  constructor
  · intro isAnonymous w member
    exact absurd rfl (elsewhere _ (mem_writesTo.mp member) isAnonymous)
  · intro w member id same
    exact absurd same (journals w.key (List.mem_map_of_mem member) id)

private theorem Coinless.write (coinless : Coinless db)
    (erased : ∀ isAnonymous, ∀ w ∈ writesTo (coinFamily isAnonymous) batch, w.left = none) :
    Coinless (write db batch) := by
  intro isAnonymous key
  by_contra found
  obtain ⟨value, found⟩ := Option.ne_none_iff_exists'.mp found
  have before := lookup_of_erased (fun w member _ => erased isAnonymous w member) found
  exact absurd ((coinless isAnonymous key).symm.trans before) (by simp)

theorem Barren.write (barren : Barren db) (sterile : Sterile batch) : Barren (write db batch) := by
  refine ⟨barren.coinless.write sterile.coins, ?_⟩
  intro id value journal found decoded
  refine barren.journals id value journal ?_ decoded
  exact lookup_of_erased (fun w member same => sterile.journals w member id same) found

end Batches

section Effects

variable {height : Nat} {isConnect : Bool}

private theorem Coinless.inputs_eq_nil (coinless : Coinless db) (handled : TxOk env db isConnect tx)
    (ordinary : isCoinbase tx = false) : tx.inputs = [] := by
  apply List.eq_nil_iff_forall_not_mem.mpr
  intro vin member
  have stored := (handled ordinary vin member).1
  rw [storedCoin, coinless] at stored
  exact absurd stored (by simp)

private theorem Coinless.erased_txEffect (coinless : Coinless db)
    (handled : TxOk env db isConnect tx) (kind : isConnect = true → isCoinbase tx = true)
    (isAnonymous : Bool) {w : Write Bytes Bytes}
    (member : w ∈ writesTo (coinFamily isAnonymous) (txEffect env db height isConnect tx).writes) :
    w.left = none := by
  cases ordinary : isCoinbase tx with
  | true => cases isConnect <;> cases isAnonymous <;>
      simp [txEffect, ordinary, coinbaseEffect, putCf, deleteCf, coinFamily] at member
  | false =>
      obtain rfl : isConnect = false := by
        by_contra connects
        exact absurd ((kind (by simpa using connects)).symm.trans ordinary) (by simp)
      simp only [txEffect, ordinary, coinless.inputs_eq_nil handled ordinary, Bool.false_eq_true,
        if_false, List.map_nil, List.prod_nil, one_mul, Effect.prod_writes, writesTo_flatMap,
        List.mem_flatMap] at member
      obtain ⟨entry, -, member⟩ := member
      cases isAnonymous <;> cases anonymous : tx.isAnonymous <;>
        simp [outputEffect, newCoinEffect, addrEffect, anonymous, deleteCf, coinFamily]
          at member <;>
        simp [member, Write.left]

private theorem Coinless.erased_blockEffect (coinless : Coinless db) {block : Block}
    (handled : ∀ tx ∈ block.txs, TxOk env db isConnect tx)
    (kind : isConnect = true → CoinbaseOnly block) (isAnonymous : Bool) {w : Write Bytes Bytes}
    (member : w ∈ writesTo (coinFamily isAnonymous)
      (blockEffect env db height isConnect block.txs).writes) : w.left = none := by
  rw [blockEffect, Effect.prod_writes, writesTo_flatMap] at member
  obtain ⟨tx, inside, member⟩ := List.mem_flatMap.mp member
  exact coinless.erased_txEffect (handled tx inside) (fun connects => kind connects tx inside)
    isAnonymous member

private theorem CoinbaseOnly.undo {block : Block} (only : CoinbaseOnly block)
    {op : Family × Bytes × Option Bytes}
    (member : op ∈ (blockEffect env db height true block.txs).undo) : op.1 = .coinbase := by
  rw [blockEffect, Effect.prod_undo] at member
  obtain ⟨tx, inside, member⟩ := List.mem_flatMap.mp member
  simp only [txEffect, only tx inside, coinbaseEffect, if_true, List.mem_singleton] at member
  rw [member]

end Effects

section Operations

variable {setHash : Hash} {supply : UInt64} {block : Block} {height : Nat} {batch result : DbBatch}

private theorem sterile_counterWrites : Sterile (counterWrites setHash supply) := by
  apply sterile_of_elsewhere
  · intro op member isAnonymous
    simp only [counterWrites, List.mem_cons, List.not_mem_nil, or_false] at member
    cases isAnonymous <;> rcases member with rfl | rfl <;> simp [putCf, coinFamily]
  · intro k member id
    simp only [defaultKeys, writesTo_default_counterWrites, List.map_cons, List.map_nil, Write.key,
      List.mem_cons, List.not_mem_nil, or_false] at member
    exact CounterKey.ne_reorgKey member id

private theorem sterile_indexOps (action : BlockAction) : Sterile
    (indexOps env action block height) := by
  apply sterile_of_elsewhere
  · intro op member isAnonymous
    have places : op.1 = .default ∨ op.1 = .txIndex := by
      cases action with
      | connect =>
          simp only [indexOps, connectIndexOps, List.mem_cons, List.mem_map] at member
          rcases member with rfl | ⟨p, -, rfl⟩
          · exact Or.inl rfl
          · exact Or.inr rfl
      | disconnect =>
          simp only [indexOps, disconnectIndexOps, List.mem_map] at member
          obtain ⟨tx, -, rfl⟩ := member
          exact Or.inr rfl
    cases isAnonymous <;> rcases places with same | same <;> simp [same, coinFamily]
  · intro k member id
    rw [defaultKeys, writesTo_default_indexOps] at member
    cases action with
    | connect =>
        obtain rfl : k = headerKey height := by simpa [headerWrites, Write.key] using member
        exact (IndexKey.header height).ne_reorgKey id
    | disconnect => simp [headerWrites] at member

private theorem Coinless.sterile_applyUtxoChanges (coinless : Coinless db) {isConnect : Bool}
    (before : Sterile batch) (kind : isConnect = true → CoinbaseOnly block)
    (applied : applyUtxoChanges env db setHash supply block height isConnect batch = .ok acc) :
    Sterile acc.batch := by
  obtain ⟨handled, -, -, -, batches⟩ := (applyUtxoChanges_eq_ok ..).mp applied
  rw [batches]
  refine (before.append ⟨?_, ?_⟩).append sterile_counterWrites
  · exact fun isAnonymous _ => coinless.erased_blockEffect handled kind isAnonymous
  · rw [blockEffect_default]
    simp

theorem Coinless.sterile_buildBlockOps (coinless : Coinless db) {action : BlockAction}
    (before : Sterile batch) (kind : action = .connect → CoinbaseOnly block)
    (built : buildBlockOps env db setHash supply block height action batch = .ok result) :
    Sterile result := by
  obtain ⟨-, acc, applied, rfl⟩ := (buildBlockOps_eq_ok ..).mp built
  have handled := coinless.sterile_applyUtxoChanges before (by simpa using kind) applied
  exact (handled.append (sterile_indexOps action)).append sterile_counterWrites

theorem sterile_nil : Sterile [] := ⟨by simp, by simp⟩

private theorem Coinless.sterile_disconnectOps (coinless : Coinless db) {prevHeight depth : Nat}
    (before : Sterile batch)
    (built : disconnectOps env db setHash supply prevHeight depth batch = .ok result) :
    Sterile result := by
  induction depth generalizing batch with
  | zero =>
      obtain rfl := Except.ok.inj built
      exact before
  | succ depth ih =>
      simp only [disconnectOps, bind_eq_ok] at built
      obtain ⟨blk, -, next, ops, rest⟩ := built
      exact ih (coinless.sterile_buildBlockOps before (by simp) ops) rest

private theorem Coinless.sterile_reorgBatch (coinless : Coinless db) {prevHeight depth : Nat}
    (only : CoinbaseOnly block)
    (built : reorgBatch env db setHash supply prevHeight depth block = .ok batch) :
    Sterile batch := by
  simp only [reorgBatch, bind_eq_ok] at built
  obtain ⟨first, disconnects, connects⟩ := built
  exact coinless.sterile_buildBlockOps (coinless.sterile_disconnectOps sterile_nil disconnects)
    (fun _ => only) connects

private theorem Coinless.sterile_actionBatch {c : Chain} (coinless : Coinless c.db)
    (only : CoinbaseOnly block)
    (handled : applyUtxoChanges env c.db setHash supply block height true [] = .ok acc) :
    Sterile (actionBatch env block c height .connect acc) := by
  refine ((coinless.sterile_applyUtxoChanges sterile_nil (fun _ => only) handled).append
    (sterile_indexOps .connect)).append (sterile_of_elsewhere ?_ ?_)
  · intro op member isAnonymous
    obtain rfl := List.mem_singleton.mp member
    cases isAnonymous <;> simp [putCf, coinFamily]
  · intro k member id
    obtain rfl : k = stateTotalSupplyKey := by
      simpa [defaultKeys, putCf, Write.key] using member
    simp [stateTotalSupplyKey, reorgKey, reorgPrefix]

private theorem CoinbaseOnly.sterile_rollbackBatch (only : CoinbaseOnly block)
    (handled : applyUtxoChanges env db setHash supply block height true batch = .ok acc) :
    Sterile (rollbackBatch acc.rollbackOps) := by
  obtain ⟨-, -, -, undo, -⟩ := (applyUtxoChanges_eq_ok ..).mp handled
  have places : ∀ op ∈ rollbackBatch acc.rollbackOps, op.1 = .coinbase := by
    intro op member
    simp only [rollbackBatch, List.mem_map, List.mem_reverse, undo] at member
    obtain ⟨entry, inside, rfl⟩ := member
    have place := only.undo inside
    obtain ⟨family, key, value | value⟩ := entry <;> exact place
  apply sterile_of_elsewhere
  · intro op member isAnonymous
    rw [places op member]
    cases isAnonymous <;> decide
  · intro k member id
    obtain ⟨w, inside, rfl⟩ := List.mem_map.mp member
    exact absurd (places _ (mem_writesTo.mp inside)) (by simp)

theorem sterile_saveOps (hash : Hash) : Sterile (saveOps height block hash) := by
  apply sterile_of_elsewhere
  · intro op member isAnonymous
    simp only [saveOps, List.mem_cons, List.not_mem_nil, or_false] at member
    cases isAnonymous <;> rcases member with rfl | rfl | rfl | rfl <;> simp [putCf, coinFamily]
  · intro k member id
    simp only [defaultKeys_saveOps, List.mem_cons, List.not_mem_nil, or_false] at member
    rcases member with rfl | rfl | rfl | rfl
    · exact (IndexKey.block _).ne_reorgKey id
    · exact (IndexKey.hash _).ne_reorgKey id
    · exact IndexKey.tip.ne_reorgKey id
    · exact IndexKey.bestHeight.ne_reorgKey id

theorem sterile_journalDelete (id : Bytes) : Sterile [deleteCf .default (reorgKey id)] := by
  constructor
  · intro isAnonymous w member
    cases isAnonymous <;> simp [deleteCf, coinFamily] at member
  · intro w member other same
    obtain rfl : w = .delete (reorgKey id) := by simpa [deleteCf] using member
    rfl

private theorem Barren.journalPut (barren : Barren db) {journal : ReorgJournal}
    (only : CoinbaseOnly journal.newBlock)
    (short : (reorgJournalCodec.encode journal).length < 2 ^ 64) (id : Bytes) :
    Barren (Library.KeyValue.write db
      [putCf .default (reorgKey id) (reorgJournalCodec.encode journal)]) := by
  constructor
  · refine barren.coinless.write ?_
    intro isAnonymous w member
    cases isAnonymous <;> simp [putCf, coinFamily] at member
  · intro other value decoded found read
    by_cases same : reorgKey other = reorgKey id
    · have stored : get (Library.KeyValue.write db
          [putCf .default (reorgKey id) (reorgJournalCodec.encode journal)]) .default
            (reorgKey id) = some (reorgJournalCodec.encode journal) := by
        simp [Data.get, Library.KeyValue.write, putCf, applyWrite]
      rw [same, stored] at found
      obtain rfl := Option.some.inj found
      rw [reorgJournalCodec.read_encode journal short] at read
      obtain rfl := Option.some.inj read
      exact only
    · rw [get_journalPut same] at found
      exact barren.journals other value decoded found read

end Operations

section Journals

private theorem length_decimal_le (fuel n : Nat) (digits : Bytes) {k : Nat}
    (small : n < 10 ^ (k + 1)) :
    (decimal fuel n digits).length ≤ digits.length + (k + 1) := by
  induction fuel generalizing n digits k with
  | zero => exact Nat.le_add_right _ _
  | succ fuel ih =>
      rw [decimal]
      split
      · simp
      · rename_i large
        cases k with
        | zero => omega
        | succ k =>
            have shorter : n / 10 < 10 ^ (k + 1) := by
              rw [Nat.div_lt_iff_lt_mul (by decide), ← Nat.pow_succ]
              exact small
            have rest := ih (n / 10) (UInt8.ofNat (48 + n % 10) :: digits) shorter
            rw [List.length_cons] at rest
            omega

def ClockFits (world : World) : Prop :=
  ∀ tick now, (world.outside tick).journalMs = some now → now < 2 ^ 128

private theorem length_reorgJournal (c : Chain) {block : Block} (prevHeight : Nat) {now : Nat}
    (word : now < 2 ^ 128) (size : block.size ≤ maxBlockSize) :
    (reorgJournalCodec.encode (reorgJournal c block prevHeight now)).length < 2 ^ 64 := by
  have id : (journalIdOf now).length ≤ 39 := by
    have small : now < 10 ^ (38 + 1) := Nat.lt_trans word (by decide)
    exact length_decimal_le (now + 1) now [] small
  have parts : (reorgJournalCodec.encode (reorgJournal c block prevHeight now)).length =
      (journalIdOf now).length + 56 + block.size := by
    simp only [reorgJournalCodec, reorgJournal, Codec.encode_iso, Codec.encode_pair,
      List.length_append, Codec.length_encode_bytes, Codec.length_encode_u64, length_encode_hash,
      Block.size]
    omega
  unfold maxBlockSize at size
  omega

end Journals

section Steps

variable {block : Block} {c : Chain}

theorem Coinless.not_spendRules (coinless : Coinless db) {bestHeight height : Nat} :
    ¬ SpendRules db bestHeight height tx := by
  intro rules
  have nothing : tx.inputs = [] := by
    apply List.eq_nil_iff_forall_not_mem.mpr
    intro vin inside
    have stored := rules.present vin inside
    rw [storedCoin, coinless] at stored
    exact absurd stored (by simp)
  have paid := rules.paid
  have sized := tx.size_eq
  rw [nothing] at paid
  simp only [spentValue, List.map_nil, List.sum_nil, Nat.le_zero, Nat.add_eq_zero_iff,
    Nat.mul_eq_zero] at paid
  have fee : minFeePerByte.toNat ≠ 0 := by decide
  omega

private theorem Coinless.coinbaseOnly (coinless : Coinless db) {bestHeight height : Nat}
    {nowMs : Option Nat} (valid : validateBlock env db bestHeight nowMs block height = .ok ()) :
    CoinbaseOnly block := by
  intro tx member
  by_contra kind
  obtain ⟨-, rules⟩ := (validateBlock_txs valid).shape member (by simpa using kind)
  exact coinless.not_spendRules rules

/-- A chain without coins, on which only blocks of coinbases were ever accepted. -/
structure Idle (c : Chain) : Prop where
  barren : Barren c.db
  saved : ∀ entry ∈ c.saved, CoinbaseOnly entry.2

private theorem Barren.reorganise (barren : Barren c.db) {o : Outside} (only : CoinbaseOnly block)
    (size : block.size ≤ maxBlockSize) (word : ∀ now, o.journalMs = some now → now < 2 ^ 128)
    (prevHeight : Nat) : Barren (reorganise env o block prevHeight c).2.db := by
  unfold Node.reorganise
  cases clock : o.journalMs with
  | none => exact barren
  | some now =>
      have short := length_reorgJournal c prevHeight (word now clock) size
      have journalled : Barren (Library.KeyValue.write c.db [putCf .default
          (reorgKey (journalIdOf now))
            (reorgJournalCodec.encode (reorgJournal c block prevHeight now))]) :=
        barren.journalPut only short _
      simp only
      split
      · exact barren
      · split
        · exact journalled
        · rename_i batch built
          have written := journalled.write (journalled.coinless.sterile_reorgBatch only built)
          split
          · exact journalled
          · split
            · exact written
            · exact written.write (sterile_journalDelete _)

theorem Barren.applyBlockAction (barren : Barren c.db) {o : Outside} (only : CoinbaseOnly block)
    (height : Nat) (isBest : Bool) (work : Nat) :
    Barren (applyBlockAction env o block height .connect isBest work [] c).2.db := by
  have cases := applyBlockAction_cases env o block c height .connect isBest work []
  generalize Node.applyBlockAction env o block height .connect isBest work [] c = result at cases
  cases cases with
  | locked e closed => exact barren
  | failed e => exact barren
  | rolledBack e acc handled unwritten =>
      exact barren.write (only.sterile_rollbackBatch (by simpa using handled))
  | frozen e => exact barren
  | applied r hash hashed acc handled blocks pending =>
      exact barren.write (barren.coinless.sterile_actionBatch only (by simpa using handled))

theorem idle_keeps (env : Env) (world : World) (clock : ClockFits world) :
    Keeps env world Idle fun _ => True := by
  apply keeps_of_connect
  · exact fun _ _ _ idle => ⟨idle.barren, idle.saved⟩
  · intro tick block prevHeight c idle _ _
    have connection := connectNew_cases env (world.outside tick) block c prevHeight
    generalize connectNew env (world.outside tick) block prevHeight c = result at connection
    have saving {r : Result Unit × Chain} {reorg : Bool} (only : CoinbaseOnly block)
        (barren : Barren r.2.db) (log : r.2.saved = c.saved) :
        Idle (finish env (world.outside tick) block (prevHeight + 1) reorg r).2 := by
      refine finish_rule Idle r ⟨barren, log ▸ idle.saved⟩ ?_
      intro hash _
      refine ⟨barren.write (sterile_saveOps hash), ?_⟩
      intro entry member
      rcases List.mem_cons.mp member with rfl | member
      · exact only
      · exact idle.saved entry (log ▸ member)
    cases connection with
    | refused e => exact idle
    | heavier target valid compact more =>
        have only := idle.barren.coinless.coinbaseOnly valid
        refine saving only (idle.barren.reorganise only (validateBlock_txs valid).size
          (clock tick) prevHeight) ?_
        have course := reorganise_cases env (world.outside tick) block c prevHeight
        generalize reorganise env (world.outside tick) block prevHeight c = result at course
        cases course <;> rfl
    | lighter target valid compact less r applied =>
        have only := idle.barren.coinless.coinbaseOnly valid
        subst applied
        refine saving only (idle.barren.applyBlockAction only _ _ _) ?_
        have course := applyBlockAction_cases env (world.outside tick) block c (prevHeight + 1)
          .connect false (blockWork target) []
        generalize applyBlockAction env (world.outside tick) block (prevHeight + 1) .connect false
          (blockWork target) [] c = result at course
        cases course <;> rfl

end Steps

end Lyrion.Node
