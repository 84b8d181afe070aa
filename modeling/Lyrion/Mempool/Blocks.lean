/- GID: Lyrion/Mempool/Blocks
   digest: What an added block takes out of the pool, against what it should. -/

import Lyrion.Mempool.AverageFee
import Lyrion.Mempool.Conflicts
import Lyrion.Node.Amounts
import Lyrion.Node.ForkChoice
import Lyrion.Node.Locks

set_option autoImplicit false
set_option relaxedAutoImplicit false

namespace Lyrion.Mempool

open Library.ByteCodec Library.KeyValue Library.Cascade Data Utils Tx Node

variable {env : Env} {world : World} {m : Mempool}

/-- The pool update of `add_block` for a block that it has saved. -/
def confirmBlock (env : Env) (s : Rated) (block : Block) : Result Rated :=
  s.removeAll .release (block.txs.map (txHash env))

/-- The pool after `add_block`. The update comes between `save_block` and the orphan loop, and no
block of that loop gets to an update of its own: each one waits for the lock first. -/
def afterAddBlock (env : Env) (world : World) (block : Block) (c : Chain) (s : Rated) :
    Result Rated :=
  match Locked.submit env world true block c with
  | some (.ok (.accepted _ _), _) => confirmBlock env s block
  | _ => .ok s

def ConflictsWith (txs : List Transaction) (tx : Transaction) : Prop :=
  ∃ other ∈ txs, ¬ Apart tx other ∨ ∃ image ∈ keyImagesOf tx, image ∈ keyImagesOf other

instance (txs : List Transaction) (tx : Transaction) : Decidable (ConflictsWith txs tx) :=
  inferInstanceAs (Decidable (∃ other ∈ txs, _))

/-- A pooled transaction that confirmed ones have made invalid: it conflicts with one of them, or it
depends on a pooled transaction that does. -/
def Displaced (env : Env) (m : Mempool) (txs : List Transaction) (entry : MempoolEntry) : Prop :=
  ConflictsWith txs entry.tx ∨
    ∃ parent ∈ entry.dependsOn, ∃ above, m.txs.lookup parent = some above ∧
      parent ∉ txs.map (txHash env) ∧ ConflictsWith txs above.tx

def ShouldStay (env : Env) (m : Mempool) (txs : List Transaction) (txid : Hash) : Prop :=
  ∃ entry, m.txs.lookup txid = some entry ∧ txid ∉ txs.map (txHash env) ∧
    ¬ Displaced env m txs entry

private theorem removeAll_stays_iff (m : Mempool) (txs : List Transaction) :
    (∀ txid, txid ∈ (m.removeAll (txs.map (txHash env))).pooled ↔ ShouldStay env m txs txid) ↔
      ∀ txid entry, m.txs.lookup txid = some entry → txid ∉ txs.map (txHash env) →
        ((∃ confirmed ∈ txs.map (txHash env), Reaches m.children m.pooled confirmed txid) ↔
          Displaced env m txs entry) := by
  simp only [mem_pooled_removeAll, ShouldStay]
  constructor
  · intro whole txid entry found outside
    have here := mem_pooled_of_lookup found
    rw [← not_iff_not, not_exists]
    constructor
    · intro unreached displaced
      obtain ⟨e, there, -, kept⟩ := (whole txid).mp
        ⟨here, fun confirmed member path => unreached confirmed ⟨member, path⟩⟩
      obtain rfl := Option.some.inj (found.symm.trans there)
      exact kept displaced
    · intro kept confirmed reached
      exact ((whole txid).mpr ⟨entry, found, outside, kept⟩).2 confirmed reached.1 reached.2
  · intro agree txid
    constructor
    · rintro ⟨here, unreached⟩
      obtain ⟨entry, found⟩ := mem_pooled.mp here
      have outside : txid ∉ txs.map (txHash env) := fun member => unreached txid member (.self here)
      refine ⟨entry, found, outside, fun displaced => ?_⟩
      obtain ⟨confirmed, member, path⟩ := (agree txid entry found outside).mpr displaced
      exact unreached confirmed member path
    · rintro ⟨entry, found, outside, kept⟩
      refine ⟨mem_pooled_of_lookup found, fun confirmed member path => ?_⟩
      exact kept ((agree txid entry found outside).mp ⟨confirmed, member, path⟩)

variable (env) in
private theorem confirmBlock_ends {s : Rated} (few : s.pool.pooled.card < 2 ^ 64) (block : Block) :
    ((s.pool.pooled.Nonempty → ∃ txid ∈ s.pool.pooled, ∀ confirmed ∈ block.txs.map (txHash env),
        ¬ Reaches s.pool.children s.pool.pooled confirmed txid) →
      ∃ s', confirmBlock env s block = .ok s' ∧
        s'.pool = s.pool.removeAll (block.txs.map (txHash env))) ∧
    (¬ (s.pool.pooled.Nonempty → ∃ txid ∈ s.pool.pooled, ∀ confirmed ∈ block.txs.map (txHash env),
        ¬ Reaches s.pool.children s.pool.pooled confirmed txid) →
      confirmBlock env s block = .error (.panic "attempt to divide by zero")) := by
  have rest : (s.pool.removeAll (block.txs.map (txHash env))).pooled.Nonempty ↔
      ∃ txid ∈ s.pool.pooled, ∀ confirmed ∈ block.txs.map (txHash env),
        ¬ Reaches s.pool.children s.pool.pooled confirmed txid :=
    exists_congr fun txid => mem_pooled_removeAll s.pool _ txid
  rw [← rest]
  have removed := Rated.removeAll_removal (Rated.steady_release few) trivial
    (block.txs.map (txHash env))
  unfold confirmBlock
  generalize s.removeAll .release (block.txs.map (txHash env)) = result at removed ⊢
  cases result with
  | error e =>
      obtain ⟨rfl, start, nothing⟩ := removed.of_error
      exact ⟨fun left => absurd nothing (left start).ne_empty, fun _ => rfl⟩
  | ok s' =>
      obtain ⟨pool, left⟩ := removed.of_ok
      exact ⟨fun _ => ⟨s', rfl, pool⟩, fun gone => absurd left gone⟩

/-- After an accepted block the pool is what it should be exactly when some transaction is left in
it, and when, among those that are not confirmed, the removal of the confirmed ones reaches those
that they displace and no others. A removal that leaves nothing divides by zero. -/
theorem pool_after_block_iff (env : Env) (world : World) (block : Block) (c c' : Chain)
    (height : Nat) (reorg : Bool) (s : Rated) (few : s.pool.pooled.card < 2 ^ 64)
    (accepted : Locked.submit env world true block c =
      some (.ok (.accepted height reorg), c')) :
    ((∃ s', afterAddBlock env world block c s = .ok s' ∧
        ∀ txid, txid ∈ s'.pool.pooled ↔ ShouldStay env s.pool block.txs txid) ↔
      (s.pool.pooled.Nonempty → ∃ txid ∈ s.pool.pooled, ∀ confirmed ∈ block.txs.map (txHash env),
        ¬ Reaches s.pool.children s.pool.pooled confirmed txid) ∧
      ∀ txid entry, s.pool.txs.lookup txid = some entry → txid ∉ block.txs.map (txHash env) →
        ((∃ confirmed ∈ block.txs.map (txHash env),
          Reaches s.pool.children s.pool.pooled confirmed txid) ↔
            Displaced env s.pool block.txs entry)) ∧
    ∀ result after, Locked.addBlock env world block c = some (result, after) →
      after.saved = (height, block) :: c.saved := by
  have updated : afterAddBlock env world block c s = confirmBlock env s block := by
    simp only [afterAddBlock, accepted]
  obtain ⟨returns, fails⟩ := confirmBlock_ends env few block
  refine ⟨?_, fun result after returned => ?_⟩
  · rw [updated, ← removeAll_stays_iff]
    constructor
    · rintro ⟨s', done, stays⟩
      by_cases left : s.pool.pooled.Nonempty → ∃ txid ∈ s.pool.pooled,
          ∀ confirmed ∈ block.txs.map (txHash env),
            ¬ Reaches s.pool.children s.pool.pooled confirmed txid
      · obtain ⟨again, same, pool⟩ := returns left
        obtain rfl := Except.ok.inj (same.symm.trans done)
        exact ⟨left, by rwa [pool] at stays⟩
      · exact absurd ((fails left).symm.trans done) (by simp)
    · rintro ⟨left, stays⟩
      obtain ⟨s', done, pool⟩ := returns left
      exact ⟨s', done, by rwa [pool]⟩
  · rw [locked_addBlock_saved accepted returned]
    cases locked_submit_filed accepted with
    | refused r c' unaccepted state tip saved moved => exact absurd rfl (unaccepted _ _)
    | accepted prevHeight c' state parent tip saved moved => exact saved

def sampleMirror : Env :=
  { sampleEnv with decompress := fun bs => some (show ℤ from -(ofBeBytes bs : ℤ)) }

def sampleFunded : Chain :=
  { sampleStart [] with
    db := write (sampleStart []).db
      [putCf .utxo (coinKey false zeroHash 0) (txOutputCodec.encode sampleCoin)] }

def sampleBlockOf (txs : List Transaction) : Block :=
  ⟨{ (sampleRival 1).header with merkleRoot := computeMerkleRoot sampleEnv txs }, txs⟩

def sampleAnonymousReward : Transaction :=
  { genesisCoinbase sampleEnv [7] with
    isAnonymous := true
    outputs := [⟨10000005000, p2pkhScript sampleEnv [7], some (beBytes 32 5000)⟩] }

def sampleIdle : Transaction where
  version := 1
  isAnonymous := false
  inputs := []
  outputs := []
  lockTime := 0
  rangeProofs := []

/-- A spend of the sample coin, its child, and a transaction apart from both come in. -/
def sampleFamily : List Operation :=
  [sampleInsert [], .insert sampleChoices sampleCoinDb (sampleOffspring (sampleSpend [])),
    .insert sampleChoices sampleCoinDb sampleIdle]

def sampleConfirming : Block := sampleBlockOf [sampleAnonymousReward, sampleSpend []]

private theorem sampleConfirming_accepted :
    ∃ c, Locked.submit sampleMirror sampleWorld true sampleConfirming sampleFunded =
      some (.ok (.accepted 1 true), c) := by
  have first : (Locked.submit sampleMirror sampleWorld true sampleConfirming sampleFunded).map
      Prod.fst = some (.ok (.accepted 1 true)) := by decide +kernel
  obtain ⟨⟨_, c⟩, submitted, rfl⟩ := Option.map_eq_some_iff.mp first
  exact ⟨c, submitted⟩

/-- A block that confirms the parent is accepted, and the child leaves the pool with it. Without the
third transaction the update would fail. -/
theorem confirmed_parent_takes_child :
    ∃ s c, (Rated.new 1000).run .release sampleMirror sampleFamily = .ok s ∧
      Locked.submit sampleMirror sampleWorld true sampleConfirming sampleFunded =
        some (.ok (.accepted 1 true), c) ∧
      ShouldStay sampleMirror s.pool sampleConfirming.txs
        (txHash sampleMirror (sampleOffspring (sampleSpend []))) ∧
      ∃ s', afterAddBlock sampleMirror sampleWorld sampleConfirming sampleFunded s = .ok s' ∧
        txHash sampleMirror (sampleOffspring (sampleSpend [])) ∉ s'.pool.pooled := by
  have evaluated : ((Rated.new 1000).run .release sampleMirror sampleFamily).map (fun s =>
      ((s.pool.txs.lookup (txHash sampleMirror (sampleOffspring (sampleSpend [])))).map
          (fun e => (e.tx, e.dependsOn)),
        (afterAddBlock sampleMirror sampleWorld sampleConfirming sampleFunded s).toOption.map
          fun s' => decide (txHash sampleMirror (sampleOffspring (sampleSpend [])) ∈
            s'.pool.pooled))) =
      .ok (some (sampleOffspring (sampleSpend []), {txHash sampleMirror (sampleSpend [])}),
        some false) := by decide +kernel
  obtain ⟨s, done, both⟩ := map_eq_ok.mp evaluated
  obtain ⟨before, after⟩ := Prod.mk.inj both
  obtain ⟨entry, found, shape⟩ := Option.map_eq_some_iff.mp before
  obtain ⟨child, parents⟩ := Prod.mk.inj shape
  obtain ⟨c, accepted⟩ := sampleConfirming_accepted
  refine ⟨s, c, done, accepted, ⟨entry, found, by decide +kernel, ?_⟩, ?_⟩
  · rintro (conflict | ⟨parent, needed, above, -, outside, -⟩)
    · rw [child] at conflict
      exact absurd conflict (by decide +kernel)
    · rw [parents, Finset.mem_singleton] at needed
      exact outside (needed ▸ by decide +kernel)
  · obtain ⟨s', updated, absent⟩ := Option.map_eq_some_iff.mp after
    exact ⟨s', toOption_eq_some.mp updated, of_decide_eq_false absent⟩

theorem confirmed_spend_leaves_other :
    ∃ s s', (Rated.new 1000).run .release sampleMirror
        [sampleInsert [], .insert sampleChoices sampleCoinDb sampleIdle] = .ok s ∧
      s.pool.pooled.card = 2 ∧
      afterAddBlock sampleMirror sampleWorld sampleConfirming sampleFunded s = .ok s' ∧
      ∀ txid, txid ∈ s'.pool.pooled ↔ ShouldStay sampleMirror s.pool sampleConfirming.txs txid := by
  have evaluated : ((Rated.new 1000).run .release sampleMirror
      [sampleInsert [], .insert sampleChoices sampleCoinDb sampleIdle]).map (fun s =>
      (s.pool.pooled.card, decide (s.pool.pooled ⊆
        {txHash sampleMirror (sampleSpend []), txHash sampleMirror sampleIdle}))) =
      .ok (2, true) := by decide +kernel
  have single : ((Rated.new 1000).run .release sampleMirror
      [sampleInsert [], .insert sampleChoices sampleCoinDb sampleIdle]).map (fun s =>
      (s.pool.children (txHash sampleMirror (sampleSpend [])),
        (s.pool.txs.lookup (txHash sampleMirror sampleIdle)).map (fun e => (e.tx, e.dependsOn)))) =
      .ok ([], some (sampleIdle, ∅)) := by decide +kernel
  obtain ⟨s, done, both⟩ := map_eq_ok.mp evaluated
  obtain ⟨card, within⟩ := Prod.mk.inj both
  rw [done] at single
  obtain ⟨childless, idle⟩ := Prod.mk.inj (Except.ok.inj single)
  obtain ⟨entry, found, shape⟩ := Option.map_eq_some_iff.mp idle
  obtain ⟨spends, parents⟩ := Prod.mk.inj shape
  obtain ⟨c, accepted⟩ := sampleConfirming_accepted
  have keys {txid : Hash} (member : txid ∈ s.pool.pooled) :
      txid = txHash sampleMirror (sampleSpend []) ∨ txid = txHash sampleMirror sampleIdle := by
    simpa using of_decide_eq_true within member
  have ids : sampleConfirming.txs.map (txHash sampleMirror) =
      [txHash sampleMirror sampleAnonymousReward, txHash sampleMirror (sampleSpend [])] := rfl
  have apart : txHash sampleMirror sampleIdle ∉ sampleConfirming.txs.map (txHash sampleMirror) := by
    decide +kernel
  -- the coinbase is not pooled, and the spend has no children
  have unreached (confirmed : Hash)
      (member : confirmed ∈ sampleConfirming.txs.map (txHash sampleMirror)) :
      ¬ Reaches s.pool.children s.pool.pooled confirmed (txHash sampleMirror sampleIdle) := by
    intro path
    cases path with
    | self here => exact apart member
    | next here edge rest =>
        rcases keys here with rfl | rfl
        · rw [childless] at edge
          exact absurd edge List.not_mem_nil
        · exact apart member
  have few : s.pool.pooled.card < 2 ^ 64 := by
    rw [card]
    decide
  obtain ⟨s', updated, stays⟩ := ((pool_after_block_iff sampleMirror sampleWorld sampleConfirming
    sampleFunded c 1 true s few accepted).1).mpr ⟨fun _ => ⟨_, mem_pooled_of_lookup found,
      unreached⟩, fun txid other there outside => by
        rcases keys (mem_pooled_of_lookup there) with rfl | rfl
        · exact absurd (by rw [ids]; simp) outside
        · obtain rfl := Option.some.inj (found.symm.trans there)
          refine iff_of_false (fun ⟨confirmed, member, path⟩ => unreached confirmed member path) ?_
          rintro (conflict | ⟨parent, needed, -⟩)
          · rw [spends] at conflict
            exact absurd conflict (by decide +kernel)
          · rw [parents] at needed
            exact absurd needed (Finset.notMem_empty parent)⟩
  exact ⟨s, s', done, card, updated, stays⟩

end Lyrion.Mempool
