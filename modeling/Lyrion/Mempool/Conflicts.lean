/- GID: Lyrion/Mempool/Conflicts
   digest: Two spends of one coin can both be pooled; when no conflict ever arises. -/

import Lyrion.Mempool.Dependencies

set_option autoImplicit false
set_option relaxedAutoImplicit false

namespace Lyrion.Mempool

open Library.ByteCodec Library.KeyValue Library.Runs Data Utils Tx

variable {env : Env} {choices : Choices} {m m' : Mempool} {txid : Hash} {entry : MempoolEntry}

def Apart (tx other : Transaction) : Prop :=
  ∀ vin ∈ tx.inputs, ∀ vin' ∈ other.inputs, vin.outpoint ≠ vin'.outpoint

instance (tx other : Transaction) : Decidable (Apart tx other) :=
  inferInstanceAs (Decidable (∀ vin ∈ tx.inputs, ∀ vin' ∈ other.inputs, _))

private theorem Apart.symm {tx other : Transaction} (apart : Apart tx other) : Apart other tx :=
  fun vin member vin' member' same => apart vin' member' vin member same.symm

def ConflictFree (m : Mempool) : Prop :=
  ∀ t e t' e', m.txs.lookup t = some e → m.txs.lookup t' = some e' → t ≠ t' → Apart e.tx e'.tx

def ApartFrom (env : Env) (m : Mempool) (tx : Transaction) : Prop :=
  ∀ t e, m.txs.lookup t = some e → t ≠ txHash env tx → Apart tx e.tx

private theorem hereditary_conflictFree : Hereditary ConflictFree where
  quiet _ _ _ _ _ free := free
  removed m txid free := by
    intro t e t' e' here there
    have left := remove_leftOf m txid
    exact free t e t' e' (left.lookup here) (left.lookup there)

private theorem store_conflictFree_iff (free : ConflictFree m) (fresh : txid ∉ m.pooled) :
    ConflictFree (m.store choices txid entry) ↔
      ∀ t e, m.txs.lookup t = some e → Apart entry.tx e.tx := by
  have absent : m.txs.lookup txid = none := notMem_pooled.mp fresh
  have other {t : Hash} {e : MempoolEntry} (found : m.txs.lookup t = some e) : t ≠ txid := by
    rintro rfl
    exact absurd (absent.symm.trans found) (by simp)
  have older {t : Hash} {e : MempoolEntry} (found : m.txs.lookup t = some e) :
      (m.store choices txid entry).txs.lookup t = some e := by
    rw [lookup_store_txs, if_neg (other found), found]
  constructor
  · intro stored t e found
    refine stored txid entry t e ?_ (older found) (Ne.symm (other found))
    rw [lookup_store_txs, if_pos rfl]
  · intro apart t e t' e' here there distinct
    rw [lookup_store_txs] at here there
    split at here
    · split at there
      · rename_i first second
        exact absurd (first.trans second.symm) distinct
      · exact Option.some.inj here ▸ apart t' e' there
    · split at there
      · exact (Option.some.inj there ▸ apart t e here).symm
      · exact free t e t' e' here there distinct

private theorem insert_of_room {db : Db} {tx : Transaction} (linked : Linked m)
    (fresh : txHash env tx ∉ m.pooled) (passed : m.checkInsert env choices db tx = .ok entry)
    (bytes : (m.store choices (txHash env tx) entry).totalBytes.toNat ≤ m.maxSize)
    (count : (m.store choices (txHash env tx) entry).pooled.card ≤ maxTxs) :
    m.insert env choices db tx = some (.ok true, m.store choices (txHash env tx) entry) := by
  obtain ⟨walked, inputSum, admitted⟩ := checkInsert_eq_ok passed
  have stored := store_linked linked fresh admitted
  have absent : ¬ txHash env tx ∈ m.txs := fun member => fresh (Finmap.mem_keys.mpr member)
  have nothing : (m.store choices (txHash env tx) entry).removeOrphanedTxs choices =
      m.store choices (txHash env tx) entry := by
    have none_orphaned : (choices.enumerate (m.store choices (txHash env tx) entry).txs.keys).filter
        (m.store choices (txHash env tx) entry).isOrphaned = [] := by
      refine List.filter_eq_nil_iff.mpr fun t _ => ?_
      unfold isOrphaned
      cases found : (m.store choices (txHash env tx) entry).txs.lookup t with
      | none => simp
      | some e =>
          have inside : e.dependsOn ⊆ (m.store choices (txHash env tx) entry).txs.keys :=
            stored.pooled t e found
          simp [inside]
    rw [removeOrphanedTxs, none_orphaned]
    rfl
  have enough : ¬ ((m.store choices (txHash env tx) entry).totalBytes.toNat >
      (m.store choices (txHash env tx) entry).maxSize ∨
        (m.store choices (txHash env tx) entry).txs.keys.card > maxTxs) :=
    not_or.mpr ⟨Nat.not_lt.mpr bytes, Nat.not_lt.mpr count⟩
  rw [insert, if_neg absent, passed]
  simp only [evictLoop, if_neg enough, Option.map_some, nothing]

private theorem apartFrom_iff_of_fresh {tx : Transaction} (fresh : txHash env tx ∉ m.pooled) :
    ApartFrom env m tx ↔ ∀ t e, m.txs.lookup t = some e → Apart tx e.tx := by
  refine forall₃_congr fun t e found => ⟨fun apart => apart ?_, fun apart _ => apart⟩
  rintro rfl
  exact fresh (mem_pooled_of_lookup found)

/-- If every transaction handed in is apart from those pooled at that time, no two pooled
transactions ever spend the same outpoint. The next one that is admitted with room for it keeps that
exactly when it is apart, too. -/
theorem conflictFree_of_apart (env : Env) (maxSize : Nat) (operations : List Operation)
    (m : Mempool)
    (apart : ∀ before choices db tx after s,
      operations = before ++ Operation.insert choices db tx :: after →
        (new maxSize).run env before = some s → ApartFrom env s tx)
    (done : (new maxSize).run env operations = some m) :
    ConflictFree m ∧
      ∀ choices db tx entry, txHash env tx ∉ m.pooled →
        m.checkInsert env choices db tx = .ok entry →
        (m.store choices (txHash env tx) entry).totalBytes.toNat ≤ m.maxSize →
        (m.store choices (txHash env tx) entry).pooled.card ≤ maxTxs →
        ∃ m', m.insert env choices db tx = some (.ok true, m') ∧
          (ConflictFree m' ↔ ApartFrom env m tx) := by
  have free : ConflictFree m := by
    refine foldlM_some_invariant ConflictFree (by simp [ConflictFree, new]) ?_ done
    intro before operation after s s' split reached free one
    refine hereditary_conflictFree.step free ?_ one
    rintro choices db tx entry rfl fresh passed
    obtain ⟨walked, inputSum, admitted⟩ := checkInsert_eq_ok passed
    rw [store_conflictFree_iff free fresh, admitted.own, ← apartFrom_iff_of_fresh fresh]
    exact apart before choices db tx after s split reached
  refine ⟨free, fun choices db tx entry fresh passed bytes count => ?_⟩
  refine ⟨_, insert_of_room (run_linked done) fresh passed bytes count, ?_⟩
  obtain ⟨walked, inputSum, admitted⟩ := checkInsert_eq_ok passed
  rw [store_conflictFree_iff free fresh, admitted.own, apartFrom_iff_of_fresh fresh]

theorem sample_conflictFree :
    ∃ m, (new 1000).run sampleEnv [sampleInsert [],
        .insert sampleChoices sampleCoinDb (sampleOffspring (sampleSpend []))] = some m ∧
      m.pooled.card = 2 ∧ ConflictFree m := by
  have evaluated : ((new 1000).run sampleEnv [sampleInsert [],
      .insert sampleChoices sampleCoinDb (sampleOffspring (sampleSpend []))]).map
        (fun m => m.pooled.card) = some 2 := by decide +kernel
  have first : ((new 1000).run sampleEnv [sampleInsert []]).map (fun m =>
      (m.pooled, (m.txs.lookup (txHash sampleEnv (sampleSpend []))).map MempoolEntry.tx)) =
        some ({txHash sampleEnv (sampleSpend [])}, some (sampleSpend [])) := by decide +kernel
  obtain ⟨m, done, count⟩ := Option.map_eq_some_iff.mp evaluated
  refine ⟨m, done, count, (conflictFree_of_apart sampleEnv 1000 _ m ?_ done).1⟩
  intro before choices db tx after s split reached t e found _
  cases before with
  | nil =>
      obtain rfl := Option.some.inj reached
      exact absurd found (by simp [new])
  | cons operation before =>
      obtain ⟨rfl, rest⟩ := List.cons.inj split
      cases before with
      | nil =>
          rw [reached] at first
          obtain ⟨keys, only⟩ := Prod.mk.inj (Option.some.inj first)
          have here : t ∈ s.pooled := mem_pooled_of_lookup found
          rw [keys, Finset.mem_singleton] at here
          rw [here] at found
          rw [found] at only
          have spend : e.tx = sampleSpend [] := Option.some.inj only
          obtain ⟨-, -, rfl⟩ := Operation.insert.inj (List.cons.inj rest).1
          rw [spend]
          decide +kernel
      | cons other before => simp at rest

/-- Two spends of the sample coin are admitted one after the other. -/
theorem conflicting_spends_pooled :
    ∃ m, (new 1000).run sampleEnv [sampleInsert [], sampleInsert [1]] = some m ∧
      ¬ ConflictFree m := by
  have evaluated : ((new 1000).run sampleEnv [sampleInsert [], sampleInsert [1]]).map (fun m =>
      ((m.txs.lookup (txHash sampleEnv (sampleSpend []))).map MempoolEntry.tx,
        (m.txs.lookup (txHash sampleEnv (sampleSpend [1]))).map MempoolEntry.tx)) =
      some (some (sampleSpend []), some (sampleSpend [1])) := by decide +kernel
  obtain ⟨m, done, both⟩ := Option.map_eq_some_iff.mp evaluated
  obtain ⟨first, second⟩ := Prod.mk.inj both
  obtain ⟨e, here, spend⟩ := Option.map_eq_some_iff.mp first
  obtain ⟨e', there, spend'⟩ := Option.map_eq_some_iff.mp second
  refine ⟨m, done, fun free => ?_⟩
  have apart := free _ e _ e' here there (by decide +kernel)
  rw [spend, spend'] at apart
  exact absurd apart (by decide +kernel)

end Lyrion.Mempool
