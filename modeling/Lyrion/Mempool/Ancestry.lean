/- GID: Lyrion/Mempool/Ancestry
   digest: When the ancestor walk of an insertion takes a dependency met twice for a cycle. -/

import Lyrion.Mempool.Dependencies

set_option autoImplicit false
set_option relaxedAutoImplicit false

namespace Lyrion.Mempool

open Library.ByteCodec Library.KeyValue Library.StackWalk Data Utils Tx

variable {env : Env} {choices : Choices} {m : Mempool} {db : Db} {tx : Transaction}

/-- The pooled ancestors of a transaction: the parents of its inputs, and what is recorded of
them. -/
def ancestry (m : Mempool) (tx : Transaction) : Finset Hash :=
  (m.parentStack tx).toFinset ∪ (m.parentStack tx).toFinset.biUnion m.dependencies

private theorem mem_ancestry {x : Hash} :
    x ∈ m.ancestry tx ↔
      x ∈ m.parentStack tx ∨ ∃ parent ∈ m.parentStack tx, x ∈ m.dependencies parent := by
  simp only [ancestry, Finset.mem_union, Finset.mem_biUnion, List.mem_toFinset]

private theorem dependencies_subset_ancestry (linked : Linked m) {x : Hash}
    (member : x ∈ m.ancestry tx) :
    m.dependencies x ⊆ m.ancestry tx := by
  intro y needed
  rcases mem_ancestry.mp member with parent | ⟨parent, direct, above⟩
  · exact mem_ancestry.mpr (Or.inr ⟨x, parent, needed⟩)
  · refine mem_ancestry.mpr (Or.inr ⟨parent, direct, ?_⟩)
    obtain ⟨e, found⟩ := mem_pooled.mp (mem_parentStack.mp direct).1
    rw [dependencies_of_lookup found] at above ⊢
    obtain ⟨e', there⟩ := mem_pooled.mp (linked.pooled parent e found above)
    rw [dependencies_of_lookup there] at needed
    exact linked.closed parent e found x above e' there needed

/-- Every ancestor is reached in one way only: over one input, or over one other ancestor. -/
structure OnePath (m : Mempool) (tx : Transaction) : Prop where
  parents : (m.parentStack tx).Nodup
  apart : ∀ x ∈ m.ancestry tx, ∀ y ∈ m.dependencies x, y ∉ m.parentStack tx
  single : ∀ x ∈ m.ancestry tx, ∀ y ∈ m.ancestry tx, x ≠ y →
    Disjoint (m.dependencies x) (m.dependencies y)

private theorem nodup_pushed_iff (choices : Choices) (m : Mempool) (tx : Transaction) :
    ((m.parentStack tx : Multiset Hash) +
        (m.ancestry tx).val.bind fun x => (pushed choices m x : Multiset Hash)).Nodup ↔
      OnePath m tx := by
  have each (x : Hash) : (pushed choices m x : Multiset Hash).Nodup :=
    Multiset.coe_nodup.mpr (List.nodup_reverse.mpr (choices.nodup_enumerate _))
  have disjoint (x y : Hash) :
      Disjoint (pushed choices m x : Multiset Hash) (pushed choices m y : Multiset Hash) ↔
        Disjoint (m.dependencies x) (m.dependencies y) := by
    simp only [Multiset.disjoint_left, Finset.disjoint_left, Multiset.mem_coe, mem_pushed]
  rw [Multiset.nodup_add, Multiset.nodup_bind, Multiset.coe_nodup]
  constructor
  · rintro ⟨parents, ⟨-, pairs⟩, apart⟩
    have symm : Std.Symm (Function.onFun Disjoint
        fun x => (pushed choices m x : Multiset Hash)) := ⟨fun _ _ apart => apart.symm⟩
    refine ⟨parents, fun x here y needed parent => ?_, fun x here y there different =>
      (disjoint x y).mp (pairs.forall here there different)⟩
    refine Multiset.disjoint_left.mp apart (Multiset.mem_coe.mpr parent) ?_
    exact Multiset.mem_bind.mpr ⟨x, here, Multiset.mem_coe.mpr (mem_pushed.mpr needed)⟩
  · rintro ⟨parents, apart, single⟩
    have pairs : (m.ancestry tx).val.Pairwise (Function.onFun Disjoint
        fun x => (pushed choices m x : Multiset Hash)) :=
      Multiset.Nodup.pairwise (fun x here y there different =>
        (disjoint x y).mpr (single x here y there different)) (m.ancestry tx).nodup
    refine ⟨parents, ⟨fun x _ => each x, pairs⟩, ?_⟩
    rw [Multiset.disjoint_right]
    intro y needed parent
    obtain ⟨x, here, listed⟩ := Multiset.mem_bind.mp needed
    exact apart x here y (mem_pushed.mp (Multiset.mem_coe.mp listed)) (Multiset.mem_coe.mp parent)

variable (choices) in
private theorem ancestors_cases (linked : Linked m) (few : (m.ancestry tx).card < maxPackageDepth) :
    (OnePath m tx ∧
        ∃ walked, m.ancestors choices maxPackageDepth (m.parentStack tx) ∅ = .ok walked) ∨
      (¬ OnePath m tx ∧ m.ancestors choices maxPackageDepth (m.parentStack tx) ∅ =
        fail (.anyhow "Cycle detected in dependencies")) := by
  have closed (x : Hash) (here : x ∈ m.ancestry tx) (y : Hash) (listed : y ∈ pushed choices m x) :
      y ∈ m.ancestry tx :=
    dependencies_subset_ancestry linked here (mem_pushed.mp listed)
  have inside (x : Hash) (parent : x ∈ m.parentStack tx) : x ∈ m.ancestry tx :=
    mem_ancestry.mpr (Or.inl parent)
  have least (s : Finset Hash) (parents : ∀ x ∈ m.parentStack tx, x ∈ s)
      (complete : ∀ x ∈ s, ∀ y ∈ pushed choices m x, y ∈ s) : m.ancestry tx ⊆ s := by
    intro x member
    rcases mem_ancestry.mp member with parent | ⟨parent, direct, above⟩
    · exact parents x parent
    · exact complete parent (parents parent direct) x (mem_pushed.mpr above)
  have finished := walk_finished_iff closed inside least few
  rw [nodup_pushed_iff] at finished
  rw [ancestors_eq_walk]
  have enough : (m.ancestry tx \ ∅).card < maxPackageDepth := by rwa [Finset.sdiff_empty]
  rcases walk_cases closed inside enough with
    ⟨walked, done, -⟩ | ⟨gaveUp, -⟩
  · exact Or.inl ⟨finished.mp ⟨walked, done⟩, walked, by rw [done]; rfl⟩
  · refine Or.inr ⟨fun single => ?_, by rw [gaveUp]; rfl⟩
    obtain ⟨walked, done⟩ := finished.mpr single
    exact absurd (gaveUp.symm.trans done) (by simp)

def isCycle (fault : Fault) : Bool := fault = .error (.anyhow "Cycle detected in dependencies")

private theorem raises_isCycle {α : Type} {x : Result α} :
    Raises isCycle x ↔ x = fail (.anyhow "Cycle detected in dependencies") := by
  simp [Raises, isCycle, fail]

private theorem not_raises_packageSize (size : Nat) (dependsOn : List Hash) :
    ¬ Raises isCycle (m.packageSize size dependsOn) := by
  refine not_raises_foldlM (fun total dep => ?_) size dependsOn
  simp [raises_ite, isCycle]

private theorem not_raises_gatherInputs (isAnonymous : Bool) (inputs : List TXInput) (sum : UInt64)
    (dependsOn : Finset Hash) :
    ¬ Raises isCycle (m.gatherInputs db isAnonymous inputs sum dependsOn) := by
  induction inputs generalizing sum dependsOn with
  | nil => exact not_raises_ok _
  | cons vin inputs ih =>
      rw [gatherInputs]
      cases get db (coinFamily isAnonymous) (coinKey isAnonymous vin.txid vin.vout) with
      | some value =>
          refine not_raises_bind (by simp [isCycle]) fun output => ?_
          exact not_raises_bind (by simp [isCycle]) fun sum => ih sum dependsOn
      | none =>
          simp only [raises_ite, raises_fail]
          rintro (⟨-, raised⟩ | ⟨-, raised⟩)
          · exact ih sum _ raised
          · exact absurd raised (by simp [isCycle])

variable (env choices db) in
private theorem checkInsert_cycle_iff :
    m.checkInsert env choices db tx = fail (.anyhow "Cycle detected in dependencies") ↔
      (0 < tx.size ∧ tx.size ≤ maxTxSize) ∧
        m.ancestors choices maxPackageDepth (m.parentStack tx) ∅ =
          fail (.anyhow "Cycle detected in dependencies") := by
  have late (fault : Fault) (last : Late fault) : isCycle fault = false := by
    rcases last with rfl | rfl | rfl | rfl <;> decide
  rw [← raises_isCycle, ← raises_isCycle,
    raises_checkInsert_iff env choices m db tx late (by decide)]
  refine and_congr_right fun _ => or_iff_left ?_
  rintro ⟨walked, -, raised | ⟨-, -, raised | ⟨-, -, overflow, -⟩⟩⟩
  · exact not_raises_packageSize _ _ raised
  · exact not_raises_gatherInputs _ _ _ _ raised
  · exact absurd overflow (by decide)

/-- In every pool that operations can reach, an insertion with fewer pooled ancestors than the depth
limit is refused for a cycle exactly when some ancestor is reached in two ways. -/
theorem insert_cycle_iff (env : Env) (maxSize : Nat) (operations : List Operation) (m : Mempool)
    (reached : (new maxSize).run env operations = some m) (choices : Choices) (db : Db)
    (tx : Transaction) (few : (m.ancestry tx).card < maxPackageDepth) :
    (m.insert env choices db tx).map Prod.fst =
        some (fail (.anyhow "Cycle detected in dependencies")) ↔
      txHash env tx ∉ m.pooled ∧ (0 < tx.size ∧ tx.size ≤ maxTxSize) ∧ ¬ OnePath m tx := by
  have walks : m.ancestors choices maxPackageDepth (m.parentStack tx) ∅ =
      fail (.anyhow "Cycle detected in dependencies") ↔ ¬ OnePath m tx := by
    rcases ancestors_cases choices (run_linked reached) few with
      ⟨single, walked, done⟩ | ⟨twice, failed⟩
    · simp [single, done, fail]
    · exact iff_of_true failed twice
  rw [← walks, ← checkInsert_cycle_iff env choices db]
  exact insert_fails_iff env choices m db tx _

def sampleLink (parent : Transaction) (spent : List UInt32) : Transaction where
  version := 1
  isAnonymous := false
  inputs := spent.map fun vout => ⟨txHash sampleEnv parent, vout, [], maxU32⟩
  outputs := [⟨0, [], none⟩]
  lockTime := 0
  rangeProofs := []

def samplePair : Transaction :=
  { sampleSpend [] with outputs := [⟨2500, [], none⟩, ⟨2500, [], none⟩] }

def samplePooling (tx : Transaction) : Operation := .insert sampleChoices sampleCoinDb tx

/-- Two outputs of one parent, spent together; and the fourth transaction of a chain. -/
theorem shared_ancestor_refused :
    ((new 1000).run sampleEnv [samplePooling samplePair]).map (fun m =>
        ((m.ancestry (sampleLink samplePair [0, 1])).card,
          (m.insert sampleEnv sampleChoices sampleCoinDb (sampleLink samplePair [0, 1])).map
            Prod.fst)) =
        some (1, some (fail (.anyhow "Cycle detected in dependencies"))) ∧
      ((new 1000).run sampleEnv [samplePooling (sampleSpend []),
          samplePooling (sampleLink (sampleSpend []) [0]),
          samplePooling (sampleLink (sampleLink (sampleSpend []) [0]) [0])]).map (fun m =>
        ((m.ancestry (sampleLink (sampleLink (sampleLink (sampleSpend []) [0]) [0]) [0])).card,
          (m.insert sampleEnv sampleChoices sampleCoinDb
            (sampleLink (sampleLink (sampleLink (sampleSpend []) [0]) [0]) [0])).map Prod.fst)) =
        some (3, some (fail (.anyhow "Cycle detected in dependencies"))) := by
  constructor <;> decide +kernel

theorem sample_two_paths :
    ∃ m, (new 1000).run sampleEnv [samplePooling samplePair] = some m ∧
      ¬ OnePath m (sampleLink samplePair [0, 1]) := by
  have evaluated : ((new 1000).run sampleEnv [samplePooling samplePair]).map (fun m =>
      ((m.ancestry (sampleLink samplePair [0, 1])).card,
        (m.insert sampleEnv sampleChoices sampleCoinDb (sampleLink samplePair [0, 1])).map
          Prod.fst)) = some (1, some (fail (.anyhow "Cycle detected in dependencies"))) := by
    decide +kernel
  obtain ⟨m, reached, both⟩ := Option.map_eq_some_iff.mp evaluated
  obtain ⟨one, refused⟩ := Prod.mk.inj both
  exact ⟨m, reached, ((insert_cycle_iff sampleEnv 1000 _ m reached sampleChoices sampleCoinDb _
    (by rw [one]; decide)).mp refused).2.2⟩

end Lyrion.Mempool
