/- GID: Lyrion/Mempool/Dependencies
   digest: Dependencies are pooled, complete and transitively closed in every run. -/

import Lyrion.Library.StackWalk
import Lyrion.Mempool.Bookkeeping

set_option autoImplicit false
set_option relaxedAutoImplicit false

namespace Lyrion.Mempool

open Library.ByteCodec Library.KeyValue Library.Cascade Library.StackWalk Data Utils Tx

variable {env : Env} {choices : Choices} {m m' : Mempool} {txid : Hash} {entry : MempoolEntry}

/-- What an entry depends on is pooled, lists the entry among its children, and depends on nothing
that the entry does not depend on. -/
structure Linked (m : Mempool) : Prop where
  pooled : ∀ txid entry, m.txs.lookup txid = some entry → entry.dependsOn ⊆ m.pooled
  listed : ∀ txid entry, m.txs.lookup txid = some entry →
    ∀ parent ∈ entry.dependsOn, txid ∈ m.children parent
  closed : ∀ txid entry, m.txs.lookup txid = some entry →
    ∀ parent ∈ entry.dependsOn, ∀ above, m.txs.lookup parent = some above →
      above.dependsOn ⊆ entry.dependsOn

private theorem remove_linked (linked : Linked m) (txid : Hash) : Linked (m.remove txid) := by
  -- A parent that goes takes its children with it.
  have left := remove_leftOf m txid
  have parents {x : Hash} {e : MempoolEntry} (found : (m.remove txid).txs.lookup x = some e) :
      e.dependsOn ⊆ (m.remove txid).pooled := by
    intro parent needed
    have before := left.lookup found
    have here : parent ∈ m.pooled := linked.pooled x e before needed
    have edge : x ∈ m.children parent := linked.listed x e before parent needed
    have stays := (mem_pooled_remove m txid x).mp (mem_pooled_of_lookup found)
    refine (mem_pooled_remove m txid parent).mpr ⟨here, fun reached => stays.2 ?_⟩
    exact reached.trans (.next here edge (.self stays.1))
  refine ⟨fun x e found => parents found, ?_, ?_⟩
  · intro x e found parent needed
    rw [left.children parent (parents found needed)]
    exact linked.listed x e (left.lookup found) parent needed
  · intro x e found parent needed above there
    exact linked.closed x e (left.lookup found) parent needed above (left.lookup there)

theorem hereditary_linked : Hereditary Linked where
  quiet _ _ _ _ _ linked := ⟨linked.pooled, linked.listed, linked.closed⟩
  removed _ txid linked := remove_linked linked txid

/-! The ancestor walk. -/

def dependencies (m : Mempool) (txid : Hash) : Finset Hash :=
  ((m.txs.lookup txid).map MempoolEntry.dependsOn).getD ∅

theorem dependencies_of_lookup (found : m.txs.lookup txid = some entry) :
    m.dependencies txid = entry.dependsOn := by
  rw [dependencies, found]
  rfl

def pushed (choices : Choices) (m : Mempool) (txid : Hash) : List Hash :=
  (choices.enumerate (m.dependencies txid)).reverse

theorem mem_pushed {x : Hash} : x ∈ pushed choices m txid ↔ x ∈ m.dependencies txid := by
  rw [pushed, List.mem_reverse, choices.mem_enumerate]

def verdict : Outcome Hash → Result (Finset Hash)
  | .finished seen => .ok seen
  | .repeated => fail (.anyhow "Cycle detected in dependencies")
  | .cutOff => fail .packageDepthExceeded

theorem ancestors_eq_walk (choices : Choices) (m : Mempool) (fuel : Nat) (stack : List Hash)
    (seen : Finset Hash) :
    m.ancestors choices fuel stack seen = verdict (walk (pushed choices m) fuel stack seen) := by
  induction fuel generalizing stack seen with
  | zero => rfl
  | succ fuel ih =>
      cases stack with
      | nil => rfl
      | cons parent stack =>
          rw [ancestors, walk]
          by_cases met : parent ∈ seen
          · rw [if_pos met, if_pos met]
            rfl
          · rw [if_neg met, if_neg met, ← ih]
            cases found : m.txs.lookup parent with
            | none =>
                have nothing : pushed choices m parent = [] := by
                  refine List.eq_nil_iff_forall_not_mem.mpr fun x member => ?_
                  rw [mem_pushed, dependencies, found] at member
                  exact Finset.notMem_empty x member
                rw [nothing]
                rfl
            | some e => rw [pushed, dependencies_of_lookup found]

private theorem verdict_eq_ok {outcome : Outcome Hash} {seen : Finset Hash} :
    verdict outcome = .ok seen ↔ outcome = .finished seen := by
  cases outcome <;> simp [verdict]

private theorem ancestors_subset {fuel : Nat} {stack : List Hash}
    {dependsOn walked within : Finset Hash}
    (closed : ∀ p ∈ within, ∀ e, m.txs.lookup p = some e → e.dependsOn ⊆ within)
    (inside : ∀ p ∈ stack, p ∈ within) (seen : dependsOn ⊆ within)
    (done : m.ancestors choices fuel stack dependsOn = .ok walked) : walked ⊆ within := by
  rw [ancestors_eq_walk, verdict_eq_ok] at done
  refine walk_subset (fun p here x needed => ?_) inside seen done
  rw [mem_pushed, dependencies] at needed
  cases found : m.txs.lookup p with
  | none => simp [found] at needed
  | some e => exact closed p here e found (by simpa [found] using needed)

private theorem ancestors_closed {fuel : Nat} {stack : List Hash} {dependsOn walked : Finset Hash}
    (done : m.ancestors choices fuel stack dependsOn = .ok walked) :
    dependsOn ⊆ walked ∧ (∀ p ∈ stack, p ∈ walked) ∧
      ∀ p ∈ walked, p ∈ dependsOn ∨ ∀ e, m.txs.lookup p = some e → e.dependsOn ⊆ walked := by
  rw [ancestors_eq_walk, verdict_eq_ok] at done
  obtain ⟨kept, taken, complete⟩ := walk_closed done
  refine ⟨kept, taken, fun p member => (complete p member).imp_right ?_⟩
  intro whole e found x needed
  exact whole x (mem_pushed.mpr (dependencies_of_lookup found ▸ needed))

private theorem gatherInputs_dependsOn {db : Db} {isAnonymous : Bool} {inputs : List TXInput}
    {sum inputSum : UInt64} {walked dependsOn : Finset Hash}
    (done : m.gatherInputs db isAnonymous inputs sum walked = .ok (inputSum, dependsOn)) :
    walked ⊆ dependsOn ∧
      ∀ p ∈ dependsOn, p ∈ walked ∨ p ∈ m.pooled ∧ ∃ vin ∈ inputs, vin.txid = p := by
  induction inputs generalizing sum walked with
  | nil =>
      obtain ⟨-, rfl⟩ := Prod.mk.inj (Except.ok.inj done)
      exact ⟨subset_rfl, fun p member => Or.inl member⟩
  | cons vin inputs ih =>
      have later {x : Hash} (more : x ∈ m.pooled ∧ ∃ v ∈ inputs, v.txid = x) :
          x ∈ m.pooled ∧ ∃ v ∈ vin :: inputs, v.txid = x := by
        obtain ⟨here, v, member, same⟩ := more
        exact ⟨here, v, List.mem_cons_of_mem _ member, same⟩
      rw [gatherInputs] at done
      cases stored : get db (coinFamily isAnonymous) (coinKey isAnonymous vin.txid vin.vout) with
      | some value =>
          simp only [stored, bind_eq_ok, orFail_eq_ok] at done
          obtain ⟨output, -, sum', -, rest⟩ := done
          obtain ⟨kept, origin⟩ := ih rest
          exact ⟨kept, fun p member => (origin p member).imp_right later⟩
      | none =>
          simp only [stored] at done
          split at done
          case isTrue here =>
            obtain ⟨kept, origin⟩ := ih done
            obtain ⟨own, earlier⟩ := Finset.insert_subset_iff.mp kept
            refine ⟨earlier, fun p member => ?_⟩
            rcases origin p member with added | more
            · rcases Finset.mem_insert.mp added with rfl | before
              · exact Or.inr ⟨Finmap.mem_keys.mpr here, vin, List.mem_cons_self, rfl⟩
              · exact Or.inl before
            · exact Or.inr (later more)
          case isFalse => exact absurd done (by simp)

section Admitting

variable {db : Db} {tx : Transaction} {walked : Finset Hash} {inputSum : UInt64}

theorem mem_parentStack {p : Hash} :
    p ∈ m.parentStack tx ↔ p ∈ m.pooled ∧ ∃ vin ∈ tx.inputs, vin.txid = p := by
  simp only [parentStack, List.mem_reverse, List.mem_filter, List.mem_map, decide_eq_true_eq,
    pooled, Finmap.mem_keys]
  exact and_comm

private theorem Admitted.dependsOn_eq (admitted : Admitted choices m db tx walked inputSum entry) :
    entry.dependsOn = walked := by
  obtain ⟨kept, origin⟩ := gatherInputs_dependsOn admitted.inputs
  obtain ⟨-, taken, -⟩ := ancestors_closed admitted.ancestors
  refine Finset.Subset.antisymm (fun p member => ?_) kept
  rcases origin p member with before | direct
  · exact before
  · exact taken p (mem_parentStack.mpr direct)

private theorem Admitted.parent_mem (admitted : Admitted choices m db tx walked inputSum entry)
    {vin : TXInput} (member : vin ∈ tx.inputs) (here : vin.txid ∈ m.pooled) :
    vin.txid ∈ entry.dependsOn := by
  rw [admitted.dependsOn_eq]
  exact (ancestors_closed admitted.ancestors).2.1 _ (mem_parentStack.mpr ⟨here, vin, member, rfl⟩)

private theorem Admitted.dependsOn_subset (linked : Linked m)
    (admitted : Admitted choices m db tx walked inputSum entry) : entry.dependsOn ⊆ m.pooled := by
  rw [admitted.dependsOn_eq]
  refine ancestors_subset (fun p _ e found => linked.pooled p e found) ?_ (Finset.empty_subset _)
    admitted.ancestors
  intro p member
  exact (mem_parentStack.mp member).1

private theorem Admitted.dependsOn_closed
    (admitted : Admitted choices m db tx walked inputSum entry) {parent : Hash}
    (needed : parent ∈ entry.dependsOn) {above : MempoolEntry}
    (found : m.txs.lookup parent = some above) : above.dependsOn ⊆ entry.dependsOn := by
  rw [admitted.dependsOn_eq] at needed ⊢
  rcases (ancestors_closed admitted.ancestors).2.2 parent needed with nothing | whole
  · exact absurd nothing (Finset.notMem_empty parent)
  · exact whole above found

private theorem mem_children_store (m : Mempool) (choices : Choices) (txid parent x : Hash)
    (entry : MempoolEntry) :
    x ∈ (m.store choices txid entry).children parent ↔
      x ∈ m.children parent ∨ x = txid ∧ parent ∈ entry.dependsOn := by
  have loop (deps : List Hash) (byParent : Map Hash (List Hash)) :
      x ∈ ((deps.foldl (fun byParent dep => upsert byParent dep [] fun list => list ++ [txid])
        byParent).lookup parent).getD [] ↔
      x ∈ (byParent.lookup parent).getD [] ∨ x = txid ∧ parent ∈ deps := by
    induction deps generalizing byParent with
    | nil => simp
    | cons dep deps ih =>
        rw [List.foldl_cons, ih, lookup_upsert, List.mem_cons]
        by_cases same : parent = dep
        · subst same
          simp only [if_true, Option.getD_some, List.mem_append, List.mem_singleton]
          tauto
        · simp only [same, if_false, false_or]
  rw [← choices.mem_enumerate entry.dependsOn parent]
  exact loop _ m.byParent

theorem store_linked (linked : Linked m) (fresh : txid ∉ m.pooled)
    (admitted : Admitted choices m db tx walked inputSum entry) :
    Linked (m.store choices txid entry) := by
  have inside := admitted.dependsOn_subset linked
  have grown : m.pooled ⊆ (m.store choices txid entry).pooled := by
    intro x member
    exact Finmap.mem_keys.mpr (Finmap.mem_insert.mpr (Or.inr (Finmap.mem_keys.mp member)))
  -- nothing pooled before depends on the new entry
  have older {parent : Hash} {above : MempoolEntry} (here : parent ∈ m.pooled)
      (found : (m.store choices txid entry).txs.lookup parent = some above) :
      m.txs.lookup parent = some above := by
    have other : parent ≠ txid := fun same => fresh (same ▸ here)
    rwa [lookup_store_txs, if_neg other] at found
  refine ⟨?_, ?_, ?_⟩
  all_goals
    intro x e found
    rw [lookup_store_txs] at found
    split at found
  · exact Option.some.inj found ▸ inside.trans grown
  · exact (linked.pooled x e found).trans grown
  · rename_i same
    intro parent needed
    exact (mem_children_store ..).mpr (Or.inr ⟨same, Option.some.inj found ▸ needed⟩)
  · intro parent needed
    exact (mem_children_store ..).mpr (Or.inl (linked.listed x e found parent needed))
  · obtain rfl := Option.some.inj found
    intro parent needed above there
    exact admitted.dependsOn_closed needed (older (inside needed) there)
  · intro parent needed above there
    exact linked.closed x e found parent needed above (older (linked.pooled x e found needed) there)

end Admitting

theorem run_linked {maxSize : Nat} {operations : List Operation}
    (done : (new maxSize).run env operations = some m) : Linked m := by
  refine (run_invariant hereditary_linked ?_ ?_ done).1
  · exact ⟨by simp [new], by simp [new], by simp [new]⟩
  · intro s choices db tx entry linked _ fresh passed
    obtain ⟨walked, inputSum, admitted⟩ := checkInsert_eq_ok passed
    exact store_linked linked fresh admitted

/-- Removal ends from every pool; in every pool that operations can reach, an insertion records
every pooled parent, the recorded dependencies are pooled and transitively closed, and after a
removal nothing is left that depends on what it took out. -/
theorem reachable_dependencies_closed (env : Env) (maxSize : Nat) (operations : List Operation)
    (m : Mempool) (done : (new maxSize).run env operations = some m) :
    (∀ (pool : Mempool) txid fuel, pool.pooled.card < fuel →
        removeWith fuel pool txid = some (pool.remove txid)) ∧
      (∀ choices db tx entry, m.checkInsert env choices db tx = .ok entry →
        ∀ vin ∈ tx.inputs, vin.txid ∈ m.pooled → vin.txid ∈ entry.dependsOn) ∧
      (∀ txid entry, m.txs.lookup txid = some entry → entry.dependsOn ⊆ m.pooled ∧
        ∀ parent ∈ entry.dependsOn, ∀ above, m.txs.lookup parent = some above →
          above.dependsOn ⊆ entry.dependsOn) ∧
      ∀ txid other entry, (m.remove txid).txs.lookup other = some entry →
        txid ∉ entry.dependsOn ∧
          ∀ gone, gone ∉ (m.remove txid).pooled → gone ∉ entry.dependsOn := by
  have linked := run_linked done
  refine ⟨fun pool txid fuel enough => removeWith_eq_some enough txid, ?_, ?_, ?_⟩
  · intro choices db tx entry passed vin member here
    obtain ⟨walked, inputSum, admitted⟩ := checkInsert_eq_ok passed
    exact admitted.parent_mem member here
  · intro txid entry found
    exact ⟨linked.pooled txid entry found, linked.closed txid entry found⟩
  · intro txid other entry found
    have kept := (remove_linked linked txid).pooled other entry found
    refine ⟨fun needed => ?_, fun gone absent needed => absent (kept needed)⟩
    obtain ⟨here, apart⟩ := (mem_pooled_remove m txid txid).mp (kept needed)
    exact apart (.self here)

def sampleOffspring (parent : Transaction) : Transaction where
  version := 1
  isAnonymous := false
  inputs := [⟨txHash sampleEnv parent, 0, [], maxU32⟩]
  outputs := []
  lockTime := 0
  rangeProofs := []

theorem sample_dependencies_closed :
    ∃ m, (new 1000).run sampleEnv [sampleInsert [],
        .insert sampleChoices sampleCoinDb (sampleOffspring (sampleSpend []))] = some m ∧
      m.pooled.card = 2 ∧ (m.remove (txHash sampleEnv (sampleSpend []))).pooled.card = 0 ∧
      ∀ txid entry, m.txs.lookup txid = some entry → entry.dependsOn ⊆ m.pooled := by
  have evaluated : ((new 1000).run sampleEnv [sampleInsert [],
      .insert sampleChoices sampleCoinDb (sampleOffspring (sampleSpend []))]).map (fun m =>
        (m.pooled.card, (m.remove (txHash sampleEnv (sampleSpend []))).pooled.card)) =
      some (2, 0) := by decide +kernel
  obtain ⟨m, done, counts⟩ := Option.map_eq_some_iff.mp evaluated
  obtain ⟨before, after⟩ := Prod.mk.inj counts
  have closed := reachable_dependencies_closed sampleEnv 1000 _ m done
  exact ⟨m, done, before, after, fun txid entry found => (closed.2.2.1 txid entry found).1⟩

end Lyrion.Mempool
