/- GID: Lyrion/Mempool/Operations
   digest: What every operation keeps, from what a removal and what storing an entry keep. -/

import Lyrion.Mempool.Removal

set_option autoImplicit false
set_option relaxedAutoImplicit false

namespace Lyrion.Mempool

open Library.ByteCodec Library.KeyValue Library.Runs Data Utils Tx

/-- A property of the pool that is kept by removals and does not look at the heaps, the expiration
index and the size limit. -/
structure Hereditary (Inv : Mempool → Prop) : Prop where
  quiet : ∀ (m : Mempool) heap ttlHeap expirationIndex maxSize, Inv m →
    Inv { m with heap, ttlHeap, expirationIndex, maxSize }
  removed : ∀ (m : Mempool) (txid : Hash), Inv m → Inv (m.remove txid)

variable {env : Env} {choices : Choices} {Inv : Mempool → Prop} {m m' : Mempool}

namespace Hereditary

theorem removeAll (kept : Hereditary Inv) (inv : Inv m) (txids : List Hash) :
    Inv (m.removeAll txids) := by
  induction txids generalizing m with
  | nil => exact inv
  | cons txid txids ih => exact ih (kept.removed m txid inv)

private theorem evictLowFeePackage (kept : Hereditary Inv) (inv : Inv m) (round : Nat) :
    Inv (m.evictLowFeePackage env choices round) := by
  unfold Mempool.evictLowFeePackage
  cases heapPop MempoolEntry.above (choices.heapOrder m.heap) with
  | none => exact inv
  | some popped =>
      have rest := kept.quiet m popped.2 m.ttlHeap m.expirationIndex m.maxSize inv
      show Inv (if _ then _ else _)
      split
      · exact kept.removeAll (kept.removed _ _ rest) _
      · exact rest

theorem evictLoop (kept : Hereditary Inv) (inv : Inv m) {fuel round : Nat}
    (done : m.evictLoop env choices fuel round = some m') :
    Inv m' ∧ m'.totalBytes.toNat ≤ m'.maxSize ∧ m'.pooled.card ≤ maxTxs := by
  induction fuel generalizing m round with
  | zero => exact absurd done (by simp [Mempool.evictLoop])
  | succ fuel ih =>
      rw [Mempool.evictLoop] at done
      split at done
      case isTrue => exact ih (kept.evictLowFeePackage inv round) done
      case isFalse small =>
        obtain rfl := Option.some.inj done
        rw [not_or, Nat.not_lt, Nat.not_lt] at small
        exact ⟨inv, small⟩

theorem removeOrphanedTxs (kept : Hereditary Inv) (inv : Inv m) :
    Inv (m.removeOrphanedTxs choices) :=
  kept.removeAll inv _

private theorem popTtl (kept : Hereditary Inv) (inv : Inv m) : Inv (m.popTtl choices) := by
  unfold Mempool.popTtl
  split
  · exact inv
  · exact kept.quiet _ _ _ _ _ inv

theorem cleanExpired (kept : Hereditary Inv) (inv : Inv m) (expirationMs : Nat) :
    Inv (m.cleanExpired choices expirationMs).2 := by
  unfold Mempool.cleanExpired
  cases choices.nowMs with
  | none => exact inv
  | some now =>
      refine kept.quiet _ _ _ _ _ ?_
      generalize List.map Prod.snd _ = txids
      induction txids generalizing m with
      | nil => exact inv
      | cons txid txids ih =>
          exact ih (kept.popTtl (kept.removed m txid inv))

end Hereditary

/-! The eviction loop ends before the heap is empty, or never. -/

theorem heapPop_cases {α : Type} (above : α → α → Bool) (xs : List α) :
    (xs = [] ∧ heapPop above xs = none) ∨
      ∃ top rest, heapPop above xs = some (top, rest) ∧ xs.length = rest.length + 1 := by
  induction xs with
  | nil => exact Or.inl ⟨rfl, rfl⟩
  | cons x xs ih =>
      right
      rw [heapPop]
      rcases ih with ⟨rfl, none⟩ | ⟨top, rest, popped, length⟩
      · exact ⟨x, [], by rw [none], rfl⟩
      · rw [popped]
        by_cases higher : above top x = true
        · exact ⟨top, x :: rest, by simp [higher], by simp [length]⟩
        · exact ⟨x, xs, by simp [higher], rfl⟩

private theorem evictLowFeePackage_heap (env : Env) (choices : Choices) (m : Mempool)
    (round : Nat) :
    (m.heap = [] ∧ m.evictLowFeePackage env choices round = m) ∨
      m.heap.length = (m.evictLowFeePackage env choices round).heap.length + 1 := by
  have same := (choices.heapOrder_perm m.heap).length_eq
  unfold Mempool.evictLowFeePackage
  rcases heapPop_cases MempoolEntry.above (choices.heapOrder m.heap) with
    ⟨empty, none⟩ | ⟨low, rest, popped, length⟩
  · rw [empty] at same
    exact Or.inl ⟨List.length_eq_zero_iff.mp same.symm, by rw [none]⟩
  · right
    rw [popped, ← same, length]
    show rest.length + 1 = (Mempool.heap (if _ then _ else _)).length + 1
    split
    · rw [(removeAll_leftOf _ _).heap, (remove_leftOf _ _).heap]
    · rfl

theorem evictLoop_never_ends {round : Nat}
    (unfinished : m.evictLoop env choices (m.heap.length + 1) round = none) (fuel : Nat) :
    m.evictLoop env choices fuel round = none := by
  induction fuel generalizing m round with
  | zero => rfl
  | succ fuel ih =>
      rw [Mempool.evictLoop] at unfinished ⊢
      split at unfinished
      case isFalse => exact absurd unfinished (by simp)
      case isTrue large =>
        rw [if_pos large]
        apply ih
        rcases evictLowFeePackage_heap env choices m round with ⟨empty, stays⟩ | length
        · rw [stays, empty]
          simp only [List.length_nil, Mempool.evictLoop, if_pos large]
        · rw [← length]
          exact unfinished

theorem insert_eq_some {db : Db} {tx : Transaction} {outcome : Result Bool}
    (done : m.insert env choices db tx = some (outcome, m')) :
    (m' = m ∧ outcome ≠ .ok true) ∨
      (outcome = .ok true ∧ txHash env tx ∉ m.pooled ∧
        ∃ entry evicted, m.checkInsert env choices db tx = .ok entry ∧
          (m.store choices (txHash env tx) entry).evictLoop env choices
            ((m.store choices (txHash env tx) entry).heap.length + 1) 0 = some evicted ∧
          m' = evicted.removeOrphanedTxs choices) := by
  unfold Mempool.insert at done
  split at done
  case isTrue =>
    obtain ⟨rfl, rfl⟩ := Prod.mk.inj (Option.some.inj done)
    exact Or.inl ⟨rfl, by simp⟩
  case isFalse fresh =>
    cases admitted : m.checkInsert env choices db tx with
    | error e =>
        rw [admitted] at done
        obtain ⟨rfl, rfl⟩ := Prod.mk.inj (Option.some.inj done)
        exact Or.inl ⟨rfl, by simp⟩
    | ok entry =>
        rw [admitted] at done
        obtain ⟨evicted, looped, rest⟩ := Option.map_eq_some_iff.mp done
        obtain ⟨rfl, rfl⟩ := Prod.mk.inj rest
        refine Or.inr ⟨rfl, ?_, entry, evicted, rfl, looped, rfl⟩
        exact fun member => fresh (Finmap.mem_keys.mp member)

theorem Hereditary.step (kept : Hereditary Inv) (inv : Inv m) {operation : Operation}
    (stored : ∀ choices db tx entry, operation = .insert choices db tx → txHash env tx ∉ m.pooled →
      m.checkInsert env choices db tx = .ok entry → Inv (m.store choices (txHash env tx) entry))
    (done : m.step env operation = some m') : Inv m' := by
  cases operation with
  | insert choices db tx =>
      obtain ⟨⟨outcome, after⟩, inserted, rfl⟩ := Option.map_eq_some_iff.mp done
      rcases insert_eq_some inserted with
        ⟨rfl, -⟩ | ⟨-, fresh, entry, evicted, admitted, looped, rfl⟩
      · exact inv
      · have held := stored choices db tx entry rfl fresh admitted
        exact kept.removeOrphanedTxs (kept.evictLoop held looped).1
  | remove txid =>
      obtain rfl := Option.some.inj done
      exact kept.removed m txid inv
  | evictLowFeePackage choices =>
      obtain rfl := Option.some.inj done
      exact kept.evictLowFeePackage inv 0
  | removeOrphanedTxs choices =>
      obtain rfl := Option.some.inj done
      exact kept.removeOrphanedTxs inv
  | cleanExpired choices expirationMs =>
      obtain rfl := Option.some.inj done
      exact kept.cleanExpired inv expirationMs
  | updateMaxSize newMax =>
      obtain rfl := Option.some.inj done
      exact kept.quiet m _ _ _ _ inv

/-- The bound on the number of entries is one that only the end of an insertion restores. -/
def Few (m : Mempool) : Prop := m.pooled.card ≤ maxTxs

theorem hereditary_few : Hereditary Few where
  quiet _ _ _ _ _ few := few
  removed m txid few := (Finset.card_le_card (remove_leftOf m txid).subset).trans few

private theorem step_few {operation : Operation} (few : Few m)
    (done : m.step env operation = some m') :
    Few m' := by
  by_cases inserts : ∃ choices db tx, operation = .insert choices db tx
  · obtain ⟨choices, db, tx, rfl⟩ := inserts
    obtain ⟨⟨outcome, after⟩, inserted, rfl⟩ := Option.map_eq_some_iff.mp done
    rcases insert_eq_some inserted with ⟨rfl, -⟩ | ⟨-, -, entry, evicted, -, looped, rfl⟩
    · exact few
    · have always : Hereditary fun _ => True := ⟨fun _ _ _ _ _ _ => trivial, fun _ _ _ => trivial⟩
      exact hereditary_few.removeOrphanedTxs (always.evictLoop trivial looped).2.2
  · refine hereditary_few.step few ?_ done
    intro choices db tx entry same
    exact absurd ⟨choices, db, tx, same⟩ inserts

theorem run_invariant (kept : Hereditary Inv) {maxSize : Nat} (start : Inv (new maxSize))
    (stored : ∀ (m : Mempool) choices db tx entry, Inv m → Few m → txHash env tx ∉ m.pooled →
      m.checkInsert env choices db tx = .ok entry → Inv (m.store choices (txHash env tx) entry))
    {operations : List Operation} (done : (new maxSize).run env operations = some m) :
    Inv m ∧ Few m := by
  refine foldlM_some_invariant (fun m => Inv m ∧ Few m) ⟨start, Nat.zero_le _⟩ ?_ done
  intro _ operation _ s s' _ _ held one
  refine ⟨kept.step held.1 ?_ one, step_few held.2 one⟩
  intro choices db tx entry _
  exact stored s choices db tx entry held.1 held.2

/-- Choices to run small pools with: a fixed clock, and tables in the order of their keys. -/
def sampleChoices : Choices where
  nowMs := some 1000
  avgFee _ := 0
  enumerate := sorted hashLe
  nodup_enumerate := nodup_sorted hashLe
  mem_enumerate _ _ := mem_sorted hashLe
  heapOrder := id
  heapOrder_perm := List.Perm.refl
  ttlOrder := id
  ttlOrder_perm := List.Perm.refl

end Lyrion.Mempool
