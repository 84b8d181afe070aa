/- GID: Lyrion/Mempool/Expiry
   digest: The scan for expired entries starts at the latest one, so it removes nothing, or all of
   the pool, and then the update of the average divides by zero. -/

import Lyrion.Mempool.AverageFee

set_option autoImplicit false
set_option relaxedAutoImplicit false

namespace Lyrion.Mempool

open Library.ByteCodec Library.KeyValue Library.Cascade Library.Runs Data Utils Tx

variable {env : Env} {choices : Choices} {m m' m'' : Mempool} {now expirationMs : Nat}

private theorem removed_timekept {m' : Mempool} (left : LeftOf m m') :
    Shrunk Mempool.ttlHeap m m' :=
  left.shrunk left.ttlHeap

private theorem evictLowFeePackage_timekept (env : Env) (choices : Choices) (m : Mempool)
    (round : Nat) :
    Shrunk Mempool.ttlHeap m (m.evictLowFeePackage env choices round) := by
  unfold Mempool.evictLowFeePackage
  split
  · exact .refl m
  · rename_i low heap _
    have popped : Shrunk Mempool.ttlHeap m { m with heap := heap } := ⟨fun _ _ found => found, rfl⟩
    show Shrunk Mempool.ttlHeap m (if _ then _ else _)
    split
    · exact popped.trans ((removed_timekept (remove_leftOf _ _)).trans
        (removed_timekept (removeAll_leftOf _ _)))
    · exact popped

private theorem evictLoop_timekept {fuel round : Nat}
    (done : m.evictLoop env choices fuel round = some m') : Shrunk Mempool.ttlHeap m m' := by
  induction fuel generalizing m round with
  | zero => exact absurd done (by simp [evictLoop])
  | succ fuel ih =>
      rw [evictLoop] at done
      split at done
      · exact (evictLowFeePackage_timekept env choices m round).trans (ih done)
      · exact Option.some.inj done ▸ .refl m

def Timed (m : Mempool) : Prop :=
  ∀ txid entry, m.txs.lookup txid = some entry → (entry.time, txid) ∈ m.ttlHeap

private theorem Timed.kept (timed : Timed m) (kept : Shrunk Mempool.ttlHeap m m') : Timed m' := by
  intro txid entry found
  rw [kept.same]
  exact timed txid entry (kept.entries txid entry found)

private theorem store_timed (timed : Timed m) (choices : Choices) (txid : Hash)
    (entry : MempoolEntry) :
    Timed (m.store choices txid entry) := by
  intro x e found
  show (e.time, x) ∈ (entry.time, txid) :: m.ttlHeap
  rw [lookup_store_txs] at found
  split at found
  case isTrue same =>
    obtain rfl := Option.some.inj found
    rw [same]
    exact List.mem_cons_self
  case isFalse => exact List.mem_cons_of_mem _ (timed x e found)

def Operation.keepsTimes : Operation → Bool
  | .cleanExpired _ _ => false
  | _ => true

private theorem step_timed {operation : Operation} (timed : Timed m)
    (keeps : operation.keepsTimes = true) (done : m.step env operation = some m') : Timed m' := by
  cases operation with
  | insert choices db tx =>
      obtain ⟨⟨outcome, after⟩, inserted, rfl⟩ := Option.map_eq_some_iff.mp done
      rcases insert_eq_some inserted with ⟨rfl, -⟩ | ⟨-, -, entry, evicted, -, looped, rfl⟩
      · exact timed
      · have stored := store_timed timed choices (txHash env tx) entry
        exact (stored.kept (evictLoop_timekept looped)).kept
          (removed_timekept (removeAll_leftOf _ _))
  | remove txid =>
      obtain rfl := Option.some.inj done
      exact timed.kept (removed_timekept (remove_leftOf m txid))
  | evictLowFeePackage choices =>
      obtain rfl := Option.some.inj done
      exact timed.kept (evictLowFeePackage_timekept env choices m 0)
  | removeOrphanedTxs choices =>
      obtain rfl := Option.some.inj done
      exact timed.kept (removed_timekept (removeAll_leftOf _ _))
  | cleanExpired choices expirationMs => exact absurd keeps (by simp [Operation.keepsTimes])
  | updateMaxSize newMax =>
      obtain rfl := Option.some.inj done
      exact timed

private theorem run_timed {build : Build} {maxSize : Nat} {operations : List Operation} {s : Rated}
    (keeps : ∀ operation ∈ operations, operation.keepsTimes = true)
    (done : (Rated.new maxSize).run build env operations = .ok s) : Timed s.pool := by
  obtain ⟨operations', reached, same⟩ := Rated.run_pool done
  refine foldlM_some_invariant Timed (fun txid entry found => ?_) ?_ reached
  · exact absurd found (by simp [Rated.new, new])
  · intro before operation' after s s' split _ timed one
    obtain ⟨operation, member, avgFee, rfl⟩ := same operation' (by simp [split])
    refine step_timed timed ?_ one
    have kept := keeps operation member
    cases operation <;> exact kept

def Expired (now expirationMs time : Nat) : Prop := expirationMs < now - time

instance decidableExpired (now expirationMs time : Nat) :
    Decidable (Expired now expirationMs time) :=
  inferInstanceAs (Decidable (_ < _))

/-- A stored order of a binary heap begins with its root, which no element is above. -/
def TopFirst : List (Nat × Hash) → Prop
  | [] => True
  | top :: rest => ∀ p ∈ rest, ttlAbove p top = false

variable (now expirationMs) in
private theorem takeWhile_topFirst {order : List (Nat × Hash)} (top : TopFirst order) :
    (order.takeWhile fun p => decide (Expired now expirationMs p.1)) =
      if ∀ p ∈ order, Expired now expirationMs p.1 then order else [] := by
  cases order with
  | nil => simp
  | cons first rest =>
      by_cases old : Expired now expirationMs first.1
      · have all : ∀ p ∈ first :: rest, Expired now expirationMs p.1 := by
          refine List.forall_mem_cons.mpr ⟨old, fun p member => ?_⟩
          have below := top p member
          simp only [ttlAbove, Bool.or_eq_false_iff, decide_eq_false_iff_not] at below
          unfold Expired at old ⊢
          omega
        rw [if_pos all, List.takeWhile_eq_self_iff]
        exact fun p member => decide_eq_true (all p member)
      · rw [if_neg fun all => old (all first List.mem_cons_self), List.takeWhile_cons_of_neg]
        simpa using old

/-- Expiry as it should be: what has expired is gone, and what is gone has expired or depends on
something that has. -/
structure ExpiresExactly (now expirationMs : Nat) (m m' : Mempool) : Prop where
  gone : ∀ txid entry, m'.txs.lookup txid = some entry → ¬ Expired now expirationMs entry.time
  only : ∀ txid entry, m.txs.lookup txid = some entry → txid ∉ m'.pooled →
    Expired now expirationMs entry.time ∨ ∃ parent ∈ entry.dependsOn, ∃ above,
      m.txs.lookup parent = some above ∧ Expired now expirationMs above.time

private theorem removed_notMem (choices : Choices) (m : Mempool) (txids : List Hash) :
    (txids.foldl (fun m txid => (m.remove txid).popTtl choices) m).pooled ⊆ m.pooled ∧
      ∀ txid ∈ txids,
        txid ∉ (txids.foldl (fun m txid => (m.remove txid).popTtl choices) m).pooled := by
  induction txids generalizing m with
  | nil => exact ⟨subset_rfl, by simp⟩
  | cons txid txids ih =>
      obtain ⟨fewer, out⟩ := ih ((m.remove txid).popTtl choices)
      rw [Rated.pooled_popTtl] at fewer
      refine ⟨fewer.trans (remove_leftOf m txid).subset, ?_⟩
      refine List.forall_mem_cons.mpr ⟨fun member => ?_, out⟩
      obtain ⟨here, apart⟩ := (mem_pooled_remove m txid txid).mp (fewer member)
      exact apart (.self here)

variable (expirationMs) in
private theorem cleanExpired_cases (timed : Timed m) (clock : choices.nowMs = some now)
    (top : TopFirst (choices.ttlOrder m.ttlHeap)) :
    ((∀ p ∈ m.ttlHeap, Expired now expirationMs p.1) ∧
        (m.cleanExpired choices expirationMs).2.pooled = ∅) ∨
      ((¬ ∀ p ∈ m.ttlHeap, Expired now expirationMs p.1) ∧
        (m.cleanExpired choices expirationMs).2.txs = m.txs) := by
  have order := choices.ttlOrder_perm m.ttlHeap
  have scan := takeWhile_topFirst now expirationMs top
  have same : (∀ p ∈ choices.ttlOrder m.ttlHeap, Expired now expirationMs p.1) ↔
      ∀ p ∈ m.ttlHeap, Expired now expirationMs p.1 := by
    simp only [order.mem_iff]
  unfold Mempool.cleanExpired
  simp only [clock]
  by_cases all : ∀ p ∈ m.ttlHeap, Expired now expirationMs p.1
  · left
    rw [if_pos (same.mpr all)] at scan
    refine ⟨all, ?_⟩
    show (List.foldl _ m (List.map Prod.snd (List.takeWhile
      (fun p => decide (Expired now expirationMs p.1)) (choices.ttlOrder m.ttlHeap)))).pooled = ∅
    rw [scan]
    obtain ⟨fewer, out⟩ := removed_notMem choices m ((choices.ttlOrder m.ttlHeap).map Prod.snd)
    refine Finset.eq_empty_of_forall_notMem fun txid member => ?_
    obtain ⟨entry, found⟩ := mem_pooled.mp (fewer member)
    refine out txid (List.mem_map.mpr ⟨(entry.time, txid), ?_, rfl⟩) member
    exact order.mem_iff.mpr (timed txid entry found)
  · right
    rw [if_neg fun every => all (same.mp every)] at scan
    refine ⟨all, ?_⟩
    show (List.foldl _ m (List.map Prod.snd (List.takeWhile
      (fun p => decide (Expired now expirationMs p.1)) (choices.ttlOrder m.ttlHeap)))).txs = m.txs
    rw [scan]
    rfl

variable (expirationMs) in
private theorem cleanExpired_ends {s : Rated} (few : Few s.pool)
    (clock : choices.nowMs = some now) :
    (s.pool.pooled.Nonempty → (s.pool.cleanExpired choices expirationMs).2.pooled = ∅ →
        s.cleanExpired .release choices expirationMs =
          .error (.panic "attempt to divide by zero")) ∧
      ((s.pool.pooled.Nonempty → (s.pool.cleanExpired choices expirationMs).2.pooled.Nonempty) →
        ∃ s', s.cleanExpired .release choices expirationMs = .ok (.ok (), s') ∧
          s'.pool = (s.pool.cleanExpired choices expirationMs).2) := by
  have bound : s.pool.pooled.card < 2 ^ 64 := Nat.lt_of_le_of_lt few (by decide)
  have removed := (Rated.cleanExpired_removal (Rated.steady_release bound) trivial choices
    expirationMs).2
  have outcome {r : Result Unit} {s' : Rated}
      (done : s.cleanExpired .release choices expirationMs = .ok (r, s')) : r = .ok () := by
    have first := congrArg Prod.fst (Rated.cleanExpired_pool done)
    simpa [Mempool.cleanExpired, clock] using first.symm
  generalize s.cleanExpired .release choices expirationMs = result at removed outcome ⊢
  cases result with
  | error e =>
      obtain ⟨rfl, start, nothing⟩ := Rated.Removal.of_error removed
      exact ⟨fun _ _ => rfl, fun rest => absurd nothing (rest start).ne_empty⟩
  | ok both =>
      obtain ⟨r, s'⟩ := both
      obtain rfl := outcome rfl
      obtain ⟨pool, rest⟩ := Rated.Removal.of_ok removed
      exact ⟨fun start nothing => absurd nothing (rest start).ne_empty, fun _ => ⟨s', rfl, pool⟩⟩

private theorem expiresExactly_iff_of_same (same : m'.txs = m.txs) :
    ExpiresExactly now expirationMs m m' ↔
      ∀ txid entry, m.txs.lookup txid = some entry → ¬ Expired now expirationMs entry.time := by
  refine ⟨fun exactly txid entry found => exactly.gone txid entry (by rwa [same]),
    fun young => ⟨fun txid entry found => young txid entry (by rwa [same] at found), ?_⟩⟩
  intro txid entry found absent
  rw [← same] at found
  exact absurd (mem_pooled_of_lookup found) absent

private theorem txs_of_pooled_empty (empty : m.pooled = ∅) : m.txs = ∅ := by
  refine Finmap.ext_lookup fun txid => ?_
  have outside : txid ∉ m.pooled := by rw [empty]; exact Finset.notMem_empty txid
  rw [Finmap.lookup_empty, Finmap.lookup_eq_none]
  exact fun member => outside (Finmap.mem_keys.mpr member)

/-- After runs without expiry, expiry is exact if and only if no pooled entry has expired. For
where an entry has, the scan finds all arrival times expired and the removals fail when they come to
the last entry, or it takes nothing out at all. -/
theorem cleanExpired_exact_iff (env : Env) (maxSize : Nat) (operations : List Operation)
    (s : Rated) (reached : (Rated.new maxSize).run .release env operations = .ok s)
    (keeps : ∀ operation ∈ operations, operation.keepsTimes = true) (choices : Choices)
    (now expirationMs : Nat) (clock : choices.nowMs = some now)
    (top : TopFirst (choices.ttlOrder s.pool.ttlHeap)) :
    ((∃ s', s.cleanExpired .release choices expirationMs = .ok (.ok (), s') ∧
          ExpiresExactly now expirationMs s.pool s'.pool) ↔
        ∀ txid entry, s.pool.txs.lookup txid = some entry →
          ¬ Expired now expirationMs entry.time) ∧
      (s.pool.pooled.Nonempty → (∀ p ∈ s.pool.ttlHeap, Expired now expirationMs p.1) →
        s.cleanExpired .release choices expirationMs =
          .error (.panic "attempt to divide by zero")) ∧
      ((¬ ∀ p ∈ s.pool.ttlHeap, Expired now expirationMs p.1) →
        ∃ s', s.cleanExpired .release choices expirationMs = .ok (.ok (), s') ∧
          s'.pool.txs = s.pool.txs) := by
  have timed := run_timed keeps reached
  obtain ⟨fails, returns⟩ := cleanExpired_ends expirationMs (Rated.run_reaches reached).1 clock
  have answered {s' : Rated}
      (done : s.cleanExpired .release choices expirationMs = .ok (.ok (), s'))
      (same : s'.pool.txs = s.pool.txs) :
      (∃ s', s.cleanExpired .release choices expirationMs = .ok (.ok (), s') ∧
          ExpiresExactly now expirationMs s.pool s'.pool) ↔
        ∀ txid entry, s.pool.txs.lookup txid = some entry →
          ¬ Expired now expirationMs entry.time := by
    rw [← expiresExactly_iff_of_same same]
    constructor
    · rintro ⟨other, again, exactly⟩
      obtain rfl := (Prod.mk.inj (Except.ok.inj (done.symm.trans again))).2
      exact exactly
    · exact fun exactly => ⟨s', done, exactly⟩
  rcases cleanExpired_cases expirationMs timed clock top with ⟨all, empty⟩ | ⟨fresh, same⟩
  · refine ⟨?_, fun start _ => fails start empty, fun fresh => absurd all fresh⟩
    by_cases start : s.pool.pooled.Nonempty
    · rw [fails start empty]
      obtain ⟨txid, here⟩ := start
      obtain ⟨entry, found⟩ := mem_pooled.mp here
      refine iff_of_false (by simp) fun young => ?_
      exact young txid entry found (all _ (timed txid entry found))
    · obtain ⟨s', done, pool⟩ := returns fun there => absurd there start
      have nothing := Finset.not_nonempty_iff_eq_empty.mp start
      exact answered done (by rw [pool, txs_of_pooled_empty empty, txs_of_pooled_empty nothing])
  · have rest : s.pool.pooled.Nonempty →
        (s.pool.cleanExpired choices expirationMs).2.pooled.Nonempty := by
      rw [pooled, pooled, same]
      exact id
    obtain ⟨s', done, pool⟩ := returns rest
    rw [← pool] at same
    exact ⟨answered done same, fun _ all => absurd all fresh, fun _ => ⟨s', done, same⟩⟩

def clockChoices (now : Nat) : Choices := { sampleChoices with nowMs := some now }

def sampleArrivals (first second : Nat) : List Operation :=
  [.insert (clockChoices first) sampleCoinDb (sampleSpend []),
    .insert (clockChoices second) sampleCoinDb (sampleSpend [1])]

/-- One of two entries has expired, and both stay: the later one is the root of the heap. A while
later both have, and the clean-up fails. -/
theorem expired_entry_stays :
    ∃ s, (Rated.new 1000).run .release sampleEnv (sampleArrivals 0 100) = .ok s ∧
      (clockChoices 120).ttlOrder s.pool.ttlHeap =
        [(100, txHash sampleEnv (sampleSpend [1])), (0, txHash sampleEnv (sampleSpend []))] ∧
      (∃ s' entry, s.cleanExpired .release (clockChoices 120) 50 = .ok (.ok (), s') ∧
        s'.pool.txs.lookup (txHash sampleEnv (sampleSpend [])) = some entry ∧
          Expired 120 50 entry.time) ∧
      s.cleanExpired .release (clockChoices 200) 50 =
        .error (.panic "attempt to divide by zero") := by
  have late : ((Rated.new 1000).run .release sampleEnv (sampleArrivals 0 100)).map (fun s =>
      ((clockChoices 120).ttlOrder s.pool.ttlHeap,
        (s.cleanExpired .release (clockChoices 200) 50).map fun _ => ())) =
      .ok ([(100, txHash sampleEnv (sampleSpend [1])), (0, txHash sampleEnv (sampleSpend []))],
        .error (.panic "attempt to divide by zero")) := by decide +kernel
  have early : ((Rated.new 1000).run .release sampleEnv (sampleArrivals 0 100)).map (fun s =>
      (s.cleanExpired .release (clockChoices 120) 50).map (fun both => (both.1,
        (both.2.pool.txs.lookup (txHash sampleEnv (sampleSpend []))).map MempoolEntry.time))) =
      .ok (.ok (.ok (), some 0)) := by decide +kernel
  obtain ⟨s, reached, all⟩ := map_eq_ok.mp late
  obtain ⟨order, late⟩ := Prod.mk.inj all
  rw [reached] at early
  refine ⟨s, reached, order, ?_, ?_⟩
  · obtain ⟨⟨outcome, s'⟩, done, both⟩ := map_eq_ok.mp (Except.ok.inj early)
    obtain ⟨rfl, times⟩ := Prod.mk.inj both
    obtain ⟨entry, found, time⟩ := Option.map_eq_some_iff.mp times
    exact ⟨s', entry, done, found, by rw [time]; decide⟩
  · generalize s.cleanExpired .release (clockChoices 200) 50 = result at late ⊢
    cases result with
    | error e => exact congrArg Except.error (Except.error.inj late)
    | ok both => exact absurd late (by simp [Except.map])

theorem sample_expires_exactly :
    ∃ s s', (Rated.new 1000).run .release sampleEnv (sampleArrivals 0 100) = .ok s ∧
      s.pool.pooled.card = 2 ∧ s.cleanExpired .release (clockChoices 120) 150 = .ok (.ok (), s') ∧
      ExpiresExactly 120 150 s.pool s'.pool := by
  have evaluated : ((Rated.new 1000).run .release sampleEnv (sampleArrivals 0 100)).map (fun s =>
      ((clockChoices 120).ttlOrder s.pool.ttlHeap, s.pool.pooled.card)) =
      .ok ([(100, txHash sampleEnv (sampleSpend [1])), (0, txHash sampleEnv (sampleSpend []))],
        2) := by
    decide +kernel
  obtain ⟨s, reached, both⟩ := map_eq_ok.mp evaluated
  obtain ⟨order, card⟩ := Prod.mk.inj both
  have keeps : ∀ operation ∈ sampleArrivals 0 100, operation.keepsTimes = true := by
    simp [sampleArrivals, Operation.keepsTimes]
  have top : TopFirst ((clockChoices 120).ttlOrder s.pool.ttlHeap) := by
    rw [order]
    intro p member
    obtain rfl := List.mem_singleton.mp member
    rfl
  obtain ⟨s', done, exactly⟩ := ((cleanExpired_exact_iff sampleEnv 1000 _ s reached keeps
    (clockChoices 120) 120 150 rfl top).1).mpr fun txid entry _ => by
      show ¬ 150 < 120 - entry.time
      omega
  exact ⟨s, s', reached, card, done, exactly⟩

end Lyrion.Mempool
