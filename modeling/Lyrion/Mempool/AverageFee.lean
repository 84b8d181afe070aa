/- GID: Lyrion/Mempool/AverageFee
   digest: The pool with the running average of its fee rates, over the pool without it. -/

import Lyrion.Checked
import Lyrion.Mempool.Dependencies

set_option autoImplicit false
set_option relaxedAutoImplicit false

namespace Lyrion

open Library.ByteCodec Library.KeyValue Library.Runs Data Utils Tx Mempool

/-- The pool with `avg_fee`. Its lock is taken to be free whenever it is asked for. -/
structure Rated where
  pool : Mempool
  avgFee : UInt64

namespace Rated

variable {fuel : Nat} {txid : Hash}

def len (m : Mempool) : UInt64 := UInt64.ofNat m.txs.keys.card

section Removing

variable (build : Build)

/-- The update of `insert`, after the entry has been put in. -/
def averageIn (avg len rate : UInt64) : Result UInt64 := do
  let others ← build.sub len 1
  let product ← build.mul avg others
  let sum ← build.add product rate
  Checked.div sum len

/-- The update of `remove`, after the entry and its children have been taken out. -/
def averageOut (avg len rate : UInt64) : Result UInt64 := do
  let before ← build.add len 1
  let product ← build.mul avg before
  let rest ← build.sub product rate
  Checked.div rest len

def removeWith : Nat → Rated → Hash → Result Rated
  | 0, _, _ => .error .outOfFuel
  | fuel + 1, s, txid =>
      match s.pool.txs.lookup txid with
      | none => .ok s
      | some entry => do
          let s ← (s.pool.children txid).foldlM (removeWith fuel)
            { s with pool := s.pool.detach txid entry }
          let avgFee ← averageOut build s.avgFee (len s.pool) entry.feePerByte
          pure ⟨s.pool.unindex txid entry, avgFee⟩

def remove (s : Rated) (txid : Hash) : Result Rated :=
  removeWith build (s.pool.txs.keys.card + 1) s txid

def removeAll (s : Rated) (txids : List Hash) : Result Rated :=
  txids.foldlM (remove build) s

def removeOrphanedTxs (choices : Choices) (s : Rated) : Result Rated :=
  s.removeAll build ((choices.enumerate s.pool.txs.keys).filter s.pool.isOrphaned)

def popTtl (choices : Choices) (s : Rated) : Rated := { s with pool := s.pool.popTtl choices }

def cleanExpired (choices : Choices) (expirationMs : Nat) (s : Rated) :
    Result (Result Unit × Rated) :=
  match choices.nowMs with
  | none => .ok (fail .invalidTimestamp, s)
  | some now => do
      let expired (time : Nat) : Bool := expirationMs < now - time
      let toRemove :=
        ((choices.ttlOrder s.pool.ttlHeap).takeWhile fun p => expired p.1).map Prod.snd
      let s ← toRemove.foldlM (fun s txid => popTtl choices <$> s.remove build txid) s
      let old := (sorted (· ≤ ·) s.pool.expirationIndex.keys).filter expired
      pure (.ok (), { s with
        pool := { s.pool with
          expirationIndex := applyWrites s.pool.expirationIndex (old.map .delete) } })

end Removing

section Hashing

variable (build : Build) (env : Env) (choices : Choices)

def evictLowFeePackage (s : Rated) : Result Rated :=
  match heapPop MempoolEntry.above (choices.heapOrder s.pool.heap) with
  | none => .ok s
  | some (low, heap) =>
      let s := { s with pool := { s.pool with heap := heap } }
      if low.feePerByte < s.avgFee / 2 then do
        let s ← s.remove build (txHash env low.tx)
        s.removeAll build (s.pool.children (txHash env low.tx))
      else .ok s

def evictLoop : Nat → Rated → Result Rated
  | 0, _ => .error .outOfFuel
  | fuel + 1, s =>
      if s.pool.totalBytes.toNat > s.pool.maxSize ∨ s.pool.txs.keys.card > maxTxs then do
        let s ← s.evictLowFeePackage build env choices
        evictLoop fuel s
      else .ok s

/-- `insert`. An eviction that does not end is reported as running out of fuel. -/
def insert (db : Db) (tx : Transaction) (s : Rated) : Result (Result Bool × Rated) :=
  if txHash env tx ∈ s.pool.txs then .ok (.ok false, s)
  else
    match s.pool.checkInsert env choices db tx with
    | .error e => .ok (.error e, s)
    | .ok entry => do
        let stored := s.pool.store choices (txHash env tx) entry
        let avgFee ← averageIn build s.avgFee (len stored) entry.feePerByte
        let s ← evictLoop build env choices (stored.heap.length + 1) ⟨stored, avgFee⟩
        let s ← s.removeOrphanedTxs build choices
        pure (.ok true, s)

end Hashing

variable (build : Build) (env : Env)

def step (s : Rated) : Operation → Result Rated
  | .insert choices db tx => Prod.snd <$> s.insert build env choices db tx
  | .remove txid => s.remove build txid
  | .evictLowFeePackage choices => s.evictLowFeePackage build env choices
  | .removeOrphanedTxs choices => s.removeOrphanedTxs build choices
  | .cleanExpired choices expirationMs => Prod.snd <$> s.cleanExpired build choices expirationMs
  | .updateMaxSize newMax => .ok { s with pool := s.pool.updateMaxSize newMax }

def run (s : Rated) (operations : List Operation) : Result Rated :=
  operations.foldlM (step build env) s

def new (maxSize : Nat) : Rated := ⟨Mempool.new maxSize, 0⟩

/-! The pool of a rated run is that of a run of the pool that finds the averages. -/

section Pools

variable {build : Build} {env : Env} {choices : Choices} {s s' : Rated}

private theorem removeWith_pool (done : removeWith build fuel s txid = .ok s') :
    s.pool.removeWith fuel txid = some s'.pool := by
  induction fuel generalizing s s' txid with
  | zero => exact absurd done (by simp [removeWith])
  | succ fuel ih =>
      rw [removeWith] at done
      rw [Mempool.removeWith]
      cases found : s.pool.txs.lookup txid with
      | none =>
          simp only [found] at done
          rw [Except.ok.inj done]
      | some entry =>
          simp only [found, bind_eq_ok, pure_eq_ok] at done
          obtain ⟨left, loop, avgFee, -, rfl⟩ := done
          have children := foldlM_view pool (fun t child t' => ih) loop
          simp only [children]
          rfl

private theorem remove_pool (done : s.remove build txid = .ok s') :
    s'.pool = s.pool.remove txid := by
  have all := removeWith_eq_some (m := s.pool) (Nat.lt_succ_self _) txid
  exact Option.some.inj ((removeWith_pool done).symm.trans all)

private theorem removeAll_pool {txids : List Hash} (done : s.removeAll build txids = .ok s') :
    s'.pool = s.pool.removeAll txids := by
  induction txids generalizing s with
  | nil => rw [← Except.ok.inj done]; rfl
  | cons txid txids ih =>
      rw [removeAll, List.foldlM_cons, bind_eq_ok] at done
      obtain ⟨next, first, rest⟩ := done
      rw [ih rest, remove_pool first]
      rfl

theorem cleanExpired_pool {expirationMs : Nat} {outcome : Result Unit}
    (done : s.cleanExpired build choices expirationMs = .ok (outcome, s')) :
    s.pool.cleanExpired choices expirationMs = (outcome, s'.pool) := by
  unfold cleanExpired at done
  unfold Mempool.cleanExpired
  cases clock : choices.nowMs with
  | none =>
      simp only [clock, Except.ok.injEq, Prod.mk.injEq] at done
      rw [← done.1, ← done.2]
  | some now =>
      simp only [clock, bind_eq_ok, pure_eq_ok, Prod.mk.injEq] at done
      obtain ⟨left, loop, rfl, rfl⟩ := done
      have removed (txids : List Hash) {t t' : Rated}
          (loop : txids.foldlM (fun s txid => popTtl choices <$> s.remove build txid) t = .ok t') :
          t'.pool = txids.foldl (fun m txid => (m.remove txid).popTtl choices) t.pool := by
        induction txids generalizing t with
        | nil => rw [← Except.ok.inj loop]; rfl
        | cons txid txids ih =>
            rw [List.foldlM_cons, bind_eq_ok] at loop
            obtain ⟨next, first, rest⟩ := loop
            obtain ⟨u, gone, rfl⟩ := map_eq_ok.mp first
            rw [ih rest, List.foldl_cons, ← remove_pool gone]
            rfl
      simp only [← removed _ loop]

def withAverages (choices : Choices) (avgFee : Nat → UInt64) : Choices :=
  { choices with avgFee := avgFee }

private theorem evictLowFeePackage_pool (avgFee : Nat → UInt64) (round : Nat)
    (now : avgFee round = s.avgFee) (done : s.evictLowFeePackage build env choices = .ok s') :
    s'.pool = s.pool.evictLowFeePackage env (withAverages choices avgFee) round := by
  unfold evictLowFeePackage at done
  unfold Mempool.evictLowFeePackage withAverages
  cases popped : heapPop MempoolEntry.above (choices.heapOrder s.pool.heap) with
  | none =>
      simp only [popped] at done ⊢
      rw [Except.ok.inj done]
  | some low =>
      obtain ⟨low, heap⟩ := low
      simp only [popped] at done ⊢
      rw [now]
      split at done
      case isTrue less =>
        rw [if_pos less]
        obtain ⟨next, first, rest⟩ := bind_eq_ok.mp done
        rw [removeAll_pool rest, remove_pool first]
      case isFalse less =>
        rw [if_neg less, ← Except.ok.inj done]

private theorem evictLoop_congr {round : Nat} (m : Mempool) {first second : Nat → UInt64}
    (same : ∀ k, round ≤ k → first k = second k) :
    m.evictLoop env (withAverages choices first) fuel round =
      m.evictLoop env (withAverages choices second) fuel round := by
  induction fuel generalizing m round with
  | zero => rfl
  | succ fuel ih =>
      rw [Mempool.evictLoop, Mempool.evictLoop]
      have one : m.evictLowFeePackage env (withAverages choices first) round =
          m.evictLowFeePackage env (withAverages choices second) round := by
        unfold Mempool.evictLowFeePackage withAverages
        simp only [same round (Nat.le_refl round)]
      rw [one, ih _ fun k above => same k (Nat.le_of_succ_le above)]

private theorem evictLoop_pool (round : Nat) (done : evictLoop build env choices fuel s = .ok s') :
    ∃ avgFee, s.pool.evictLoop env (withAverages choices avgFee) fuel round = some s'.pool := by
  induction fuel generalizing s round with
  | zero => exact absurd done (by simp [evictLoop])
  | succ fuel ih =>
      rw [evictLoop] at done
      split at done
      case isTrue large =>
        obtain ⟨next, first, rest⟩ := bind_eq_ok.mp done
        obtain ⟨later, looped⟩ := ih (round + 1) rest
        -- the average of this round, then those of the rounds after it
        refine ⟨fun k => if k = round then s.avgFee else later k, ?_⟩
        rw [Mempool.evictLoop, if_pos large,
          ← evictLowFeePackage_pool _ round (if_pos rfl) first, ← looped]
        refine evictLoop_congr _ fun k above => if_neg ?_
        omega
      case isFalse small =>
        refine ⟨fun _ => 0, ?_⟩
        rw [Mempool.evictLoop, if_neg small, Except.ok.inj done]

private theorem checkInsert_withAverages (env : Env) (choices : Choices) (avgFee : Nat → UInt64)
    (m : Mempool) (db : Db) (tx : Transaction) :
    m.checkInsert env (withAverages choices avgFee) db tx = m.checkInsert env choices db tx := by
  have walk (fuel : Nat) (stack : List Hash) (dependsOn : Finset Hash) :
      m.ancestors (withAverages choices avgFee) fuel stack dependsOn =
        m.ancestors choices fuel stack dependsOn := by
    induction fuel generalizing stack dependsOn with
    | zero => rfl
    | succ fuel ih =>
        cases stack with
        | nil => rfl
        | cons parent stack =>
            simp only [ancestors, ih]
            rfl
  unfold checkInsert
  simp only [walk]
  rfl

private theorem insert_pool {db : Db} {tx : Transaction} {outcome : Result Bool}
    (done : s.insert build env choices db tx = .ok (outcome, s')) :
    ∃ avgFee, s.pool.insert env (withAverages choices avgFee) db tx = some (outcome, s'.pool) := by
  unfold insert at done
  unfold Mempool.insert
  by_cases pooled : txHash env tx ∈ s.pool.txs
  · rw [if_pos pooled] at done
    obtain ⟨rfl, rfl⟩ := Prod.mk.inj (Except.ok.inj done)
    exact ⟨fun _ => 0, if_pos pooled⟩
  · rw [if_neg pooled] at done
    simp only [if_neg pooled]
    simp only [checkInsert_withAverages]
    cases passed : s.pool.checkInsert env choices db tx with
    | error e =>
        simp only [passed] at done
        obtain ⟨rfl, rfl⟩ := Prod.mk.inj (Except.ok.inj done)
        exact ⟨fun _ => 0, rfl⟩
    | ok entry =>
        simp only [passed, bind_eq_ok, pure_eq_ok] at done
        obtain ⟨avg, -, evicted, looped, left, cleaned, same⟩ := done
        obtain ⟨rfl, rfl⟩ := Prod.mk.inj same
        obtain ⟨avgFee, loop⟩ := evictLoop_pool 0 looped
        refine ⟨avgFee, Option.map_eq_some_iff.mpr ⟨evicted.pool, loop, ?_⟩⟩
        rw [removeAll_pool cleaned]
        rfl

def reaveraged (avgFee : Nat → UInt64) : Operation → Operation
  | .insert choices db tx => .insert (withAverages choices avgFee) db tx
  | .evictLowFeePackage choices => .evictLowFeePackage (withAverages choices avgFee)
  | operation => operation

private theorem step_pool {operation : Operation} (done : s.step build env operation = .ok s') :
    ∃ avgFee, s.pool.step env (reaveraged avgFee operation) = some s'.pool := by
  cases operation with
  | insert choices db tx =>
      obtain ⟨⟨outcome, after⟩, inserted, rfl⟩ := map_eq_ok.mp done
      obtain ⟨avgFee, same⟩ := insert_pool inserted
      refine ⟨avgFee, ?_⟩
      rw [reaveraged, Mempool.step, same]
      rfl
  | remove txid => exact ⟨fun _ => 0, by rw [remove_pool done]; rfl⟩
  | evictLowFeePackage choices =>
      refine ⟨fun _ => s.avgFee, ?_⟩
      rw [evictLowFeePackage_pool (fun _ => s.avgFee) 0 rfl done]
      rfl
  | removeOrphanedTxs choices => exact ⟨fun _ => 0, by rw [removeAll_pool done]; rfl⟩
  | cleanExpired choices expirationMs =>
      obtain ⟨⟨outcome, after⟩, cleaned, rfl⟩ := map_eq_ok.mp done
      refine ⟨fun _ => 0, ?_⟩
      show some (s.pool.cleanExpired choices expirationMs).2 = _
      rw [cleanExpired_pool cleaned]
  | updateMaxSize newMax => exact ⟨fun _ => 0, by rw [← Except.ok.inj done]; rfl⟩

theorem run_pool {operations : List Operation} (done : s.run build env operations = .ok s') :
    ∃ operations', s.pool.run env operations' = some s'.pool ∧
      ∀ operation' ∈ operations', ∃ operation ∈ operations, ∃ avgFee,
        operation' = reaveraged avgFee operation := by
  induction operations generalizing s with
  | nil => exact ⟨[], by rw [← Except.ok.inj done]; rfl, by simp⟩
  | cons operation operations ih =>
      rw [run, List.foldlM_cons, bind_eq_ok] at done
      obtain ⟨next, first, rest⟩ := done
      obtain ⟨avgFee, one⟩ := step_pool first
      obtain ⟨operations', others, same⟩ := ih rest
      refine ⟨reaveraged avgFee operation :: operations', ?_, ?_⟩
      · rw [Mempool.run, List.foldlM_cons, one]
        exact others
      · refine List.forall_mem_cons.mpr ⟨⟨operation, List.mem_cons_self, avgFee, rfl⟩, ?_⟩
        intro operation' member
        obtain ⟨original, among, found⟩ := same operation' member
        exact ⟨original, List.mem_cons_of_mem _ among, found⟩

theorem run_reaches {maxSize : Nat} {operations : List Operation}
    (done : (new maxSize).run build env operations = .ok s) : Few s.pool ∧ Linked s.pool := by
  obtain ⟨operations', reached, -⟩ := run_pool done
  exact ⟨(run_balanced reached).2, run_linked reached⟩

end Pools

/-! How removals end. -/

section Removals

variable {build : Build} {good : UInt64 → Prop} {m m' m'' : Mempool} {avgFee : UInt64}

/-- The updates of removals from a pool fail just where nothing is left, and averages of one kind
stay of that kind. -/
structure Steady (build : Build) (good : UInt64 → Prop) (m : Mempool) : Prop where
  last : ∀ avg txid entry, good avg → m.txs.lookup txid = some entry →
    averageOut build avg 0 entry.feePerByte = .error (.panic "attempt to divide by zero")
  update : ∀ avg txid entry left, good avg → m.txs.lookup txid = some entry → 0 < left →
    left < m.pooled.card →
    ∃ next, averageOut build avg (UInt64.ofNat left) entry.feePerByte = .ok next ∧ good next

private theorem Steady.shrunk {α : Type} {table : Mempool → α} (steady : Steady build good m)
    (shrunk : Shrunk table m m') : Steady build good m' where
  last avg txid entry fine found :=
    steady.last avg txid entry fine (shrunk.entries txid entry found)
  update avg txid entry left fine found positive less :=
    steady.update avg txid entry left fine (shrunk.entries txid entry found) positive
      (less.trans_le (Finset.card_le_card shrunk.subset))

theorem steady_release (few : m.pooled.card < 2 ^ 64) : Steady .release (fun _ => True) m where
  last _ _ _ _ _ := rfl
  update avg txid entry left _ _ positive less := by
    have word : (UInt64.ofNat left).toNat = left := Checked.toNat_word (less.trans few)
    have nonzero : UInt64.ofNat left ≠ 0 := by
      rw [Ne, ← UInt64.toNat_inj, word]
      exact Nat.ne_of_gt positive
    refine ⟨(avg * (UInt64.ofNat left + 1) - entry.feePerByte) / UInt64.ofNat left, ?_, trivial⟩
    show Checked.div _ _ = _
    rw [Checked.div, if_neg nonzero]
    rfl

/-- How removals end that take a pool from one state to another. -/
inductive Removal (good : UInt64 → Prop) (m m' : Mempool) : Result Rated → Prop
  | empties (start : m.pooled.Nonempty) (nothing : m'.pooled = ∅) :
      Removal good m m' (.error (.panic "attempt to divide by zero"))
  | leaves (avgFee : UInt64) (fine : good avgFee) (rest : m.pooled.Nonempty → m'.pooled.Nonempty) :
      Removal good m m' (.ok ⟨m', avgFee⟩)

theorem Removal.of_ok {s : Rated} (removed : Removal good m m' (.ok s)) :
    s.pool = m' ∧ (m.pooled.Nonempty → m'.pooled.Nonempty) := by
  cases removed with
  | leaves avgFee fine rest => exact ⟨rfl, rest⟩

theorem Removal.of_error {e : Fault} (removed : Removal good m m' (.error e)) :
    e = .panic "attempt to divide by zero" ∧ m.pooled.Nonempty ∧ m'.pooled = ∅ := by
  cases removed with
  | empties start nothing => exact ⟨rfl, start, nothing⟩

private theorem removal_self (fine : good avgFee) (same : m'.pooled = m.pooled) :
    Removal good m m' (.ok ⟨m', avgFee⟩) :=
  .leaves avgFee fine fun start => same ▸ start

private theorem removal_bind {result : Result Rated} {next : Rated → Result Rated}
    (first : Shrunk Mempool.heap m m') (second : Shrunk Mempool.heap m' m'')
    (removed : Removal good m m' result)
    (follows : ∀ avgFee, good avgFee → Removal good m' m'' (next ⟨m', avgFee⟩)) :
    Removal good m m'' (result >>= next) := by
  cases removed with
  | empties start nothing =>
      exact .empties start (Finset.subset_empty.mp (nothing ▸ second.subset))
  | leaves avgFee fine rest =>
      show Removal good m m'' (next ⟨m', avgFee⟩)
      have after := follows avgFee fine
      generalize next ⟨m', avgFee⟩ = result at after
      cases after with
      | empties start nothing => exact .empties (start.mono first.subset) nothing
      | leaves avgFee fine further => exact .leaves avgFee fine fun start => further (rest start)

private theorem foldlM_removal {f : Rated → Hash → Result Rated}
    {g : Mempool → Hash → Option Mempool}
    (shrinks : ∀ {m m' txid}, g m txid = some m' → Shrunk Mempool.heap m m')
    (round : ∀ {m m' txid avgFee}, Steady build good m → good avgFee → g m txid = some m' →
      Removal good m m' (f ⟨m, avgFee⟩ txid))
    {txids : List Hash} (steady : Steady build good m) (fine : good avgFee)
    (done : txids.foldlM g m = some m') :
    Shrunk Mempool.heap m m' ∧ Removal good m m' (txids.foldlM f ⟨m, avgFee⟩) := by
  induction txids generalizing m avgFee with
  | nil =>
      obtain rfl := Option.some.inj done
      exact ⟨.refl m, removal_self fine rfl⟩
  | cons txid txids ih =>
      rw [List.foldlM_cons] at done ⊢
      obtain ⟨next, first, rest⟩ := Option.bind_eq_some_iff.mp done
      have steady' := steady.shrunk (shrinks first)
      have further := (ih steady' fine rest).1
      refine ⟨(shrinks first).trans further, ?_⟩
      exact removal_bind (shrinks first) further (round steady fine first) fun avgFee fine =>
        (ih steady' fine rest).2

private theorem removeWith_shrunk (done : m.removeWith fuel txid = some m') :
    Shrunk Mempool.heap m m' := by
  have related := removeWith_rel m fuel m txid (.refl m)
  rw [done] at related
  generalize Library.Cascade.cascade m.children fuel txid m.pooled = rest at related
  cases related with
  | some both => exact both.2.shrunk both.2.heap

private theorem removeWith_removal (steady : Steady build good m) (fine : good avgFee)
    (done : m.removeWith fuel txid = some m') :
    Removal good m m' (removeWith build fuel ⟨m, avgFee⟩ txid) := by
  induction fuel generalizing m m' txid avgFee with
  | zero => exact absurd done (by simp [Mempool.removeWith])
  | succ fuel ih =>
      rw [Mempool.removeWith] at done
      rw [removeWith]
      cases found : m.txs.lookup txid with
      | none =>
          simp only [found] at done ⊢
          obtain rfl := Option.some.inj done
          exact removal_self fine rfl
      | some entry =>
          simp only [found] at done ⊢
          obtain ⟨rest, loop, last⟩ := Option.bind_eq_some_iff.mp done
          obtain rfl := Option.some.inj last
          have here : m.pooled.Nonempty := ⟨txid, mem_pooled_of_lookup found⟩
          have left := detach_leftOf m txid entry
          have detached : Shrunk Mempool.heap m (m.detach txid entry) := left.shrunk left.heap
          obtain ⟨shrunk, looped⟩ :=
            foldlM_removal removeWith_shrunk ih (steady.shrunk detached) fine loop
          have fewer : rest.pooled.card < m.pooled.card := by
            refine (Finset.card_le_card shrunk.subset).trans_lt ?_
            rw [pooled_detach]
            exact Finset.card_erase_lt_of_mem (mem_pooled_of_lookup found)
          -- the entry of this call is out already, so the children may be all that was left
          have update (avg : UInt64) (fine : good avg) :
              Removal good m (rest.unindex txid entry)
                (averageOut build avg (len rest) entry.feePerByte >>= fun avgFee =>
                  pure ⟨rest.unindex txid entry, avgFee⟩) := by
            by_cases empty : rest.pooled = ∅
            · have none : len rest = 0 := by
                show UInt64.ofNat rest.pooled.card = 0
                rw [empty]
                rfl
              rw [none, steady.last avg txid entry fine found]
              exact .empties here empty
            · have some : rest.pooled.Nonempty := Finset.nonempty_iff_ne_empty.mpr empty
              obtain ⟨next, updated, kept⟩ := steady.update avg txid entry rest.pooled.card fine
                found (Finset.card_pos.mpr some) fewer
              have updated : averageOut build avg (len rest) entry.feePerByte = .ok next := updated
              rw [updated]
              exact .leaves next kept fun _ => some
          generalize (m.children txid).foldlM (removeWith build fuel)
            ⟨m.detach txid entry, avgFee⟩ = result at looped ⊢
          cases looped with
          | empties _ nothing => exact .empties here nothing
          | leaves avg fine _ => exact update avg fine

theorem remove_removal (steady : Steady build good m) (fine : good avgFee) (txid : Hash) :
    Removal good m (m.remove txid) (remove build ⟨m, avgFee⟩ txid) :=
  removeWith_removal steady fine (removeWith_eq_some (Nat.lt_succ_self _) txid)

theorem remove_shrunk (m : Mempool) (txid : Hash) : Shrunk Mempool.heap m (m.remove txid) :=
  (remove_leftOf m txid).shrunk (remove_leftOf m txid).heap

theorem removeAll_removal {s : Rated} (steady : Steady build good s.pool) (fine : good s.avgFee)
    (txids : List Hash) :
    Removal good s.pool (s.pool.removeAll txids) (s.removeAll build txids) := by
  have loop : txids.foldlM (fun m txid => some (m.remove txid)) s.pool =
      some (s.pool.removeAll txids) :=
    List.foldlM_pure ..
  refine (foldlM_removal (fun {m m' txid} done => ?_)
    (fun {m m' txid avgFee} steady fine done => ?_) steady fine loop).2
  · exact Option.some.inj done ▸ remove_shrunk m txid
  · exact Option.some.inj done ▸ remove_removal steady fine txid

private theorem popTtl_shrunk (choices : Choices) (m : Mempool) :
    Shrunk Mempool.heap m (m.popTtl choices) := by
  unfold Mempool.popTtl
  split
  · exact .refl m
  · exact ⟨fun _ _ found => found, rfl⟩

theorem pooled_popTtl (choices : Choices) (m : Mempool) : (m.popTtl choices).pooled = m.pooled := by
  unfold Mempool.popTtl
  split <;> rfl

theorem cleanExpired_removal {s : Rated} (steady : Steady build good s.pool) (fine : good s.avgFee)
    (choices : Choices) (expirationMs : Nat) :
    Shrunk Mempool.heap s.pool (s.pool.cleanExpired choices expirationMs).2 ∧
      Removal good s.pool (s.pool.cleanExpired choices expirationMs).2
        (Prod.snd <$> s.cleanExpired build choices expirationMs) := by
  obtain ⟨m, avgFee⟩ := s
  unfold cleanExpired Mempool.cleanExpired
  cases choices.nowMs with
  | none => exact ⟨.refl m, removal_self fine rfl⟩
  | some now =>
      simp only
      generalize List.map Prod.snd _ = txids
      have loop : txids.foldlM (fun m txid => some ((m.remove txid).popTtl choices)) m =
          some (txids.foldl (fun m txid => (m.remove txid).popTtl choices) m) :=
        List.foldlM_pure ..
      obtain ⟨shrunk, looped⟩ := foldlM_removal
        (f := fun s txid => popTtl choices <$> s.remove build txid)
        (fun {m m' txid} done => by
          obtain rfl := Option.some.inj done
          exact (remove_shrunk m txid).trans (popTtl_shrunk choices _))
        (fun {m m' txid avgFee} steady fine done => by
          obtain rfl := Option.some.inj done
          exact removal_bind (remove_shrunk m txid) (popTtl_shrunk choices _)
            (remove_removal steady fine txid) fun _ fine =>
              removal_self fine (pooled_popTtl choices _))
        steady fine loop
      refine ⟨⟨shrunk.entries, shrunk.same⟩, ?_⟩
      generalize txids.foldl (fun m txid => (m.remove txid).popTtl choices) m = rest at looped
      generalize txids.foldlM (fun s txid => popTtl choices <$> s.remove build txid)
        (⟨m, avgFee⟩ : Rated) = result at looped
      cases looped with
      | empties start nothing => exact .empties start nothing
      | leaves avgFee fine rest => exact .leaves avgFee fine rest

end Removals

end Rated

end Lyrion
