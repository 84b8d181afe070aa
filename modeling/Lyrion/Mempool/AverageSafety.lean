/- GID: Lyrion/Mempool/AverageSafety
   digest: Runs in which the updates of the average fee rate fail, and runs in which they do not. -/

import Lyrion.Mempool.AverageFee

set_option autoImplicit false
set_option relaxedAutoImplicit false

namespace Lyrion

open Library.ByteCodec Library.KeyValue Library.Runs Data Utils Tx Mempool

namespace Rated

variable {s : Rated} {bytes : Nat}

/-! The updates of the average. -/

section Updates

private theorem averageIn_eq_ok {avg len rate next : UInt64} :
    averageIn .checked avg len rate = .ok next ↔
      0 < len.toNat ∧ avg.toNat * (len.toNat - 1) + rate.toNat < 2 ^ 64 ∧
        next.toNat = (avg.toNat * (len.toNat - 1) + rate.toNat) / len.toNat := by
  have one : (1 : UInt64).toNat = 1 := rfl
  simp only [averageIn, Build.sub, Build.mul, Build.add, bind_eq_ok, Checked.sub_eq_ok,
    Checked.mul_eq_ok, Checked.add_eq_ok, Checked.div_eq_ok, one]
  constructor
  · rintro ⟨others, less, product, times, sum, plus, positive, quotient⟩
    have fewer : len.toNat - 1 = others.toNat := by omega
    rw [fewer, times, plus]
    exact ⟨positive, sum.toNat_lt, quotient.symm⟩
  · rintro ⟨positive, small, quotient⟩
    have bound := len.toNat_lt
    have product : avg.toNat * (len.toNat - 1) < 2 ^ 64 := by omega
    refine ⟨UInt64.ofNat (len.toNat - 1), ?_, UInt64.ofNat (avg.toNat * (len.toNat - 1)), ?_,
      UInt64.ofNat (avg.toNat * (len.toNat - 1) + rate.toNat), ?_, positive, ?_⟩
    · rw [Checked.toNat_word (by omega)]
      omega
    · rw [Checked.toNat_word (by omega), Checked.toNat_word product]
    · rw [Checked.toNat_word product, Checked.toNat_word small]
    · rw [Checked.toNat_word small, quotient]

private theorem exists_averageIn {avg len rate : UInt64} {bound : Nat} (low : avg.toNat ≤ bound)
    (fits : rate.toNat ≤ bound) (positive : 0 < len.toNat) (small : bound * len.toNat < 2 ^ 64) :
    ∃ next, averageIn .checked avg len rate = .ok next ∧ next.toNat ≤ bound := by
  have sum : avg.toNat * (len.toNat - 1) + rate.toNat ≤ bound * len.toNat :=
    calc avg.toNat * (len.toNat - 1) + rate.toNat
        ≤ bound * (len.toNat - 1) + bound :=
          Nat.add_le_add (Nat.mul_le_mul_right _ low) fits
      _ = bound * len.toNat := by
          rw [← Nat.mul_succ, Nat.succ_eq_add_one, Nat.sub_add_cancel positive]
  have mean : (avg.toNat * (len.toNat - 1) + rate.toNat) / len.toNat ≤ bound :=
    Nat.div_le_of_le_mul (sum.trans_eq (Nat.mul_comm ..))
  have word : (UInt64.ofNat ((avg.toNat * (len.toNat - 1) + rate.toNat) / len.toNat)).toNat =
      (avg.toNat * (len.toNat - 1) + rate.toNat) / len.toNat :=
    Checked.toNat_word ((Nat.div_le_self ..).trans_lt (sum.trans_lt small))
  exact ⟨_, averageIn_eq_ok.mpr ⟨positive, sum.trans_lt small, word⟩, word.trans_le mean⟩

private theorem averageOut_self {rate : UInt64} {left : Nat}
    (small : rate.toNat * (left + 1) < 2 ^ 64) (few : left ≤ maxTxs) :
    averageOut .checked rate (UInt64.ofNat left) rate =
      if left = 0 then .error (.panic "attempt to divide by zero") else .ok rate := by
  have bound : maxTxs < 2 ^ 64 - 1 := by decide
  have word : (UInt64.ofNat left).toNat = left := Checked.toNat_word (by omega)
  have next : (UInt64.ofNat (left + 1)).toNat = left + 1 := Checked.toNat_word (by omega)
  have product : (UInt64.ofNat (rate.toNat * (left + 1))).toNat = rate.toNat * (left + 1) :=
    Checked.toNat_word small
  have split : rate.toNat * (left + 1) = rate.toNat * left + rate.toNat := Nat.mul_succ _ _
  have rest : (UInt64.ofNat (rate.toNat * left)).toNat = rate.toNat * left :=
    Checked.toNat_word (by omega)
  have one : (1 : UInt64).toNat = 1 := rfl
  have added : Checked.add (UInt64.ofNat left) 1 = .ok (UInt64.ofNat (left + 1)) :=
    Checked.add_eq_ok.mpr (by rw [word, next, one])
  have times : Checked.mul rate (UInt64.ofNat (left + 1)) =
      .ok (UInt64.ofNat (rate.toNat * (left + 1))) :=
    Checked.mul_eq_ok.mpr (by rw [next, product])
  have less : Checked.sub (UInt64.ofNat (rate.toNat * (left + 1))) rate =
      .ok (UInt64.ofNat (rate.toNat * left)) :=
    Checked.sub_eq_ok.mpr (by rw [product, rest, split])
  have folded : averageOut .checked rate (UInt64.ofNat left) rate =
      Checked.div (UInt64.ofNat (rate.toNat * left)) (UInt64.ofNat left) := by
    simp only [averageOut, Build.add, Build.mul, Build.sub, added, times, less, Bind.bind,
      Except.bind]
  rw [folded]
  by_cases empty : left = 0
  · subst empty
    rfl
  · rw [if_neg empty, Checked.div_eq_ok, word, rest]
    exact ⟨Nat.pos_of_ne_zero empty, Nat.mul_div_cancel _ (Nat.pos_of_ne_zero empty)⟩

end Updates

/-! Rates that are all the same. -/

section Uniform

/-- Every entry has the given rate, and so many of them could be added up. -/
structure Uniform (rate : UInt64) (m : Mempool) : Prop where
  rates : ∀ txid entry, m.txs.lookup txid = some entry → entry.feePerByte = rate
  few : Few m
  small : rate.toNat * (maxTxs + 1) < 2 ^ 64

variable {rate : UInt64} {m m' m'' : Mempool}

private theorem Uniform.steady (uniform : Uniform rate m) : Steady .checked (· = rate) m where
  last avg txid entry same found := by
    rw [same, uniform.rates txid entry found]
    have small : rate.toNat * (0 + 1) < 2 ^ 64 :=
      (Nat.mul_le_mul_left _ (by decide)).trans_lt uniform.small
    exact averageOut_self small (Nat.zero_le _)
  update avg txid entry left same found positive less := by
    have few : left + 1 ≤ maxTxs := Nat.le_trans less uniform.few
    have small : rate.toNat * (left + 1) < 2 ^ 64 :=
      (Nat.mul_le_mul_left _ (few.trans (Nat.le_succ _))).trans_lt uniform.small
    refine ⟨rate, ?_, rfl⟩
    rw [same, uniform.rates txid entry found, averageOut_self small (Nat.le_of_succ_le few),
      if_neg (Nat.ne_of_gt positive)]

/-- A pool whose entries, heap and average have one rate, or an untouched one. -/
structure Even (rate : UInt64) (s : Rated) : Prop where
  rates : ∀ txid entry, s.pool.txs.lookup txid = some entry → entry.feePerByte = rate
  heap : ∀ entry ∈ s.pool.heap, entry.feePerByte = rate
  average : s.avgFee = rate ∨ s.avgFee = 0 ∧ s.pool.pooled = ∅ ∧ s.pool.heap = []

private theorem Even.uniform (even : Even rate s) (few : Few s.pool)
    (small : rate.toNat * (maxTxs + 1) < 2 ^ 64) : Uniform s.avgFee s.pool := by
  rcases even.average with same | ⟨zero, empty, -⟩
  · exact ⟨same ▸ even.rates, few, same ▸ small⟩
  · refine ⟨fun txid entry found => ?_, few, by rw [zero]; decide⟩
    exact absurd (mem_pooled_of_lookup found) (by rw [empty]; exact Finset.notMem_empty txid)

private theorem Even.shrunk (even : Even rate s) (shrunk : Shrunk Mempool.heap s.pool m') :
    Even rate ⟨m', s.avgFee⟩ where
  rates txid entry found := even.rates txid entry (shrunk.entries txid entry found)
  heap := shrunk.same ▸ even.heap
  average := even.average.imp_right fun ⟨zero, empty, heap⟩ =>
    ⟨zero, Finset.subset_empty.mp (empty ▸ shrunk.subset), shrunk.same.trans heap⟩

private theorem heapPop_perm {α : Type} {above : α → α → Bool} {xs rest : List α} {top : α}
    (popped : heapPop above xs = some (top, rest)) : (top :: rest).Perm xs := by
  induction xs generalizing top rest with
  | nil => exact absurd popped (by simp [heapPop])
  | cons x xs ih =>
      rw [heapPop] at popped
      cases below : heapPop above xs with
      | none =>
          rw [below] at popped
          obtain ⟨rfl, rfl⟩ := Prod.mk.inj (Option.some.inj popped)
          rcases heapPop_cases above xs with ⟨rfl, -⟩ | ⟨_, _, other, -⟩
          · exact .refl _
          · exact absurd (below.symm.trans other) (by simp)
      | some pair =>
          obtain ⟨highest, others⟩ := pair
          simp only [below] at popped
          split at popped
          case isTrue =>
            obtain ⟨rfl, rfl⟩ := Prod.mk.inj (Option.some.inj popped)
            exact (List.Perm.swap x highest others).trans ((ih below).cons x)
          case isFalse =>
            obtain ⟨rfl, rfl⟩ := Prod.mk.inj (Option.some.inj popped)
            exact .refl _

variable {env : Env} {choices : Choices}

private theorem evictLowFeePackage_even (env : Env) (choices : Choices) (even : Even rate s) :
    ∃ heap, (∀ entry ∈ heap, entry ∈ s.pool.heap) ∧
      s.evictLowFeePackage .checked env choices = .ok ⟨{ s.pool with heap := heap }, s.avgFee⟩ := by
  unfold evictLowFeePackage
  cases popped : heapPop MempoolEntry.above (choices.heapOrder s.pool.heap) with
  | none => exact ⟨s.pool.heap, fun _ member => member, rfl⟩
  | some pair =>
      obtain ⟨low, heap⟩ := pair
      have order := (heapPop_perm popped).trans (choices.heapOrder_perm s.pool.heap)
      have member : low ∈ s.pool.heap := order.mem_iff.mp List.mem_cons_self
      have same : s.avgFee = low.feePerByte := by
        rcases even.average with average | ⟨-, -, empty⟩
        · rw [average, even.heap low member]
        · exact absurd member (by rw [empty]; exact List.not_mem_nil)
      have high : ¬ low.feePerByte < s.avgFee / 2 := by
        rw [same, UInt64.lt_iff_toNat_lt, UInt64.toNat_div]
        exact Nat.not_lt.mpr (Nat.div_le_self ..)
      refine ⟨heap, fun entry inside => order.mem_iff.mp (List.mem_cons_of_mem _ inside), ?_⟩
      simp only [high, if_false]

private theorem evictLoop_even (env : Env) (choices : Choices) (fuel : Nat)
    (rates : ∀ entry ∈ m.heap, entry.feePerByte = rate)
    (all : ∀ txid entry, m.txs.lookup txid = some entry → entry.feePerByte = rate) :
    evictLoop .checked env choices fuel ⟨m, rate⟩ = .error .outOfFuel ∨
      ∃ heap, (∀ entry ∈ heap, entry ∈ m.heap) ∧
        evictLoop .checked env choices fuel ⟨m, rate⟩ = .ok ⟨{ m with heap := heap }, rate⟩ := by
  induction fuel generalizing m with
  | zero => exact Or.inl rfl
  | succ fuel ih =>
      rw [evictLoop]
      split
      case isFalse => exact Or.inr ⟨m.heap, fun _ member => member, rfl⟩
      case isTrue =>
        obtain ⟨heap, inside, one⟩ := evictLowFeePackage_even env choices
          (⟨all, rates, Or.inl rfl⟩ : Even rate ⟨m, rate⟩)
        rw [one]
        rcases ih (m := { m with heap := heap })
          (fun entry member => rates entry (inside entry member)) all with
          never | ⟨further, within, done⟩
        · exact Or.inl never
        · exact Or.inr ⟨further, fun entry member => inside entry (within entry member), done⟩

private theorem removeOrphanedTxs_linked (build : Build) (choices : Choices)
    (linked : Linked s.pool) : s.removeOrphanedTxs build choices = .ok s := by
  have clean : (choices.enumerate s.pool.txs.keys).filter s.pool.isOrphaned = [] := by
    rw [List.filter_eq_nil_iff]
    intro txid _ orphaned
    unfold isOrphaned at orphaned
    split at orphaned
    · exact absurd orphaned (by simp)
    · rename_i entry found
      have missing : ¬ entry.dependsOn ⊆ s.pool.txs.keys := by simpa using orphaned
      exact missing (linked.pooled txid entry found)
  rw [removeOrphanedTxs, clean]
  rfl

private theorem averageIn_even (even : Even rate s) (few : Few s.pool)
    (small : rate.toNat * (maxTxs + 1) < 2 ^ 64) :
    averageIn .checked s.avgFee (UInt64.ofNat (s.pool.pooled.card + 1)) rate = .ok rate := by
  have bound : maxTxs + 1 < 2 ^ 64 := by decide
  have few : s.pool.pooled.card ≤ maxTxs := few
  have word : (UInt64.ofNat (s.pool.pooled.card + 1)).toNat = s.pool.pooled.card + 1 :=
    Checked.toNat_word (by omega)
  have sum : s.avgFee.toNat * s.pool.pooled.card + rate.toNat =
      rate.toNat * (s.pool.pooled.card + 1) := by
    rcases even.average with same | ⟨-, empty, -⟩
    · rw [same, Nat.mul_succ]
    · rw [empty, Finset.card_empty, Nat.mul_zero, Nat.zero_add, Nat.mul_one]
  rw [averageIn_eq_ok, word, Nat.add_sub_cancel, sum, Nat.mul_div_cancel _ (Nat.succ_pos _)]
  refine ⟨Nat.succ_pos _, (Nat.mul_le_mul_left _ ?_).trans_lt small, rfl⟩
  omega

private theorem pooled_store (m : Mempool) (choices : Choices) (txid : Hash)
    (entry : MempoolEntry) :
    (m.store choices txid entry).pooled = Insert.insert txid m.pooled := by
  ext x
  rw [mem_pooled, lookup_store_txs, Finset.mem_insert, mem_pooled]
  by_cases same : x = txid
  · simp [same]
  · simp [same]

def Empties (m : Mempool) : Operation → Prop
  | .remove txid => (m.remove txid).pooled = ∅
  | .cleanExpired choices expirationMs => (m.cleanExpired choices expirationMs).2.pooled = ∅
  | _ => False

/-- How one operation ends on a pool with one rate. -/
inductive Ends (rate : UInt64) (s : Rated) (operation : Operation) : Result Rated → Prop
  | returns (s' : Rated) (even : Even rate s')
      (stays : ¬ (s.pool.pooled.Nonempty ∧ Empties s.pool operation)) :
      Ends rate s operation (.ok s')
  | never (stays : ¬ Empties s.pool operation) : Ends rate s operation (.error .outOfFuel)
  | fails (start : s.pool.pooled.Nonempty) (emptied : Empties s.pool operation) :
      Ends rate s operation (.error (.panic "attempt to divide by zero"))

private theorem Removal.ends {operation : Operation} {result : Result Rated}
    (removed : Removal (· = s.avgFee) s.pool m' result) (even : Even rate s)
    (shrunk : Shrunk Mempool.heap s.pool m') (emptied : Empties s.pool operation ↔ m'.pooled = ∅) :
    Ends rate s operation result := by
  cases removed with
  | empties start nothing => exact .fails start (emptied.mpr nothing)
  | leaves avgFee same rest =>
      obtain rfl := same
      refine .returns _ (even.shrunk shrunk) fun both => ?_
      exact (rest both.1).ne_empty (emptied.mp both.2)

private theorem insert_even {db : Db} {tx : Transaction} (even : Even rate s) (few : Few s.pool)
    (linked : Linked s.pool) (small : rate.toNat * (maxTxs + 1) < 2 ^ 64)
    (own : ∀ entry, s.pool.checkInsert env choices db tx = .ok entry → entry.feePerByte = rate) :
    Ends rate s (.insert choices db tx) (Prod.snd <$> s.insert .checked env choices db tx) := by
  have stays : ¬ (s.pool.pooled.Nonempty ∧ Empties s.pool (.insert choices db tx)) :=
    fun both => both.2
  unfold insert
  split
  case isTrue => exact .returns s even stays
  case isFalse absent =>
    have fresh : txHash env tx ∉ s.pool.pooled := mt Finmap.mem_keys.mp absent
    cases passed : s.pool.checkInsert env choices db tx with
    | error e => exact .returns s even stays
    | ok entry =>
        obtain ⟨walked, inputSum, admitted⟩ := checkInsert_eq_ok passed
        have kept := store_linked linked fresh admitted
        have same := own entry passed
        have length : len (s.pool.store choices (txHash env tx) entry) =
            UInt64.ofNat (s.pool.pooled.card + 1) := by
          rw [← Finset.card_insert_of_notMem fresh, ← pooled_store s.pool choices _ entry]
          rfl
        simp only [length, same, averageIn_even even few small, Bind.bind, Except.bind]
        have heap : ∀ e ∈ (s.pool.store choices (txHash env tx) entry).heap, e.feePerByte = rate :=
          List.forall_mem_cons.mpr ⟨same, even.heap⟩
        have rates (txid : Hash) (e : MempoolEntry)
            (found : (s.pool.store choices (txHash env tx) entry).txs.lookup txid = some e) :
            e.feePerByte = rate := by
          rw [lookup_store_txs] at found
          split at found
          · exact Option.some.inj found ▸ same
          · exact even.rates txid e found
        rcases evictLoop_even env choices
          ((s.pool.store choices (txHash env tx) entry).heap.length + 1) heap rates with
          never | ⟨rest, inside, done⟩
        · simp only [never]
          exact .never fun emptied => emptied
        · have clean := removeOrphanedTxs_linked .checked choices
            (s := ⟨{ s.pool.store choices (txHash env tx) entry with heap := rest }, rate⟩)
            (hereditary_linked.quiet _ _ _ _ _ kept)
          simp only [done, clean]
          exact .returns _ ⟨rates, fun e member => heap e (inside e member), Or.inl rfl⟩ stays

def OneRate (env : Env) (rate : UInt64) (operation : Operation) : Prop :=
  ∀ choices db tx, operation = .insert choices db tx → ∀ (m : Mempool) entry,
    m.checkInsert env choices db tx = .ok entry → entry.feePerByte = rate

private theorem step_ends {operation : Operation} (even : Even rate s) (few : Few s.pool)
    (linked : Linked s.pool) (small : rate.toNat * (maxTxs + 1) < 2 ^ 64)
    (own : OneRate env rate operation) : Ends rate s operation (s.step .checked env operation) := by
  have uniform := even.uniform few small
  cases operation with
  | insert choices db tx =>
      exact insert_even even few linked small (own choices db tx rfl s.pool)
  | remove txid =>
      exact (remove_removal uniform.steady rfl txid).ends even (remove_shrunk s.pool txid) Iff.rfl
  | evictLowFeePackage choices =>
      obtain ⟨heap, inside, done⟩ := evictLowFeePackage_even env choices even
      rw [step, done]
      refine .returns _ ⟨even.rates, fun e member => even.heap e (inside e member), ?_⟩
        fun both => both.2
      exact even.average.imp_right fun ⟨zero, empty, nothing⟩ =>
        ⟨zero, empty, List.eq_nil_iff_forall_not_mem.mpr fun e member =>
          List.not_mem_nil (nothing ▸ inside e member)⟩
  | removeOrphanedTxs choices =>
      rw [step, removeOrphanedTxs_linked .checked choices linked]
      exact .returns s even fun both => both.2
  | cleanExpired choices expirationMs =>
      obtain ⟨shrunk, removed⟩ := cleanExpired_removal uniform.steady rfl choices expirationMs
      exact removed.ends even shrunk Iff.rfl
  | updateMaxSize newMax =>
      exact .returns _ ⟨even.rates, even.heap, even.average⟩ fun both => both.2

private theorem run_even {maxSize : Nat} {operations : List Operation}
    (small : rate.toNat * (maxTxs + 1) < 2 ^ 64)
    (own : ∀ operation ∈ operations, OneRate env rate operation)
    (done : (new maxSize).run .checked env operations = .ok s) : Even rate s := by
  induction operations using List.reverseRecOn generalizing s with
  | nil =>
      obtain rfl := Except.ok.inj done
      exact ⟨by simp [new, Mempool.new], by simp [new, Mempool.new], Or.inr ⟨rfl, rfl, rfl⟩⟩
  | append_singleton operations operation ih =>
      rw [run, List.foldlM_append] at done
      obtain ⟨t, earlier, last⟩ := bind_eq_ok.mp done
      have even := ih (fun other member => own other (List.mem_append_left _ member)) earlier
      obtain ⟨few, linked⟩ := run_reaches earlier
      have ends := step_ends even few linked small (own operation (by simp))
      have last : t.step .checked env operation = .ok s := by simpa using last
      rw [last] at ends
      cases ends with
      | returns _ even _ => exact even

private theorem run_fails_iff {maxSize : Nat} {operations : List Operation}
    (small : rate.toNat * (maxTxs + 1) < 2 ^ 64)
    (own : ∀ operation ∈ operations, OneRate env rate operation) :
    (∃ place, (new maxSize).run .checked env operations = .error (.panic place)) ↔
      ∃ before operation after s, operations = before ++ operation :: after ∧
        (new maxSize).run .checked env before = .ok s ∧ s.pool.pooled.Nonempty ∧
          Empties s.pool operation := by
  have ends {before after : List Operation} {operation : Operation} {s : Rated}
      (split : operations = before ++ operation :: after)
      (reached : (new maxSize).run .checked env before = .ok s) :
      Ends rate s operation (s.step .checked env operation) := by
    obtain ⟨few, linked⟩ := run_reaches reached
    have even := run_even small (fun other member => own other (by simp [split, member])) reached
    exact step_ends even few linked small (own operation (by simp [split]))
  constructor
  · rintro ⟨place, failed⟩
    obtain ⟨before, operation, after, s, split, reached, last⟩ := foldlM_eq_error_iff.mp failed
    refine ⟨before, operation, after, s, split, reached, ?_⟩
    have ended := ends split reached
    rw [last] at ended
    cases ended with
    | fails start emptied => exact ⟨start, emptied⟩
  · rintro ⟨before, operation, after, s, split, reached, start, emptied⟩
    refine ⟨"attempt to divide by zero", foldlM_eq_error_iff.mpr
      ⟨before, operation, after, s, split, reached, ?_⟩⟩
    have ended := ends split reached
    generalize s.step .checked env operation = result at ended
    cases ended with
    | returns _ _ stays => exact absurd ⟨start, emptied⟩ stays
    | never stays => exact absurd emptied stays
    | fails => rfl

end Uniform

/-! Runs in which nothing is removed. -/

section Insertions

variable {env : Env} {bound : Nat}

abbrev Insertion := Choices × Db × Transaction

def Insertion.operation (i : Insertion) : Operation := .insert i.1 i.2.1 i.2.2

/-- After at most `count` insertions of so many bytes, with rates below the bound. -/
structure Growing (bound count bytes : Nat) (s : Rated) : Prop where
  average : s.avgFee.toNat ≤ bound
  entries : s.pool.pooled.card ≤ count
  size : s.pool.totalBytes.toNat ≤ bytes
  linked : Linked s.pool

private theorem store_bytes_le {m : Mempool} {choices : Choices} {txid : Hash}
    {entry : MempoolEntry} (before : m.totalBytes.toNat ≤ bytes) :
    (m.store choices txid entry).totalBytes.toNat ≤ bytes + entry.tx.size := by
  show (m.totalBytes + UInt64.ofNat entry.tx.size).toNat ≤ _
  rw [UInt64.toNat_add, UInt64.toNat_ofNat']
  exact (Nat.mod_le ..).trans (Nat.add_le_add before (Nat.mod_le ..))

private theorem insert_growing {count bytes : Nat} {s : Rated} {i : Insertion}
    (growing : Growing bound count bytes s) (few : count < maxTxs)
    (room : bytes + i.2.2.size ≤ s.pool.maxSize) (small : (count + 1) * bound < 2 ^ 64)
    (low : ∀ entry, s.pool.checkInsert env i.1 i.2.1 i.2.2 = .ok entry →
      entry.feePerByte.toNat ≤ bound) :
    ∃ s', s.step .checked env i.operation = .ok s' ∧ s'.pool.maxSize = s.pool.maxSize ∧
      Growing bound (count + 1) (bytes + i.2.2.size) s' := by
  obtain ⟨choices, db, tx⟩ := i
  have unchanged : Growing bound (count + 1) (bytes + tx.size) s :=
    ⟨growing.average, growing.entries.trans (Nat.le_succ _),
      growing.size.trans (Nat.le_add_right ..), growing.linked⟩
  show ∃ s', Prod.snd <$> s.insert .checked env choices db tx = .ok s' ∧ _
  unfold insert
  split
  case isTrue => exact ⟨s, rfl, rfl, unchanged⟩
  case isFalse absent =>
    have fresh : txHash env tx ∉ s.pool.pooled := mt Finmap.mem_keys.mp absent
    cases passed : s.pool.checkInsert env choices db tx with
    | error e => exact ⟨s, rfl, rfl, unchanged⟩
    | ok entry =>
        obtain ⟨walked, inputSum, admitted⟩ := checkInsert_eq_ok passed
        have linked := store_linked growing.linked fresh admitted
        have entries := growing.entries
        have card : (s.pool.store choices (txHash env tx) entry).txs.keys.card =
            s.pool.pooled.card + 1 := by
          rw [← Finset.card_insert_of_notMem fresh, ← pooled_store s.pool choices _ entry]
          rfl
        have length : (len (s.pool.store choices (txHash env tx) entry)).toNat =
            s.pool.pooled.card + 1 := by
          have limit : maxTxs < 2 ^ 64 := by decide
          rw [len, card, Checked.toNat_word (by omega)]
        have fits : bound * (s.pool.pooled.card + 1) < 2 ^ 64 := by
          refine Nat.lt_of_le_of_lt ?_ small
          rw [Nat.mul_comm]
          exact Nat.mul_le_mul_right _ (Nat.succ_le_succ entries)
        obtain ⟨average, update, mean⟩ := exists_averageIn growing.average (low entry passed)
          (length ▸ Nat.succ_pos _) (length ▸ fits)
        have size : (s.pool.store choices (txHash env tx) entry).totalBytes.toNat ≤
            bytes + tx.size := admitted.own ▸ store_bytes_le growing.size
        have within : ¬ ((s.pool.store choices (txHash env tx) entry).totalBytes.toNat >
              (s.pool.store choices (txHash env tx) entry).maxSize ∨
            (s.pool.store choices (txHash env tx) entry).txs.keys.card > maxTxs) := by
          have same : (s.pool.store choices (txHash env tx) entry).maxSize = s.pool.maxSize := rfl
          have room : bytes + tx.size ≤ s.pool.maxSize := room
          omega
        have clean := removeOrphanedTxs_linked .checked choices
          (s := ⟨s.pool.store choices (txHash env tx) entry, average⟩) linked
        simp only [update, evictLoop, if_neg within, clean, Bind.bind, Except.bind]
        exact ⟨_, rfl, rfl, mean, card.trans_le (Nat.succ_le_succ entries), size, linked⟩

private theorem run_growing {count bytes : Nat} {s : Rated} {insertions : List Insertion}
    (growing : Growing bound count bytes s) (few : count + insertions.length ≤ maxTxs)
    (room : bytes + (insertions.map fun i => i.2.2.size).sum ≤ s.pool.maxSize)
    (small : (count + insertions.length) * bound < 2 ^ 64)
    (low : ∀ i ∈ insertions, ∀ (m : Mempool) entry,
      m.checkInsert env i.1 i.2.1 i.2.2 = .ok entry → entry.feePerByte.toNat ≤ bound) :
    ∃ s', s.run .checked env (insertions.map Insertion.operation) = .ok s' ∧
      s'.avgFee.toNat ≤ bound := by
  induction insertions generalizing s count bytes with
  | nil => exact ⟨s, rfl, growing.average⟩
  | cons i insertions ih =>
      simp only [List.length_cons, List.map_cons, List.sum_cons] at few room small
      obtain ⟨own, others⟩ := List.forall_mem_cons.mp low
      have next : (count + 1) * bound < 2 ^ 64 :=
        (Nat.mul_le_mul_right _ (by omega)).trans_lt small
      obtain ⟨s', one, limit, grown⟩ :=
        insert_growing growing (by omega) (by omega) next (own s.pool)
      have order : count + (insertions.length + 1) = count + 1 + insertions.length := by omega
      obtain ⟨last, rest, mean⟩ :=
        ih grown (by omega) (by rw [limit]; omega) (order ▸ small) others
      refine ⟨last, ?_, mean⟩
      rw [List.map_cons, run, List.foldlM_cons, one]
      exact rest

end Insertions

/-- The updates of the average do not fail in a run of insertions that the pool has room for, within
a bound on the rates; in a run whose entries all have one rate they fail exactly where the run takes
out the last entry of the pool. -/
theorem average_updates_safe (env : Env) (maxSize : Nat) :
    (∀ (insertions : List Insertion) (bound : Nat), insertions.length ≤ maxTxs →
        (insertions.map fun i => i.2.2.size).sum ≤ maxSize →
        insertions.length * bound < 2 ^ 64 →
        (∀ i ∈ insertions, ∀ (m : Mempool) entry,
          m.checkInsert env i.1 i.2.1 i.2.2 = .ok entry → entry.feePerByte.toNat ≤ bound) →
        ∃ s, (new maxSize).run .checked env (insertions.map Insertion.operation) = .ok s ∧
          s.avgFee.toNat ≤ bound) ∧
      ∀ (operations : List Operation) (rate : UInt64), rate.toNat * (maxTxs + 1) < 2 ^ 64 →
        (∀ operation ∈ operations, OneRate env rate operation) →
        ((∃ place, (new maxSize).run .checked env operations = .error (.panic place)) ↔
          ∃ before operation after s, operations = before ++ operation :: after ∧
            (new maxSize).run .checked env before = .ok s ∧ s.pool.pooled.Nonempty ∧
              Empties s.pool operation) := by
  refine ⟨fun insertions bound few room small low => ?_, fun operations rate => run_fails_iff⟩
  have linked : Linked (Mempool.new maxSize) :=
    ⟨by simp [Mempool.new], by simp [Mempool.new], by simp [Mempool.new]⟩
  have start : Growing bound 0 0 (new maxSize) :=
    ⟨Nat.zero_le _, Nat.le_refl _, Nat.le_refl _, linked⟩
  exact run_growing start (by omega) (by rw [Nat.zero_add]; exact room) (by rwa [Nat.zero_add]) low

private theorem sampleSpend_rate (scriptSig : Bytes) {m : Mempool} {entry : MempoolEntry}
    (passed : m.checkInsert sampleEnv sampleChoices sampleCoinDb (sampleSpend scriptSig) =
      .ok entry) : entry.feePerByte.toNat ≤ 10000 := by
  obtain ⟨walked, inputSum, admitted⟩ := checkInsert_eq_ok passed
  have stored : get sampleCoinDb (coinFamily false) (coinKey false zeroHash 0) =
      some (txOutputCodec.encode sampleCoin) := by decide +kernel
  have read : txOutputCodec.read (txOutputCodec.encode sampleCoin) = some sampleCoin := by
    decide +kernel
  have inputs : m.gatherInputs sampleCoinDb false [⟨zeroHash, 0, scriptSig, maxU32⟩] 0 walked =
      .ok (inputSum, entry.dependsOn) := admitted.inputs
  have whole : checkedAdd 0 sampleCoin.value = some 10000 := by decide
  simp only [gatherInputs, stored, read, orFail, ok_bind, whole, Except.ok.injEq,
    Prod.mk.injEq] at inputs
  have paid := admitted.paid
  have limit : entry.fee.toNat ≤ 10000 := by
    rw [← inputs.1] at paid
    exact (Nat.le_add_left _ _).trans paid.le
  rw [admitted.rate, UInt64.toNat_div]
  exact (Nat.div_le_self _ _).trans limit

theorem sample_average_safe :
    ∃ s, (new 1000).run .checked sampleEnv [sampleInsert [], sampleInsert [1]] = .ok s ∧
      s.avgFee.toNat ≤ 10000 := by
  refine (average_updates_safe sampleEnv 1000).1 [(sampleChoices, sampleCoinDb, sampleSpend []),
    (sampleChoices, sampleCoinDb, sampleSpend [1])] 10000 (by decide) (by decide +kernel)
    (by decide) ?_
  intro i member m entry passed
  rcases List.mem_cons.mp member with rfl | last
  · exact sampleSpend_rate [] passed
  · obtain rfl := List.mem_singleton.mp last
    exact sampleSpend_rate [1] passed

/-- The sample spend is put in and taken out again; and the same after a spend without a fee, whose
rate of zero makes the average of the two an odd number too small. -/
theorem average_updates_fail :
    (new 1000).run .checked sampleEnv [sampleInsert [], .remove (txHash sampleEnv (sampleSpend []))]
    =
        .error (.panic "attempt to divide by zero") ∧
      (new 1000).run .checked sampleEnv
          [.insert sampleChoices sampleCoinDb { sampleSpend [] with outputs := [sampleCoin] },
            sampleInsert [], .remove (txHash sampleEnv (sampleSpend []))] =
        .error (.panic "attempt to subtract with overflow") := by
  have evaluated (operations : List Operation) (fault : Fault)
      (failed : ((new 1000).run .checked sampleEnv operations).map (fun _ => ()) = .error fault) :
      (new 1000).run .checked sampleEnv operations = .error fault := by
    generalize (new 1000).run .checked sampleEnv operations = result at failed ⊢
    cases result with
    | error e => exact congrArg Except.error (Except.error.inj failed)
    | ok s => exact absurd failed (by simp [Except.map])
  exact ⟨evaluated _ _ (by decide +kernel), evaluated _ _ (by decide +kernel)⟩

end Rated

end Lyrion
