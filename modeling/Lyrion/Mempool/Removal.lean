/- GID: Lyrion/Mempool/Removal
   digest: Removal takes out exactly what the removed id reaches over the lists of children. -/

import Lyrion.Library.Cascade
import Lyrion.Library.Runs
import Lyrion.Mempool

set_option autoImplicit false
set_option relaxedAutoImplicit false

namespace Lyrion.Mempool

open Library.ByteCodec Library.KeyValue Library.Cascade Library.Runs Data Utils Tx

def pooled (m : Mempool) : Finset Hash := m.txs.keys

theorem mem_pooled {m : Mempool} {txid : Hash} :
    txid ∈ m.pooled ↔ ∃ entry, m.txs.lookup txid = some entry :=
  Finmap.mem_keys.trans Finmap.mem_iff

theorem mem_pooled_of_lookup {m : Mempool} {txid : Hash} {entry : MempoolEntry}
    (found : m.txs.lookup txid = some entry) : txid ∈ m.pooled :=
  mem_pooled.mpr ⟨entry, found⟩

theorem notMem_pooled {m : Mempool} {txid : Hash} :
    txid ∉ m.pooled ↔ m.txs.lookup txid = none :=
  (not_congr Finmap.mem_keys).trans Finmap.lookup_eq_none.symm

/-- Some entries are gone, and a given table is as it was. -/
structure Shrunk {α : Type} (table : Mempool → α) (m m' : Mempool) : Prop where
  entries : ∀ txid entry, m'.txs.lookup txid = some entry → m.txs.lookup txid = some entry
  same : table m' = table m

namespace Shrunk

variable {α : Type} {table : Mempool → α} {m m' m'' : Mempool}

theorem refl (m : Mempool) : Shrunk table m m := ⟨fun _ _ found => found, rfl⟩

theorem trans (first : Shrunk table m m') (second : Shrunk table m' m'') : Shrunk table m m'' where
  entries txid entry found := first.entries txid entry (second.entries txid entry found)
  same := second.same.trans first.same

theorem subset (shrunk : Shrunk table m m') : m'.pooled ⊆ m.pooled := by
  intro txid member
  obtain ⟨entry, found⟩ := mem_pooled.mp member
  exact mem_pooled_of_lookup (shrunk.entries txid entry found)

end Shrunk

/-- What is left of a pool after some removals: entries and lists of children are as they were. -/
structure LeftOf (start m : Mempool) : Prop where
  entries : ∀ x ∈ m.pooled, m.txs.lookup x = start.txs.lookup x
  children : ∀ x ∈ m.pooled, m.children x = start.children x
  maxSize : m.maxSize = start.maxSize
  heap : m.heap = start.heap
  ttlHeap : m.ttlHeap = start.ttlHeap

namespace LeftOf

variable {start m m' : Mempool}

theorem refl (m : Mempool) : LeftOf m m :=
  ⟨fun _ _ => rfl, fun _ _ => rfl, rfl, rfl, rfl⟩

theorem lookup {txid : Hash} {entry : MempoolEntry} (left : LeftOf start m)
    (found : m.txs.lookup txid = some entry) : start.txs.lookup txid = some entry :=
  (left.entries txid (mem_pooled_of_lookup found)).symm.trans found

theorem shrunk {α : Type} {table : Mempool → α} (left : LeftOf start m)
    (same : table m = table start) : Shrunk table start m :=
  ⟨fun _ _ => left.lookup, same⟩

theorem subset (left : LeftOf start m) : m.pooled ⊆ start.pooled :=
  (left.shrunk left.heap).subset

theorem trans (first : LeftOf start m) (second : LeftOf m m') : LeftOf start m' where
  entries x member := (second.entries x member).trans (first.entries x (second.subset member))
  children x member := (second.children x member).trans (first.children x (second.subset member))
  maxSize := second.maxSize.trans first.maxSize
  heap := second.heap.trans first.heap
  ttlHeap := second.ttlHeap.trans first.ttlHeap

end LeftOf

@[simp] theorem pooled_detach (m : Mempool) (txid : Hash) (entry : MempoolEntry) :
    (m.detach txid entry).pooled = m.pooled.erase txid :=
  Finmap.keys_erase txid m.txs

theorem detach_leftOf (m : Mempool) (txid : Hash) (entry : MempoolEntry) :
    LeftOf m (m.detach txid entry) := by
  have other {x : Hash} (member : x ∈ (m.detach txid entry).pooled) : x ≠ txid := by
    rw [pooled_detach] at member
    exact Finset.ne_of_mem_erase member
  refine ⟨fun x member => ?_, fun x member => ?_, rfl, rfl, rfl⟩
  · exact Finmap.lookup_erase_ne (other member)
  · simp only [children, detach, Finmap.lookup_erase_ne (other member)]

private theorem unindex_leftOf (m : Mempool) (txid : Hash) (entry : MempoolEntry) :
    LeftOf m (m.unindex txid entry) :=
  ⟨fun _ _ => rfl, fun _ _ => rfl, rfl, rfl, rfl⟩

theorem removeWith_rel (start : Mempool) (fuel : Nat) (m : Mempool) (txid : Hash)
    (left : LeftOf start m) :
    Option.Rel (fun m' rest => m'.pooled = rest ∧ LeftOf start m') (removeWith fuel m txid)
      (cascade start.children fuel txid m.pooled) := by
  induction fuel generalizing m txid with
  | zero => exact .none
  | succ fuel ih =>
      rw [removeWith, cascade]
      cases found : m.txs.lookup txid with
      | none =>
          rw [if_neg (notMem_pooled.mpr found)]
          exact .some ⟨rfl, left⟩
      | some entry =>
          have here : txid ∈ m.pooled := mem_pooled_of_lookup found
          rw [if_pos here, ← left.children txid here]
          have loop := foldlM_rel
            (fun (s : Mempool) (rest : Finset Hash) child
              (related : s.pooled = rest ∧ LeftOf start s) => related.1 ▸ ih s child related.2)
            (m.children txid) ⟨pooled_detach m txid entry, left.trans (detach_leftOf m txid entry)⟩
          simp only
          generalize (m.children txid).foldlM (removeWith fuel) (m.detach txid entry) = a at loop ⊢
          generalize (m.children txid).foldlM (fun alive child =>
            cascade start.children fuel child alive) (m.pooled.erase txid) = b at loop ⊢
          cases loop with
          | none => exact .none
          | some related => exact .some ⟨related.1, related.2.trans (unindex_leftOf _ txid entry)⟩

private theorem removeWith_succ {fuel : Nat} {m m' : Mempool} {txid : Hash}
    (done : removeWith fuel m txid = some m') : removeWith (fuel + 1) m txid = some m' := by
  induction fuel generalizing m m' txid with
  | zero => exact absurd done (by simp [removeWith])
  | succ fuel ih =>
      rw [removeWith] at done ⊢
      cases found : m.txs.lookup txid with
      | none => simpa only [found] using done
      | some entry =>
          simp only [found] at done ⊢
          obtain ⟨left, loop, last⟩ := Option.bind_eq_some_iff.mp done
          have longer := foldlM_some_mono (fun s child t => ih) loop
          exact Option.bind_eq_some_iff.mpr ⟨left, longer, last⟩

private theorem removeWith_mono {fuel fuel' : Nat} (deeper : fuel ≤ fuel') {m m' : Mempool}
    {txid : Hash} (done : removeWith fuel m txid = some m') : removeWith fuel' m txid = some m' :=
    by
  induction deeper with
  | refl => exact done
  | step _ ih => exact removeWith_succ ih

private theorem exists_removeWith (m : Mempool) {start : Mempool} (left : LeftOf start m)
    {fuel : Nat} (enough : m.pooled.card < fuel) (txid : Hash) :
    ∃ m', removeWith fuel m txid = some m' ∧ LeftOf start m' ∧
      cascade start.children fuel txid m.pooled = some m'.pooled := by
  obtain ⟨rest, abstract, -⟩ :
      ∃ rest, cascade start.children fuel txid m.pooled = some rest ∧ rest ⊆ m.pooled :=
    exists_cascade txid enough
  have related := removeWith_rel start fuel m txid left
  rw [abstract] at related
  generalize removeWith fuel m txid = result at related
  cases related with
  | some both => exact ⟨_, rfl, both.2, by rw [both.1, abstract]⟩

theorem removeWith_eq_some {m : Mempool} {fuel : Nat} (enough : m.pooled.card < fuel)
    (txid : Hash) : removeWith fuel m txid = some (m.remove txid) := by
  obtain ⟨m', done, -⟩ := exists_removeWith m (.refl m) (Nat.lt_succ_self _) txid
  have result : m.remove txid = m' := by
    have unfolded : m.remove txid = (removeWith (m.pooled.card + 1) m txid).getD m := rfl
    rw [unfolded, done, Option.getD_some]
  rw [result]
  exact removeWith_mono enough done

theorem remove_leftOf (m : Mempool) (txid : Hash) : LeftOf m (m.remove txid) := by
  obtain ⟨m', done, left, -⟩ := exists_removeWith m (.refl m) (Nat.lt_succ_self _) txid
  rw [removeWith_eq_some (Nat.lt_succ_self _)] at done
  exact Option.some.inj done ▸ left

theorem removeAll_leftOf (m : Mempool) (txids : List Hash) : LeftOf m (m.removeAll txids) := by
  induction txids generalizing m with
  | nil => exact .refl m
  | cons txid txids ih => exact (remove_leftOf m txid).trans (ih _)

theorem mem_pooled_removeAll (m : Mempool) (txids : List Hash) (x : Hash) :
    x ∈ (m.removeAll txids).pooled ↔
      x ∈ m.pooled ∧ ∀ txid ∈ txids, ¬ Reaches m.children m.pooled txid x := by
  have loop (m' : Mempool) (left : LeftOf m m') :
      txids.foldlM (fun alive txid => cascade m.children (m.pooled.card + 1) txid alive) m'.pooled =
        some (m'.removeAll txids).pooled := by
    induction txids generalizing m' with
    | nil => rfl
    | cons txid txids ih =>
        have enough : m'.pooled.card < m.pooled.card + 1 :=
          Nat.lt_succ_of_le (Finset.card_le_card left.subset)
        obtain ⟨next, done, further, abstract⟩ := exists_removeWith m' left enough txid
        rw [removeWith_eq_some enough] at done
        obtain rfl := Option.some.inj done
        rw [List.foldlM_cons, abstract]
        exact ih _ further
  exact mem_foldlM mem_cascade (loop m (.refl m)) x

theorem mem_pooled_remove (m : Mempool) (txid x : Hash) :
    x ∈ (m.remove txid).pooled ↔ x ∈ m.pooled ∧ ¬ Reaches m.children m.pooled txid x := by
  have alone : m.remove txid = m.removeAll [txid] := rfl
  rw [alone, mem_pooled_removeAll]
  simp only [List.mem_singleton, forall_eq]

end Lyrion.Mempool
