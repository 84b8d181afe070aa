/- GID: Lyrion/Mempool/Bookkeeping
   digest: The byte count, the fee index and the key images agree with the entries in every run. -/

import Lyrion.Mempool.Admission

set_option autoImplicit false
set_option relaxedAutoImplicit false

namespace Lyrion.Mempool

open Library.ByteCodec Library.KeyValue Library.Runs Data Utils Tx

variable {tx : Transaction} {db : Db} {walked : Finset Hash} {inputSum : UInt64}

variable {env : Env} {choices : Choices} {m m' : Mempool} {txid : Hash} {entry : MempoolEntry}
  {pending : Hash → UInt64 → Prop}

def filed (m : Mempool) (rate : UInt64) : Finset Hash := (m.feeIndex.lookup rate).getD ∅

def entrySize (entry : MempoolEntry) : Nat := entry.tx.size

/-- The tables agree with the entries, but for ids whose removal has not come to the fee index. -/
structure Books (pending : Hash → UInt64 → Prop) (m : Mempool) : Prop where
  bytes : m.totalBytes.toNat = total entrySize m.txs
  subtractions : ∀ s ∈ m.subtractions, s.2 ≤ s.1.toNat
  sizes : ∀ txid entry, m.txs.lookup txid = some entry → entry.tx.size ≤ maxTxSize
  rates : ∀ rate txid, txid ∈ m.filed rate ↔
    (∃ entry, m.txs.lookup txid = some entry ∧ entry.feePerByte = rate) ∨ pending txid rate
  removed : ∀ txid rate, pending txid rate → txid ∉ m.pooled
  images : ∀ image txid, m.keyImages.lookup image = some txid ↔
    ∃ entry, m.txs.lookup txid = some entry ∧ image ∈ keyImagesOf entry.tx

private theorem lookup_detach_txs (m : Mempool) (txid x : Hash) (entry : MempoolEntry) :
    (m.detach txid entry).txs.lookup x = if x = txid then none else m.txs.lookup x :=
  lookup_applyWrite m.txs (.delete txid) x

private theorem lookup_detach_images (m : Mempool) (txid : Hash) (entry : MempoolEntry)
    (image : Bytes) :
    (m.detach txid entry).keyImages.lookup image =
      if image ∈ keyImagesOf entry.tx then none else m.keyImages.lookup image :=
  lookup_applyWrites_map m.keyImages .delete (fun _ => rfl) (keyImagesOf entry.tx) image

private theorem toNat_size (sized : entry.tx.size ≤ maxTxSize) :
    (UInt64.ofNat entry.tx.size).toNat = entry.tx.size :=
  UInt64.toNat_ofNat_of_lt' (sized.trans_lt (by decide))

private theorem Books.enough (books : Books pending m) (found : m.txs.lookup txid = some entry) :
    total entrySize (m.txs.erase txid) + entry.tx.size = m.totalBytes.toNat := by
  rw [books.bytes, ← total_erase entrySize m.txs txid, valueAt, found]
  rfl

private theorem detach_images (books : Books pending m) (found : m.txs.lookup txid = some entry)
    (image : Bytes) (x : Hash) :
    (m.detach txid entry).keyImages.lookup image = some x ↔
      ∃ e, (m.detach txid entry).txs.lookup x = some e ∧ image ∈ keyImagesOf e.tx := by
  rw [lookup_detach_images, lookup_detach_txs]
  by_cases own : image ∈ keyImagesOf entry.tx
  · -- an image of the removed entry is the image of no other one
    have holder := (books.images image txid).mpr ⟨entry, found, own⟩
    rw [if_pos own]
    refine ⟨fun none => absurd none (by simp), ?_⟩
    rintro ⟨e, there, shared⟩
    split at there
    case isTrue => exact absurd there (by simp)
    case isFalse other =>
      have second := (books.images image x).mpr ⟨e, there, shared⟩
      exact absurd (Option.some.inj (second.symm.trans holder)) other
  · rw [if_neg own, books.images]
    by_cases same : x = txid
    · subst same
      rw [if_pos rfl, found]
      simp [own]
    · rw [if_neg same]

private theorem detach_books (books : Books pending m) (found : m.txs.lookup txid = some entry) :
    Books (fun t r => t = txid ∧ r = entry.feePerByte ∨ pending t r) (m.detach txid entry) := by
  have word := toNat_size (books.sizes txid entry found)
  have enough := books.enough found
  refine ⟨?_, ?_, ?_, ?_, ?_, detach_images books found⟩
  · show (m.totalBytes - UInt64.ofNat entry.tx.size).toNat = total entrySize (m.txs.erase txid)
    rw [UInt64.toNat_sub_of_le _ _ (UInt64.le_iff_toNat_le.mpr (by omega)), word]
    omega
  · intro s member
    rcases List.mem_cons.mp member with rfl | earlier
    · show entry.tx.size ≤ m.totalBytes.toNat
      omega
    · exact books.subtractions s earlier
  · intro x e there
    rw [lookup_detach_txs] at there
    split at there
    · exact absurd there (by simp)
    · exact books.sizes x e there
  · intro rate x
    have before : x ∈ (m.detach txid entry).filed rate ↔ x ∈ m.filed rate := Iff.rfl
    rw [before, books.rates, lookup_detach_txs]
    by_cases same : x = txid
    · subst same
      rw [if_pos rfl, found]
      simp [eq_comm]
    · simp [same]
  · rintro x rate (⟨rfl, -⟩ | waiting)
    · exact notMem_pooled.mpr (by rw [lookup_detach_txs, if_pos rfl])
    · exact fun member => books.removed x rate waiting ((detach_leftOf m txid entry).subset member)

private theorem unindex_books (fresh : ¬ pending txid entry.feePerByte)
    (books : Books (fun t r => t = txid ∧ r = entry.feePerByte ∨ pending t r) m) :
    Books pending (m.unindex txid entry) := by
  refine ⟨books.bytes, books.subtractions, books.sizes, ?_,
    fun t r waiting => books.removed t r (Or.inr waiting), books.images⟩
  intro rate x
  have gone : m.txs.lookup txid = none :=
    notMem_pooled.mp (books.removed txid entry.feePerByte (Or.inl ⟨rfl, rfl⟩))
  have erased : x ∈ (m.unindex txid entry).filed rate ↔
      x ∈ m.filed rate ∧ ¬ (x = txid ∧ rate = entry.feePerByte) := by
    show x ∈ ((modify m.feeIndex entry.feePerByte fun set => set.erase txid).lookup rate).getD ∅ ↔ _
    rw [lookup_modify, filed]
    by_cases own : rate = entry.feePerByte
    · rw [if_pos own]
      cases m.feeIndex.lookup rate with
      | none => simp
      | some set => simp [own, and_comm]
    · simp [own]
  have unchanged : (m.unindex txid entry).txs = m.txs := rfl
  rw [erased, books.rates, unchanged]
  by_cases own : x = txid ∧ rate = entry.feePerByte
  · obtain ⟨rfl, rfl⟩ := own
    simp [gone, fresh]
  · simp [own]

private theorem removeWith_books {fuel : Nat} (books : Books pending m)
    (done : removeWith fuel m txid = some m') : Books pending m' := by
  induction fuel generalizing m m' txid pending with
  | zero => exact absurd done (by simp [removeWith])
  | succ fuel ih =>
      rw [removeWith] at done
      cases found : m.txs.lookup txid with
      | none =>
          simp only [found] at done
          exact Option.some.inj done ▸ books
      | some entry =>
          simp only [found] at done
          obtain ⟨left, loop, last⟩ := Option.bind_eq_some_iff.mp done
          obtain rfl := Option.some.inj last
          have fresh : ¬ pending txid entry.feePerByte := fun waiting =>
            books.removed txid _ waiting (mem_pooled_of_lookup found)
          have middle := foldlM_some_invariant _ (detach_books books found)
            (fun _ child _ s s' _ _ held one => ih held one) loop
          exact unindex_books fresh middle

def Balanced (m : Mempool) : Prop := Books (fun _ _ => False) m

theorem hereditary_balanced : Hereditary Balanced where
  quiet _ _ _ _ _ books :=
    ⟨books.bytes, books.subtractions, books.sizes, books.rates, books.removed, books.images⟩
  removed _ txid books := removeWith_books books (removeWith_eq_some (Nat.lt_succ_self _) txid)

theorem lookup_store_txs (m : Mempool) (choices : Choices) (txid x : Hash) (entry : MempoolEntry) :
    (m.store choices txid entry).txs.lookup x =
      if x = txid then some entry else m.txs.lookup x :=
  lookup_applyWrite m.txs (.put txid entry) x

private theorem lookup_store_images (m : Mempool) (choices : Choices) (txid : Hash)
    (entry : MempoolEntry) (image : Bytes) :
    (m.store choices txid entry).keyImages.lookup image =
      if image ∈ keyImagesOf entry.tx then some txid else m.keyImages.lookup image :=
  lookup_applyWrites_map m.keyImages (fun image => .put image txid) (fun _ => rfl)
    (keyImagesOf entry.tx) image

private theorem mem_filed_store (m : Mempool) (choices : Choices) (txid x : Hash)
    (entry : MempoolEntry) (rate : UInt64) :
    x ∈ (m.store choices txid entry).filed rate ↔
      (x = txid ∧ rate = entry.feePerByte) ∨ x ∈ m.filed rate := by
  show x ∈ ((upsert m.feeIndex entry.feePerByte ∅ fun set => Insert.insert txid set).lookup
    rate).getD ∅ ↔ _
  rw [lookup_upsert, filed]
  by_cases own : rate = entry.feePerByte
  · subst own
    simp
  · simp [own]

private theorem Admitted.fresh_images (admitted : Admitted choices m db tx walked inputSum entry)
    {image : Bytes} (own : image ∈ keyImagesOf entry.tx) : m.keyImages.lookup image = none := by
  rw [admitted.own, keyImagesOf] at own
  split at own
  case isTrue anonymous =>
    obtain ⟨vin, listed, rfl⟩ := List.mem_map.mp own
    have member := (List.mem_filter.mp listed).1
    exact Finmap.lookup_eq_none.mpr (admitted.images anonymous vin member).2
  case isFalse => exact absurd own (by simp)

private theorem store_images (books : Balanced m) (fresh : txid ∉ m.pooled)
    (admitted : Admitted choices m db tx walked inputSum entry) (image : Bytes) (x : Hash) :
    (m.store choices txid entry).keyImages.lookup image = some x ↔
      ∃ e, (m.store choices txid entry).txs.lookup x = some e ∧ image ∈ keyImagesOf e.tx := by
  rw [lookup_store_images, lookup_store_txs]
  by_cases own : image ∈ keyImagesOf entry.tx
  · have unused := admitted.fresh_images own
    rw [if_pos own]
    by_cases same : x = txid
    · simp [same, own]
    · rw [if_neg same]
      have nobody : ¬ ∃ e, m.txs.lookup x = some e ∧ image ∈ keyImagesOf e.tx := by
        rw [← books.images, unused]
        simp
      simp [nobody, Ne.symm same]
  · rw [if_neg own, books.images]
    by_cases same : x = txid
    · subst same
      simp [notMem_pooled.mp fresh, own]
    · rw [if_neg same]

theorem store_books (books : Balanced m) (few : Few m) (fresh : txid ∉ m.pooled)
    (admitted : Admitted choices m db tx walked inputSum entry) :
    Balanced (m.store choices txid entry) := by
  have absent : m.txs.lookup txid = none := notMem_pooled.mp fresh
  have sized : entry.tx.size ≤ maxTxSize := admitted.own ▸ admitted.sized
  refine ⟨?_, books.subtractions, ?_, ?_, fun _ _ => False.elim, store_images books fresh admitted⟩
  · show (m.totalBytes + UInt64.ofNat entry.tx.size).toNat =
      total entrySize (m.txs.insert txid entry)
    have sum : total entrySize (m.txs.insert txid entry) =
        entry.tx.size + total entrySize m.txs := by
      have added := total_insert entrySize m.txs txid entry
      rwa [valueAt, absent, Option.map_none, Option.getD_none, Nat.add_zero] at added
    have all := total_le entrySize m.txs maxTxSize books.sizes
    have bound : m.txs.keys.card * maxTxSize ≤ maxTxs * maxTxSize := Nat.mul_le_mul_right _ few
    have limits : maxTxs * maxTxSize + maxTxSize < 2 ^ 64 := by decide
    rw [UInt64.toNat_add, toNat_size sized, books.bytes, sum, Nat.mod_eq_of_lt (by omega),
      Nat.add_comm]
  · intro x e there
    rw [lookup_store_txs] at there
    split at there
    · exact Option.some.inj there ▸ sized
    · exact books.sizes x e there
  · intro rate x
    rw [mem_filed_store, books.rates, lookup_store_txs]
    by_cases same : x = txid
    · subst same
      simp [absent, eq_comm]
    · simp [same]

theorem run_balanced {maxSize : Nat} {operations : List Operation}
    (done : (new maxSize).run env operations = some m) : Balanced m ∧ Few m := by
  refine run_invariant hereditary_balanced ?_ ?_ done
  · exact ⟨rfl, by simp [new], by simp [new], by simp [new, filed], fun _ _ => False.elim,
      by simp [new]⟩
  · intro s choices db tx entry books few fresh passed
    obtain ⟨walked, inputSum, admitted⟩ := checkInsert_eq_ok passed
    exact store_books books few fresh admitted

private theorem mem_keyImagesOf {image : Bytes} :
    image ∈ keyImagesOf tx ↔
      tx.isAnonymous = true ∧ ∃ vin ∈ tx.inputs, image.length = 32 ∧ image <+: vin.scriptSig := by
  unfold keyImagesOf
  split
  case isTrue anonymous =>
    simp only [List.mem_map, List.mem_filter, decide_eq_true_eq, anonymous, true_and]
    constructor
    · rintro ⟨vin, ⟨member, long⟩, rfl⟩
      exact ⟨vin, member, by simpa using long, List.take_prefix 32 vin.scriptSig⟩
    · rintro ⟨vin, member, sized, start⟩
      refine ⟨vin, ⟨member, sized ▸ start.length_le⟩, ?_⟩
      rw [← sized]
      exact (List.prefix_iff_eq_take.mp start).symm
  case isFalse open_ => simp [open_]

/-- The tables of every pool that operations can reach agree with its entries, and no subtraction
from the byte count has wrapped. -/
theorem reachable_tables_agree (env : Env) (maxSize : Nat) (operations : List Operation)
    (m : Mempool) (done : (new maxSize).run env operations = some m) :
    (m.totalBytes.toNat = total entrySize m.txs ∧ ∀ s ∈ m.subtractions, s.2 ≤ s.1.toNat) ∧
      (∀ rate txid, txid ∈ m.filed rate ↔
        ∃ entry, m.txs.lookup txid = some entry ∧ entry.feePerByte = rate) ∧
      (∀ image txid, m.keyImages.lookup image = some txid ↔
        ∃ entry, m.txs.lookup txid = some entry ∧ entry.tx.isAnonymous = true ∧
          ∃ vin ∈ entry.tx.inputs, image.length = 32 ∧ image <+: vin.scriptSig) ∧
      ∀ image t e t' e', m.txs.lookup t = some e → m.txs.lookup t' = some e' →
        image ∈ keyImagesOf e.tx → image ∈ keyImagesOf e'.tx → t = t' := by
  have books := (run_balanced done).1
  refine ⟨⟨books.bytes, books.subtractions⟩, ?_, ?_, ?_⟩
  · intro rate txid
    rw [books.rates, or_false]
  · intro image txid
    rw [books.images]
    simp only [mem_keyImagesOf]
  · intro image t e t' e' here there own own'
    have first := (books.images image t).mpr ⟨e, here, own⟩
    have second := (books.images image t').mpr ⟨e', there, own'⟩
    exact Option.some.inj (first.symm.trans second)

def sampleInsert (scriptSig : Bytes) : Operation :=
  .insert sampleChoices sampleCoinDb (sampleSpend scriptSig)

theorem sample_tables_agree :
    ∃ m, (new 1000).run sampleEnv [sampleInsert [], sampleInsert [1], sampleInsert [],
        .remove (txHash sampleEnv (sampleSpend []))] = some m ∧
      m.pooled.card = 1 ∧ m.subtractions.length = 1 ∧
      m.totalBytes.toNat = total entrySize m.txs ∧ ∀ s ∈ m.subtractions, s.2 ≤ s.1.toNat := by
  have evaluated : ((new 1000).run sampleEnv [sampleInsert [], sampleInsert [1], sampleInsert [],
      .remove (txHash sampleEnv (sampleSpend []))]).map
        (fun m => (m.pooled.card, m.subtractions.length)) = some (1, 1) := by decide +kernel
  obtain ⟨m, done, counts⟩ := Option.map_eq_some_iff.mp evaluated
  obtain ⟨entries, subtractions⟩ := Prod.mk.inj counts
  have tables := reachable_tables_agree sampleEnv 1000 _ m done
  exact ⟨m, done, entries, subtractions, tables.1⟩

end Lyrion.Mempool
