/- GID: Lyrion/Mempool/Sequence
   digest: When the selected transactions come once each and after what they spend from. -/

import Lyrion.Mempool.Ancestry
import Lyrion.Mempool.Packages

set_option autoImplicit false
set_option relaxedAutoImplicit false

namespace Lyrion.Mempool

open Library.ByteCodec Library.KeyValue Library.Runs Data Utils Tx

variable {x p y : Hash}

variable {env : Env} {choices : Choices} {m : Mempool} {maxSize : Nat}

/-- A list of transactions that could stand in a block in this order. -/
structure ValidSequence (env : Env) (m : Mempool) (txs : List Transaction) : Prop where
  once : txs.Nodup
  ordered : ∀ before tx after, txs = before ++ tx :: after → ∀ vin ∈ tx.inputs,
    vin.txid ∈ m.pooled → ∃ parent ∈ before, txHash env parent = vin.txid

/-- The pooled transactions that an entry spends from. -/
def parentsOf (m : Mempool) (txid : Hash) : Finset Hash :=
  m.pooled.filter fun p => ∃ tx ∈ m.txOf txid, ∃ vin ∈ tx.inputs, vin.txid = p

/-- The packages of some entries have nothing in common, and what is in one spends only from earlier
ones, apart from the entry itself, which comes last. -/
structure Separate (m : Mempool) (taken : List Hash) : Prop where
  own : ∀ x ∈ taken, x ∉ m.dependencies x
  apart : taken.Pairwise fun x y => Disjoint (m.packageOf x) (m.packageOf y)
  ordered : ∀ before x after, taken = before ++ x :: after → ∀ y ∈ m.packageOf x,
    ∀ p ∈ m.parentsOf y, (∃ z ∈ before, p ∈ m.packageOf z) ∨ y = x ∧ p ∈ m.dependencies x

/-- Entries depend on what they spend from, and on nothing if they spend nothing pooled. -/
@[mk_iff]
structure Recorded (m : Mempool) : Prop where
  parents : ∀ x ∈ m.pooled, m.parentsOf x ⊆ m.dependencies x
  spends : ∀ x ∈ m.pooled, m.parentsOf x = ∅ → m.dependencies x = ∅

/-- The packages of some entries go one level up and have nothing in common. -/
@[mk_iff]
structure OneLevel (m : Mempool) (taken : List Hash) : Prop where
  shallow : ∀ x ∈ taken, ∀ p ∈ m.dependencies x, m.dependencies p = ∅
  apart : taken.Pairwise fun x y => Disjoint (m.packageOf x) (m.packageOf y)

instance (m : Mempool) : Decidable (Recorded m) := decidable_of_iff _ (recorded_iff m).symm

instance (m : Mempool) (taken : List Hash) : Decidable (OneLevel m taken) :=
  decidable_of_iff _ (oneLevel_iff m taken).symm

/-- Dependencies go one level up, no two entries share one, and the selection comes to an entry
before it comes to what the entry depends on. -/
structure Flat (m : Mempool) : Prop where
  shallow : ∀ x, ∀ p ∈ m.dependencies x, m.dependencies p = ∅
  unshared : ∀ x y, x ≠ y → Disjoint (m.dependencies x) (m.dependencies y)
  childFirst : ∀ x, ∀ p ∈ m.dependencies x, ¬ Precedes m p x

/-! Sequences of ids. -/

/-- Each id comes after what its transaction spends from, which may be in `earlier`. -/
def InOrder (m : Mempool) : List Hash → List Hash → Prop
  | _, [] => True
  | earlier, x :: rest => (∀ p ∈ m.parentsOf x, p ∈ earlier) ∧ InOrder m (earlier ++ [x]) rest

private theorem inOrder_append {earlier ids more : List Hash} :
    InOrder m earlier (ids ++ more) ↔ InOrder m earlier ids ∧ InOrder m (earlier ++ ids) more := by
  induction ids generalizing earlier with
  | nil => simp [InOrder]
  | cons x ids ih =>
      rw [List.cons_append, InOrder, InOrder, ih, List.append_assoc, List.singleton_append,
        and_assoc]

private theorem inOrder_iff {earlier ids : List Hash} :
    InOrder m earlier ids ↔ ∀ before x after, ids = before ++ x :: after → ∀ p ∈ m.parentsOf x,
      p ∈ earlier ++ before := by
  induction ids generalizing earlier with
  | nil => simp [InOrder]
  | cons x ids ih =>
      rw [InOrder, ih]
      constructor
      · rintro ⟨first, others⟩ before y after split p spends
        cases before with
        | nil =>
            obtain ⟨rfl, -⟩ := List.cons.inj split
            exact List.mem_append_left _ (first p spends)
        | cons z before =>
            obtain ⟨rfl, rest⟩ := List.cons.inj split
            simpa using others before y after rest p spends
      · intro all
        refine ⟨fun p spends => by simpa using all [] x ids rfl p spends, ?_⟩
        intro before y after split p spends
        simpa using all (x :: before) y after (by rw [split]; rfl) p spends

section Indexing

variable (indexed : Indexed env m)
include indexed

private theorem map_txHash_filterMap {ids : List Hash} (pooled : ∀ x ∈ ids, x ∈ m.pooled) :
    (ids.filterMap m.txOf).map (txHash env) = ids := by
  induction ids with
  | nil => rfl
  | cons x ids ih =>
      obtain ⟨here, others⟩ := List.forall_mem_cons.mp pooled
      obtain ⟨entry, found⟩ := mem_pooled.mp here
      rw [List.filterMap_cons, txOf_of_lookup found, List.map_cons, ih others,
        indexed.keyed x entry found]

private theorem lookup_of_mem {ids : List Hash} {tx : Transaction}
    (member : tx ∈ ids.filterMap m.txOf) :
    ∃ entry, m.txs.lookup (txHash env tx) = some entry ∧ entry.tx = tx := by
  obtain ⟨x, -, there⟩ := List.mem_filterMap.mp member
  obtain ⟨entry, found, rfl⟩ := Option.map_eq_some_iff.mp there
  exact ⟨entry, by rw [indexed.keyed x entry found]; exact found, rfl⟩

private theorem nodup_filterMap_iff {ids : List Hash} (pooled : ∀ x ∈ ids, x ∈ m.pooled) :
    (ids.filterMap m.txOf).Nodup ↔ ids.Nodup := by
  have hashes := map_txHash_filterMap indexed pooled
  constructor
  · intro once
    rw [← hashes]
    refine once.map_on fun tx member tx' member' same => ?_
    obtain ⟨entry, found, own⟩ := lookup_of_mem indexed member
    obtain ⟨entry', found', own'⟩ := lookup_of_mem indexed member'
    rw [same] at found
    rw [← own, ← own', Option.some.inj (found.symm.trans found')]
  · intro once
    rw [← hashes] at once
    exact once.of_map

private theorem validSequence_iff {ids : List Hash} (pooled : ∀ x ∈ ids, x ∈ m.pooled) :
    ValidSequence env m (ids.filterMap m.txOf) ↔ ids.Nodup ∧ InOrder m [] ids := by
  have hashes := map_txHash_filterMap indexed pooled
  constructor
  · intro valid
    refine ⟨(nodup_filterMap_iff indexed pooled).mp valid.once, inOrder_iff.mpr ?_⟩
    rintro before x after rfl p spends
    obtain ⟨here, tx, there, vin, member, rfl⟩ := Finset.mem_filter.mp spends
    have ordered := valid.ordered (before.filterMap m.txOf) tx (after.filterMap m.txOf) (by
      rw [List.filterMap_append, List.filterMap_cons, there]) vin member here
    obtain ⟨parent, listed, same⟩ := ordered
    have earlier := map_txHash_filterMap indexed fun y listed =>
      pooled y (List.mem_append_left _ listed)
    rw [List.nil_append, ← same, ← earlier]
    exact List.mem_map_of_mem listed
  · rintro ⟨once, ordered⟩
    refine ⟨(nodup_filterMap_iff indexed pooled).mpr once, ?_⟩
    intro before tx after split vin member here
    have listed : tx ∈ ids.filterMap m.txOf := by simp [split]
    obtain ⟨entry, found, rfl⟩ := lookup_of_mem indexed listed
    have parts : ids = before.map (txHash env) ++
        txHash env entry.tx :: after.map (txHash env) := by
      rw [← hashes, split, List.map_append, List.map_cons]
    have earlier := inOrder_iff.mp ordered _ _ _ parts vin.txid
      (Finset.mem_filter.mpr ⟨here, entry.tx, txOf_of_lookup found, vin, member, rfl⟩)
    exact List.mem_map.mp earlier

end Indexing

/-! Packages in a row. -/

private theorem Arranged.mem_block {order : List Hash} (arranged : Arranged choices m x order) :
    y ∈ order ++ [x] ↔ y ∈ m.packageOf x := by
  rw [List.mem_append, List.mem_singleton, arranged.all, packageOf, Finset.mem_union,
    Finset.mem_singleton, or_comm]

private theorem Arranged.nodup_block {order : List Hash} (arranged : Arranged choices m x order) :
    (order ++ [x]).Nodup ↔ x ∉ m.dependencies x := by
  rw [← arranged.all, List.nodup_append_comm, List.singleton_append, List.nodup_cons]
  exact and_iff_left arranged.once

section Building

variable {taken ids : List Hash}

private theorem Built.mem_iff (built : Built choices m taken ids) :
    y ∈ ids ↔ ∃ x ∈ taken, y ∈ m.packageOf x := by
  induction built with
  | nil => simp
  | snoc built arranged ih =>
      simp only [List.mem_append (t := _ ++ _), ih, arranged.mem_block]
      simp only [List.mem_append, List.mem_singleton, or_and_right, exists_or, exists_eq_left]

private theorem Built.nodup_iff (built : Built choices m taken ids) :
    ids.Nodup ↔ (∀ x ∈ taken, x ∉ m.dependencies x) ∧
      taken.Pairwise fun x y => Disjoint (m.packageOf x) (m.packageOf y) := by
  induction built with
  | nil => simp
  | @snoc taken ids order x built arranged ih =>
      have between : (∀ a ∈ ids, ∀ b ∈ order ++ [x], a ≠ b) ↔
          ∀ z ∈ taken, Disjoint (m.packageOf z) (m.packageOf x) := by
        simp only [built.mem_iff, arranged.mem_block, Finset.disjoint_left]
        constructor
        · intro apart z member y here there
          exact apart y ⟨z, member, here⟩ y there rfl
        · rintro apart y ⟨z, member, here⟩ _ there rfl
          exact apart z member here there
      rw [List.nodup_append, ih, arranged.nodup_block, between, List.pairwise_append]
      simp only [List.forall_mem_append, List.forall_mem_singleton, List.pairwise_singleton,
        true_and]
      tauto

private theorem Separate.init (separate : Separate m (taken ++ [x])) : Separate m taken where
  own y member := separate.own y (List.mem_append_left _ member)
  apart := (List.pairwise_append.mp separate.apart).1
  ordered before y after split :=
    separate.ordered before y (after ++ [x]) (by rw [split, List.append_assoc, List.cons_append])

private theorem Built.inOrder (built : Built choices m taken ids) (separate : Separate m taken) :
    InOrder m [] ids := by
  induction built with
  | nil => trivial
  | @snoc taken ids order x built arranged ih =>
      have others : Separate m taken := separate.init
      rw [inOrder_append, inOrder_append]
      refine ⟨ih others, inOrder_iff.mpr ?_, fun p spends => ?_, trivial⟩
      · intro before y after split p spends
        have needed : y ∈ m.dependencies x := (arranged.all y).mp (by simp [split])
        rcases separate.ordered taken x [] rfl y (Finset.mem_union_right _ needed) p spends with
          earlier | ⟨rfl, -⟩
        · exact List.mem_append_left _ (built.mem_iff.mpr earlier)
        · exact absurd needed (separate.own y (by simp))
      · rcases separate.ordered taken x [] rfl x
          (Finset.mem_union_left _ (Finset.mem_singleton_self x)) p spends with
          earlier | ⟨-, needed⟩
        · exact List.mem_append_left _ (built.mem_iff.mpr earlier)
        · exact List.mem_append_right _ ((arranged.all p).mpr needed)

private theorem Built.split {before after : List Hash}
    (built : Built choices m (before ++ x :: after) ids) :
    ∃ earlier order later, ids = earlier ++ (order ++ x :: later) ∧
      Built choices m before earlier ∧ Arranged choices m x order := by
  generalize parts : before ++ x :: after = taken at built
  induction built generalizing after with
  | nil => simp at parts
  | @snoc taken ids order y built arranged ih =>
      rcases List.eq_nil_or_concat after with rfl | ⟨after, last, rfl⟩
      · obtain ⟨rfl, same⟩ := List.append_inj' parts rfl
        obtain rfl := List.singleton_inj.mp same
        exact ⟨ids, order, [], rfl, built, arranged⟩
      · rw [List.concat_eq_append, ← List.cons_append, ← List.append_assoc] at parts
        obtain ⟨rfl, -⟩ := List.append_inj' parts rfl
        obtain ⟨earlier, order', later, rfl, first, arranged'⟩ := ih rfl
        exact ⟨earlier, order', later ++ (order ++ [y]), by simp, first, arranged'⟩

end Building

private theorem exists_choices_last (r : Hash) :
    ∃ choices : Choices, ∀ s, r ∈ s → (choices.enumerate s).getLast? = some r := by
  classical
  refine ⟨⟨none, fun _ => 0, fun s => (s.erase r).toList ++ if r ∈ s then [r] else [], ?_, ?_,
    id, fun _ => List.Perm.refl _, id, fun _ => List.Perm.refl _⟩, ?_⟩
  · intro s
    split
    case isTrue =>
      rw [List.nodup_append_comm, List.singleton_append, List.nodup_cons]
      exact ⟨by simp, Finset.nodup_toList _⟩
    case isFalse => rw [List.append_nil]; exact Finset.nodup_toList _
  · intro s h
    by_cases same : h = r
    · subst same
      by_cases member : h ∈ s <;> simp [member]
    · by_cases member : r ∈ s <;> simp [member, same]
  · intro s member
    simp [member]

private theorem ordered_of_valid {taken before after : List Hash}
    (valid : ∀ choices, ∃ ids, Built choices m taken ids ∧ ids.Nodup ∧ InOrder m [] ids)
    (parts : taken = before ++ x :: after) (inside : y ∈ m.packageOf x)
    (spends : p ∈ m.parentsOf y) :
    (∃ z ∈ before, p ∈ m.packageOf z) ∨ y = x ∧ p ∈ m.dependencies x := by
  -- what is spent from may be the last of its package in front of the entry
  obtain ⟨choices, last⟩ := exists_choices_last p
  obtain ⟨ids, built, once, ordered⟩ := valid choices
  rw [parts] at built
  obtain ⟨earlier, order, later, rfl, first, arranged⟩ := built.split
  have spent := inOrder_iff.mp ordered
  simp only [List.nil_append] at spent
  rcases Finset.mem_union.mp inside with same | needed
  · obtain rfl := Finset.mem_singleton.mp same
    rcases List.mem_append.mp (spent (earlier ++ order) y later (by simp) p spends) with
      before | inner
    · exact Or.inl (first.mem_iff.mp before)
    · exact Or.inr ⟨rfl, (arranged.all p).mp inner⟩
  · obtain ⟨left, right, rfl⟩ := List.append_of_mem ((arranged.all y).mpr needed)
    rcases List.mem_append.mp (spent (earlier ++ left) y (right ++ x :: later) (by simp) p
      spends) with before | inner
    · exact Or.inl (first.mem_iff.mp before)
    · have above : p ∈ m.dependencies x := (arranged.all p).mp (List.mem_append_left _ inner)
      have ending := arranged.last.trans (last _ above)
      rw [List.getLast?_append_of_ne_nil _ (List.cons_ne_nil y right)] at ending
      exact absurd rfl ((List.nodup_append.mp arranged.once).2.2 p inner p
        (List.mem_of_getLast? ending))

private theorem separate_iff_oneLevel (linked : Linked m) (recorded : Recorded m)
    {taken : List Hash} (pooled : ∀ x ∈ taken, x ∈ m.pooled) :
    Separate m taken ↔ OneLevel m taken := by
  constructor
  · intro separate
    refine ⟨fun x member p needed => ?_, separate.apart⟩
    by_contra dependent
    have pooledP := dependencies_pooled linked x needed
    obtain ⟨q, spends⟩ := Finset.nonempty_iff_ne_empty.mpr fun none =>
      dependent (recorded.spends p pooledP none)
    have above : q ∈ m.dependencies x :=
      dependencies_closed linked needed (recorded.parents p pooledP spends)
    obtain ⟨before, after, rfl⟩ := List.append_of_mem member
    rcases separate.ordered before x after rfl p (Finset.mem_union_right _ needed) q spends with
      ⟨z, first, inside⟩ | ⟨rfl, -⟩
    · have apart := (List.pairwise_append.mp separate.apart).2.2 z first x List.mem_cons_self
      exact Finset.disjoint_left.mp apart inside (Finset.mem_union_right _ above)
    · exact separate.own p member needed
  · intro level
    have alone {x p q : Hash} (member : x ∈ taken) (needed : p ∈ m.dependencies x) :
        q ∉ m.dependencies p := by
      rw [level.shallow x member p needed]
      exact Finset.notMem_empty q
    refine ⟨fun x member needed => alone member needed needed, level.apart, ?_⟩
    rintro before x after rfl y inside p spends
    have member : x ∈ before ++ x :: after := by simp
    rcases Finset.mem_union.mp inside with same | above
    · obtain rfl := Finset.mem_singleton.mp same
      exact Or.inr ⟨rfl, recorded.parents y (pooled y member) spends⟩
    · exact absurd (recorded.parents y (dependencies_pooled linked x above) spends)
        (alone member above)

/-! Pools of which everything is taken. -/

section Leading

private theorem Precedes.total (different : x ≠ y) : Precedes m x y ∨ Precedes m y x :=
    by
  have ids : u256FromBe x ≠ u256FromBe y := fun same => different (u256FromBe_injective same)
  simp only [Precedes, UInt64.lt_iff_toNat_lt, ← UInt64.toNat_inj]
  omega

private theorem mem_heads (indexed : Indexed env m) : x ∈ m.heads ↔ x ∈ m.pooled ∧ Leads m x := by
  rw [heads, List.mem_filter, (queued indexed).all, decide_eq_true_iff]

private theorem nodup_heads (indexed : Indexed env m) : m.heads.Nodup := by
  refine List.Nodup.filter _ ((queued indexed).inOrder.imp fun {x y} first same => ?_)
  exact Precedes.irrefl y (same ▸ first)

private theorem Queued.exists_leading (linked : Linked m) {ids done rest : List Hash}
    (order : Queued m ids) (split : ids = done ++ rest) (member : y ∈ done) :
    ∃ z ∈ done, Leads m z ∧ y ∈ m.packageOf z := by
  induction done using List.reverseRecOn generalizing rest y with
  | nil => exact absurd member List.not_mem_nil
  | append_singleton done x ih =>
      rw [List.append_assoc, List.singleton_append] at split
      have earlier {w : Hash} (listed : w ∈ done) :
          ∃ z ∈ done ++ [x], Leads m z ∧ w ∈ m.packageOf z := by
        obtain ⟨z, before, found⟩ := ih split listed
        exact ⟨z, List.mem_append_left _ before, found⟩
      rcases List.mem_append.mp member with before | last
      · exact earlier before
      · obtain rfl := List.mem_singleton.mp last
        by_cases leads : Leads m y
        · exact ⟨y, member, leads, Finset.mem_union_left _ (Finset.mem_singleton_self y)⟩
        · obtain ⟨w, listed, needed⟩ : ∃ w ∈ done, y ∈ m.dependencies w := by
            by_contra none
            exact leads ((order.leads_iff split).mpr fun w listed needed =>
              none ⟨w, listed, needed⟩)
          obtain ⟨z, before, first, inside⟩ := earlier listed
          refine ⟨z, before, first, Finset.mem_union_right _ ?_⟩
          rcases Finset.mem_union.mp inside with same | above
          · exact Finset.mem_singleton.mp same ▸ needed
          · exact dependencies_closed linked above needed

private theorem mem_pooled_of_needed (needed : p ∈ m.dependencies x) : x ∈ m.pooled :=
    by
  by_contra absent
  rw [notMem_pooled] at absent
  simp [dependencies, absent] at needed

private theorem Flat.oneLevel (indexed : Indexed env m) (flat : Flat m) : OneLevel m m.heads := by
  refine ⟨fun x _ => flat.shallow x, (nodup_heads indexed).imp_of_mem fun {x y} here there apart =>
    Finset.disjoint_left.mpr fun z left right => ?_⟩
  obtain ⟨pooledX, leadsX⟩ := (mem_heads indexed).mp here
  obtain ⟨pooledY, leadsY⟩ := (mem_heads indexed).mp there
  -- of two leading entries none depends on the other one: it would come first
  have unneeded {a b : Hash} (different : a ≠ b) (pooled : b ∈ m.pooled) (leads : Leads m a)
      (needed : a ∈ m.dependencies b) : False :=
    (Precedes.total different).elim (flat.childFirst b a needed) (leads b pooled needed)
  simp only [packageOf, Finset.mem_union, Finset.mem_singleton] at left right
  rcases left with rfl | left <;> rcases right with rfl | right
  · exact apart rfl
  · exact unneeded apart pooledY leadsX right
  · exact unneeded apart.symm pooledX leadsY left
  · exact Finset.disjoint_left.mp (flat.unshared x y apart) left right

private theorem flat_of_oneLevel (linked : Linked m) (indexed : Indexed env m)
    (level : OneLevel m m.heads) : Flat m := by
  -- what depends on something leads: otherwise it is in a package that goes two levels up
  have heading {x p : Hash} (needed : p ∈ m.dependencies x) : x ∈ m.heads := by
    have listed := ((queued indexed).all x).mpr (mem_pooled_of_needed needed)
    obtain ⟨z, member, leads, inside⟩ :=
      (queued indexed).exists_leading linked (List.append_nil _).symm listed
    have head : z ∈ m.heads := List.mem_filter.mpr ⟨member, decide_eq_true leads⟩
    rcases Finset.mem_union.mp inside with same | above
    · exact Finset.mem_singleton.mp same ▸ head
    · rw [level.shallow z head x above] at needed
      exact absurd needed (Finset.notMem_empty p)
  have symm : Std.Symm fun x y => Disjoint (m.packageOf x) (m.packageOf y) :=
    ⟨fun _ _ apart => apart.symm⟩
  have disjoint {x y : Hash} (here : x ∈ m.heads) (there : y ∈ m.heads) (different : x ≠ y) :
      Disjoint (m.packageOf x) (m.packageOf y) := level.apart.forall here there different
  refine ⟨fun x p needed => level.shallow x (heading needed) p needed, ?_, ?_⟩
  · intro x y different
    refine Finset.disjoint_left.mpr fun p left right => ?_
    exact Finset.disjoint_left.mp (disjoint (heading left) (heading right) different)
      (Finset.mem_union_right _ left) (Finset.mem_union_right _ right)
  · intro x p needed first
    have pooled : p ∈ m.pooled := dependencies_pooled linked x needed
    have leads : Leads m p := by
      intro y here above second
      have different : y ≠ x := by
        rintro rfl
        exact second.asymm first
      exact Finset.disjoint_left.mp (disjoint (heading above) (heading needed) different)
        (Finset.mem_union_right _ above) (Finset.mem_union_right _ needed)
    have different : p ≠ x := by
      rintro rfl
      exact Precedes.irrefl p first
    exact Finset.disjoint_left.mp
      (disjoint ((mem_heads indexed).mpr ⟨pooled, leads⟩) (heading needed) different)
      (Finset.mem_union_left _ (Finset.mem_singleton_self p)) (Finset.mem_union_right _ needed)

private theorem OneLevel.sublist {taken all : List Hash} (level : OneLevel m all)
    (part : taken.Sublist all) : OneLevel m taken :=
  ⟨fun x member => level.shallow x (part.subset member), level.apart.sublist part⟩

end Leading

/-- The sequence is valid, whatever the order in which the sets are gone through. -/
def AlwaysValid (env : Env) (m : Mempool) (maxSize : Nat) : Prop :=
  ∀ choices, ∃ txs, m.selectTxs choices maxSize = .ok txs ∧ ValidSequence env m txs

section Selecting

variable (linked : Linked m) (indexed : Indexed env m)
include linked indexed

private theorem Built.valid_iff {taken ids : List Hash} (pooled : ∀ x ∈ taken, x ∈ m.pooled)
    (built : Built choices m taken ids) :
    ValidSequence env m (ids.filterMap m.txOf) ↔ ids.Nodup ∧ InOrder m [] ids := by
  refine validSequence_iff indexed fun y member => ?_
  obtain ⟨x, listed, inside⟩ := built.mem_iff.mp member
  rcases Finset.mem_union.mp inside with same | above
  · exact Finset.mem_singleton.mp same ▸ pooled x listed
  · exact dependencies_pooled linked x above

private theorem alwaysValid_iff_separate (pooled : ∀ x ∈ m.fill maxSize m.heads, x ∈ m.pooled)
    (walkable : ∀ x ∈ m.heads, Walkable m x) :
    AlwaysValid env m maxSize ↔ Separate m (m.fill maxSize m.heads) := by
  have building (choices : Choices) := selectTxs_built choices maxSize linked indexed walkable
  constructor
  · intro valid
    have sequences (choices : Choices) : ∃ ids, Built choices m (m.fill maxSize m.heads) ids ∧
        ids.Nodup ∧ InOrder m [] ids := by
      obtain ⟨ids, built, done⟩ := building choices
      obtain ⟨txs, returned, sequence⟩ := valid choices
      obtain rfl := Except.ok.inj (returned.symm.trans done)
      exact ⟨ids, built, (built.valid_iff linked indexed pooled).mp sequence⟩
    obtain ⟨ids, built, once, -⟩ := sequences sampleChoices
    obtain ⟨own, apart⟩ := built.nodup_iff.mp once
    exact ⟨own, apart, fun before x after parts y inside p spends =>
      ordered_of_valid sequences parts inside spends⟩
  · intro separate choices
    obtain ⟨ids, built, done⟩ := building choices
    refine ⟨_, done, (built.valid_iff linked indexed pooled).mpr ⟨?_, built.inOrder separate⟩⟩
    exact built.nodup_iff.mpr ⟨separate.own, separate.apart⟩

end Selecting

private theorem alwaysValid_zero (env : Env) (m : Mempool) : AlwaysValid env m 0 := by
  intro choices
  refine ⟨[], ?_, List.nodup_nil, fun before tx after split => by simp at split⟩
  rw [selectTxs]
  cases sorted (· ≥ ·) m.feeIndex.keys <;> rfl

/-- A transaction that spends the first output of another one and pays with the sample coin. -/
def sampleSponsor (parent : Transaction) : Transaction :=
  { sampleOffspring parent with
    inputs := [⟨txHash sampleEnv parent, 0, [], maxU32⟩, ⟨zeroHash, 0, [], maxU32⟩] }

instance (m : Mempool) (txid : Hash) : Decidable (Walkable m txid) :=
  inferInstanceAs (Decidable (_ ≤ _))

end Lyrion.Mempool
