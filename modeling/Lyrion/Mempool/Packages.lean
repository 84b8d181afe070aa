/- GID: Lyrion/Mempool/Packages
   digest: The packages that a selection takes, where no walk for one is cut short. -/

import Lyrion.Mempool.Dependencies

set_option autoImplicit false
set_option relaxedAutoImplicit false

namespace Lyrion.Mempool

open Library.ByteCodec Library.KeyValue Data Utils Tx

variable {entry : MempoolEntry} {txid y : Hash}

variable {env : Env} {choices : Choices} {m : Mempool} {maxSize : Nat}

def txOf (m : Mempool) (txid : Hash) : Option Transaction :=
  (m.txs.lookup txid).map MempoolEntry.tx

def txSize (m : Mempool) (txid : Hash) : Nat := ((m.txOf txid).map Transaction.size).getD 0

def packageOf (m : Mempool) (txid : Hash) : Finset Hash := {txid} ∪ m.dependencies txid

def weight (m : Mempool) (txid : Hash) : Nat :=
  m.txSize txid + (m.dependencies txid).sum m.txSize

/-- The walk up from an entry, which puts the dependencies of each one that it meets on its stack,
ends within the depth limit. -/
def Walkable (m : Mempool) (txid : Hash) : Prop :=
  (m.dependencies txid).card + (m.dependencies txid).sum (fun p => (m.dependencies p).card) ≤
    maxPackageDepth

section Walk

theorem txOf_of_lookup (found : m.txs.lookup txid = some entry) : m.txOf txid = some entry.tx := by
  rw [txOf, found]
  rfl

private theorem txSize_of_lookup (found : m.txs.lookup txid = some entry) :
    m.txSize txid = entry.tx.size := by
  rw [txSize, txOf_of_lookup found]
  rfl

private theorem length_enumerate (choices : Choices) (s : Finset Hash) :
    (choices.enumerate s).length = s.card := by
  have same : (choices.enumerate s).toFinset = s := by
    ext p
    rw [List.mem_toFinset, choices.mem_enumerate]
  rw [← List.toFinset_card_of_nodup (choices.nodup_enumerate s), same]

theorem dependencies_closed (linked : Linked m) {x p : Hash} (needed : p ∈ m.dependencies x) :
    m.dependencies p ⊆ m.dependencies x := by
  cases found : m.txs.lookup x with
  | none => simp [dependencies, found] at needed
  | some entry =>
      rw [dependencies_of_lookup found] at needed ⊢
      obtain ⟨above, there⟩ := mem_pooled.mp (linked.pooled x entry found needed)
      rw [dependencies_of_lookup there]
      exact linked.closed x entry found p needed above there

theorem dependencies_pooled (linked : Linked m) (x : Hash) : m.dependencies x ⊆ m.pooled := by
  cases found : m.txs.lookup x with
  | none => simp [dependencies, found]
  | some entry =>
      rw [dependencies_of_lookup found]
      exact linked.pooled x entry found

/-- The stack of a walk holds what it has not met of some entries, and there are pops enough. -/
structure Pending (m : Mempool) (all visited : Finset Hash) (stack : List Hash) (fuel : Nat) :
    Prop where
  inside : ∀ p ∈ stack, p ∈ all
  cover : ∀ p ∈ all, p ∈ visited ∨ p ∈ stack
  enough : stack.length + (all \ visited).sum (fun p => (m.dependencies p).card) ≤ fuel

variable {all visited : Finset Hash} {parent : Hash} {stack order : List Hash} {fuel : Nat}
  {package result : Package}

private theorem Pending.nothing (pending : Pending m all visited [] fuel) (p : Hash) :
    p ∈ ([] : List Hash) ↔ p ∈ all ∧ p ∉ visited := by
  simpa using pending.cover p

private theorem Pending.skip (pending : Pending m all visited (parent :: stack) (fuel + 1))
    (met : parent ∈ visited) : Pending m all visited stack fuel := by
  obtain ⟨inside, cover, enough⟩ := pending
  rw [List.length_cons] at enough
  refine ⟨(List.forall_mem_cons.mp inside).2, fun p member => ?_, by omega⟩
  rcases cover p member with seen | listed
  · exact Or.inl seen
  · rcases List.mem_cons.mp listed with rfl | listed
    · exact Or.inl met
    · exact Or.inr listed

private theorem sum_unvisited (here : parent ∈ all) (fresh : parent ∉ visited) (f : Hash → Nat) :
    (all \ visited).sum f = f parent + (all \ ({parent} ∪ visited)).sum f := by
  have split : all \ visited = {parent} ∪ (all \ ({parent} ∪ visited)) := by
    ext p
    simp only [Finset.mem_sdiff, Finset.mem_union, Finset.mem_singleton, not_or]
    by_cases same : p = parent
    · simp [same, here, fresh]
    · simp [same]
  rw [split, Finset.sum_union (Finset.disjoint_singleton_left.mpr (by simp)),
    Finset.sum_singleton]

private theorem Pending.push (choices : Choices)
    (pending : Pending m all visited (parent :: stack) (fuel + 1))
    (closed : ∀ p ∈ all, m.dependencies p ⊆ all) (fresh : parent ∉ visited) :
    Pending m all ({parent} ∪ visited)
      ((choices.enumerate (m.dependencies parent)).reverse ++ stack) fuel := by
  obtain ⟨inside, cover, enough⟩ := pending
  obtain ⟨here, others⟩ := List.forall_mem_cons.mp inside
  refine ⟨fun p listed => ?_, fun p member => ?_, ?_⟩
  · rcases List.mem_append.mp listed with listed | listed
    · rw [List.mem_reverse, choices.mem_enumerate] at listed
      exact closed parent here listed
    · exact others p listed
  · rcases cover p member with seen | listed
    · exact Or.inl (Finset.mem_union_right _ seen)
    · rcases List.mem_cons.mp listed with rfl | listed
      · exact Or.inl (Finset.mem_union_left _ (Finset.mem_singleton_self p))
      · exact Or.inr (List.mem_append_right _ listed)
  · rw [sum_unvisited here fresh, List.length_cons] at enough
    rw [List.length_append, List.length_reverse, length_enumerate]
    omega

/-- A package to which a walk has added the entries of `order`, the one that it met first last. -/
structure Extended (m : Mempool) (order : List Hash) (package result : Package) : Prop where
  txs : result.txs = order.filterMap m.txOf ++ package.txs
  size : result.size = package.size + (order.map m.txSize).sum
  ids : result.toInclude = package.toInclude ++ order.reverse
  marks : ∀ y, y ∈ result.visitedPackages ↔ y ∈ order ∨ y ∈ package.visitedPackages

private theorem extended_nil : Extended m [] package package := by constructor <;> simp

private theorem Extended.snoc (found : m.txs.lookup parent = some entry)
    (extended : Extended m order ⟨entry.tx :: package.txs, package.size + entry.tx.size,
      package.toInclude ++ [parent], visited, {parent} ∪ package.visitedPackages⟩ result) :
    Extended m (order ++ [parent]) package result where
  txs := by simp [extended.txs, txOf_of_lookup found]
  size := by simp [extended.size, txSize_of_lookup found, Nat.add_left_comm, Nat.add_comm]
  ids := by simp [extended.ids]
  marks y := by simp [extended.marks, or_assoc]

variable (choices) in
private theorem collectPackage_whole (pooled : all ⊆ m.pooled)
    (closed : ∀ p ∈ all, m.dependencies p ⊆ all) (package : Package)
    (pending : Pending m all package.visited stack fuel) :
    ∃ order : List Hash, order.Nodup ∧ (∀ p, p ∈ order ↔ p ∈ all ∧ p ∉ package.visited) ∧
      (∀ p ∉ package.visited, stack.head? = some p → order.getLast? = some p) ∧
      Extended m order package (m.collectPackage choices fuel stack package) := by
  induction fuel generalizing stack package with
  | zero =>
      have bound := pending.enough
      obtain rfl : stack = [] := List.length_eq_zero_iff.mp (by omega)
      exact ⟨[], List.nodup_nil, pending.nothing, by simp, extended_nil⟩
  | succ fuel ih =>
      cases stack with
      | nil => exact ⟨[], List.nodup_nil, pending.nothing, by simp, extended_nil⟩
      | cons parent stack =>
          have here := pending.inside parent List.mem_cons_self
          rw [collectPackage]
          by_cases met : parent ∈ package.visited
          · rw [if_pos met]
            obtain ⟨order, once, members, -, extended⟩ := ih package (pending.skip met)
            refine ⟨order, once, members, fun p fresh head => ?_, extended⟩
            obtain rfl := Option.some.inj head
            exact absurd met fresh
          · rw [if_neg met]
            obtain ⟨entry, found⟩ := mem_pooled.mp (pooled here)
            have next := pending.push choices closed met
            rw [dependencies_of_lookup found] at next
            simp only [found]
            obtain ⟨order, once, members, -, extended⟩ := ih
              ⟨entry.tx :: package.txs, package.size + entry.tx.size,
                package.toInclude ++ [parent], {parent} ∪ package.visited,
                {parent} ∪ package.visitedPackages⟩ next
            refine ⟨order ++ [parent], ?_, fun p => ?_, fun p fresh head => ?_,
              extended.snoc found⟩
            · refine List.nodup_append.mpr ⟨once, List.nodup_singleton parent, ?_⟩
              rintro p listed y last rfl
              obtain rfl := List.mem_singleton.mp last
              simp [members] at listed
            · rw [List.mem_append, members, List.mem_singleton, Finset.mem_union,
                Finset.mem_singleton, not_or]
              by_cases same : p = parent
              · simp [same, here, met]
              · simp [same]
            · obtain rfl := Option.some.inj head
              exact List.getLast?_concat

/-- An order in which the walk up from an entry can put what the entry depends on. -/
structure Arranged (choices : Choices) (m : Mempool) (x : Hash) (order : List Hash) : Prop where
  once : order.Nodup
  all : ∀ p, p ∈ order ↔ p ∈ m.dependencies x
  last : order.getLast? = (choices.enumerate (m.dependencies x)).getLast?

/-- The package of an entry, and the ids that the walk for it has marked. -/
structure Whole (choices : Choices) (m : Mempool) (x : Hash) (marked : Finset Hash)
    (package : Package) (order : List Hash) : Prop where
  arranged : Arranged choices m x order
  txs : package.txs = (order ++ [x]).filterMap m.txOf
  size : package.size = m.weight x
  ids : ∀ y, y ∈ package.toInclude ↔ y ∈ m.packageOf x
  marks : ∀ y, y ∈ package.visitedPackages ↔ y ∈ m.dependencies x ∨ y ∈ marked

variable (choices) in
private theorem whole_of_walkable (linked : Linked m) {x : Hash}
    (found : m.txs.lookup x = some entry) (walkable : Walkable m x) (marked : Finset Hash) :
    ∃ order, Whole choices m x marked (m.collectPackage choices maxPackageDepth
      (choices.enumerate entry.dependsOn).reverse
      ⟨[entry.tx], entry.tx.size, [x], ∅, marked⟩) order := by
  have own : m.dependencies x = entry.dependsOn := dependencies_of_lookup found
  have listed (p : Hash) :
      p ∈ (choices.enumerate entry.dependsOn).reverse ↔ p ∈ m.dependencies x := by
    rw [List.mem_reverse, choices.mem_enumerate, own]
  have pending : Pending m (m.dependencies x) ∅ (choices.enumerate entry.dependsOn).reverse
      maxPackageDepth := by
    refine ⟨fun p => (listed p).mp, fun p needed => Or.inr ((listed p).mpr needed), ?_⟩
    rw [List.length_reverse, length_enumerate, ← own, Finset.sdiff_empty]
    exact walkable
  obtain ⟨order, once, members, last, txs, size, ids, marks⟩ := collectPackage_whole choices
    (dependencies_pooled linked x) (fun p needed => dependencies_closed linked needed)
    ⟨[entry.tx], entry.tx.size, [x], ∅, marked⟩ pending
  have all (p : Hash) : p ∈ order ↔ p ∈ m.dependencies x := by simpa using members p
  refine ⟨order, ⟨once, all, ?_⟩, ?_, ?_, ?_, ?_⟩
  · rw [own]
    cases first : (choices.enumerate entry.dependsOn).getLast? with
    | some p => exact last p (Finset.notMem_empty p) (by rw [List.head?_reverse, first])
    | none =>
        have nothing : choices.enumerate entry.dependsOn = [] := List.getLast?_eq_none_iff.mp first
        refine List.getLast?_eq_none_iff.mpr (List.eq_nil_iff_forall_not_mem.mpr fun p member => ?_)
        have there := (listed p).mpr ((all p).mp member)
        simp [nothing] at there
  · rw [txs, List.filterMap_append]
    simp [txOf_of_lookup found]
  · have same : order.toFinset = m.dependencies x := by
      ext p
      rw [List.mem_toFinset, all]
    rw [size, weight, txSize_of_lookup found, ← same, List.sum_toFinset _ once]
  · intro y
    rw [ids, packageOf, Finset.mem_union, Finset.mem_singleton, List.mem_append,
      List.mem_singleton, List.mem_reverse, all]
  · intro y
    rw [marks, all]

end Walk

/-! The order of the selection. -/

def rateOf (m : Mempool) (txid : Hash) : UInt64 :=
  ((m.txs.lookup txid).map MempoolEntry.feePerByte).getD 0

/-- The selection comes to an entry before another one: its rate is higher, or its id smaller. -/
def Precedes (m : Mempool) (x y : Hash) : Prop :=
  m.rateOf y < m.rateOf x ∨ m.rateOf x = m.rateOf y ∧ u256FromBe x < u256FromBe y

instance (m : Mempool) : DecidableRel (Precedes m) := fun _ _ =>
  inferInstanceAs (Decidable (_ ∨ _))

def Leads (m : Mempool) (x : Hash) : Prop :=
  ∀ y ∈ m.pooled, x ∈ m.dependencies y → ¬ Precedes m y x

instance (m : Mempool) : DecidablePred (Leads m) := fun _ =>
  inferInstanceAs (Decidable (∀ y ∈ m.pooled, _))

instance rateOrderTrans : IsTrans UInt64 (· ≥ ·) := inferInstance

instance rateOrderAntisymm : Std.Antisymm (α := UInt64) (· ≥ ·) := inferInstance

instance rateOrderTotal : Std.Total (α := UInt64) (· ≥ ·) := inferInstance

def queue (m : Mempool) (rates : List UInt64) : List Hash :=
  rates.flatMap fun rate => sorted hashLe (m.filed rate)

def heads (m : Mempool) : List Hash :=
  (m.queue (sorted (· ≥ ·) m.feeIndex.keys)).filter (Leads m)

/-- One after the other, those whose packages fit into the room that is left. -/
def fill (m : Mempool) : Nat → List Hash → List Hash
  | _, [] => []
  | room, x :: xs =>
      if m.weight x ≤ room ∧ m.weight x ≤ maxPackageSize then x :: m.fill (room - m.weight x) xs
      else m.fill room xs

/-- Entries are under their own ids and rates. -/
structure Indexed (env : Env) (m : Mempool) : Prop where
  keyed : ∀ txid entry, m.txs.lookup txid = some entry → txHash env entry.tx = txid
  filed : ∀ rate txid, txid ∈ m.filed rate ↔
    ∃ entry, m.txs.lookup txid = some entry ∧ entry.feePerByte = rate

section Order

theorem rateOf_of_lookup (found : m.txs.lookup txid = some entry) :
    m.rateOf txid = entry.feePerByte := by
  rw [rateOf, found]
  rfl

theorem Precedes.asymm {x : Hash} (first : Precedes m x y) : ¬ Precedes m y x := by
  simp only [Precedes, UInt64.lt_iff_toNat_lt, ← UInt64.toNat_inj] at first ⊢
  omega

theorem Precedes.irrefl (x : Hash) : ¬ Precedes m x x := fun self => self.asymm self

private theorem mem_filed (indexed : Indexed env m) {rate : UInt64} {x : Hash} :
    x ∈ m.filed rate ↔ x ∈ m.pooled ∧ m.rateOf x = rate := by
  rw [indexed.filed, mem_pooled]
  constructor
  · rintro ⟨entry, found, same⟩
    exact ⟨⟨entry, found⟩, (rateOf_of_lookup found).trans same⟩
  · rintro ⟨⟨entry, found⟩, same⟩
    exact ⟨entry, found, (rateOf_of_lookup found).symm.trans same⟩

private theorem queue_pairwise (indexed : Indexed env m) {rates : List UInt64}
    (falling : rates.Pairwise (· > ·)) : (m.queue rates).Pairwise (Precedes m) := by
  rw [queue, List.pairwise_flatMap]
  constructor
  · intro rate _
    have distinct := nodup_sorted hashLe (m.filed rate)
    refine ((pairwise_sorted hashLe (m.filed rate)).and distinct).imp_of_mem ?_
    rintro x y here there ⟨le, different⟩
    obtain ⟨-, rateX⟩ := (mem_filed indexed).mp ((mem_sorted hashLe).mp here)
    obtain ⟨-, rateY⟩ := (mem_filed indexed).mp ((mem_sorted hashLe).mp there)
    refine Or.inr ⟨rateX.trans rateY.symm, Nat.lt_of_le_of_ne le fun same => different ?_⟩
    exact u256FromBe_injective same
  · refine falling.imp fun {high low} above x here y there => ?_
    obtain ⟨-, rateX⟩ := (mem_filed indexed).mp ((mem_sorted hashLe).mp here)
    obtain ⟨-, rateY⟩ := (mem_filed indexed).mp ((mem_sorted hashLe).mp there)
    rw [Precedes, rateX, rateY]
    exact Or.inl above

structure Queued (m : Mempool) (ids : List Hash) : Prop where
  inOrder : ids.Pairwise (Precedes m)
  all : ∀ x, x ∈ ids ↔ x ∈ m.pooled

theorem queued (indexed : Indexed env m) :
    Queued m (m.queue (sorted (· ≥ ·) m.feeIndex.keys)) := by
  refine ⟨queue_pairwise indexed ?_, fun x => ?_⟩
  · refine ((pairwise_sorted (· ≥ ·) m.feeIndex.keys).and (nodup_sorted (· ≥ ·) _)).imp ?_
    rintro high low ⟨above, different⟩
    exact UInt64.lt_of_le_of_ne above different.symm
  · simp only [queue, List.mem_flatMap, mem_sorted, mem_filed indexed]
    constructor
    · rintro ⟨rate, -, here, -⟩
      exact here
    · intro here
      refine ⟨m.rateOf x, ?_, here, rfl⟩
      have listed : x ∈ m.filed (m.rateOf x) := (mem_filed indexed).mpr ⟨here, rfl⟩
      by_contra absent
      rw [Finmap.mem_keys, ← Finmap.lookup_eq_none] at absent
      simp [filed, absent] at listed

section Turns

variable {ids done rest : List Hash} {x : Hash}
variable (order : Queued m ids) (split : ids = done ++ x :: rest)
include order split

private theorem Queued.pooled : x ∈ m.pooled := by
  refine (order.all x).mp ?_
  rw [split]
  exact List.mem_append_right _ List.mem_cons_self

private theorem Queued.earlier (member : y ∈ done) : Precedes m y x := by
  have pairs := order.inOrder
  rw [split] at pairs
  exact (List.pairwise_append.mp pairs).2.2 y member x List.mem_cons_self

private theorem Queued.fresh : x ∉ done := fun member => Precedes.irrefl x
    (order.earlier split member)

theorem Queued.leads_iff : Leads m x ↔ ∀ y ∈ done, x ∉ m.dependencies y := by
  constructor
  · intro leads y member needed
    have here : y ∈ m.pooled := (order.all y).mp (by
      rw [split]
      exact List.mem_append_left _ member)
    exact leads y here needed (order.earlier split member)
  · intro none y here needed first
    have listed := (order.all y).mpr here
    have pairs := order.inOrder
    rw [split] at listed pairs
    rcases List.mem_append.mp listed with before | later
    · exact none y before needed
    · rcases List.mem_cons.mp later with rfl | later
      · exact Precedes.irrefl y first
      · have second := (List.pairwise_cons.mp (List.pairwise_append.mp pairs).2.1).1 y later
        exact second.asymm first

end Turns

end Order

private theorem weight_pos {x : Hash} (here : x ∈ m.pooled) : 0 < m.weight x := by
  obtain ⟨entry, found⟩ := mem_pooled.mp here
  have positive := size_pos entry.tx
  rw [weight, txSize_of_lookup found]
  omega

private theorem fill_append (room : Nat) (xs ys : List Hash) :
    m.fill room (xs ++ ys) =
      m.fill room xs ++ m.fill (room - ((m.fill room xs).map m.weight).sum) ys := by
  induction xs generalizing room with
  | nil => simp [fill]
  | cons x xs ih =>
      rw [List.cons_append, fill, fill]
      split
      case isTrue =>
        rw [ih, List.cons_append, List.map_cons, List.sum_cons, Nat.sub_sub]
      case isFalse => exact ih room

theorem fill_zero {xs : List Hash} (pooled : ∀ x ∈ xs, x ∈ m.pooled) : m.fill 0 xs = [] := by
  induction xs with
  | nil => rfl
  | cons x xs ih =>
      obtain ⟨here, others⟩ := List.forall_mem_cons.mp pooled
      have positive := weight_pos here
      rw [fill, if_neg (by omega)]
      exact ih others

theorem fill_sublist (room : Nat) (xs : List Hash) : (m.fill room xs).Sublist xs := by
  induction xs generalizing room with
  | nil => exact List.Sublist.slnil
  | cons x xs ih =>
      rw [fill]
      split
      case isTrue => exact (ih _).cons_cons x
      case isFalse => exact (ih room).cons x

theorem fill_eq_self {room : Nat} {xs : List Hash} (roomy : (xs.map m.weight).sum ≤ room)
    (small : ∀ x ∈ xs, m.weight x ≤ maxPackageSize) : m.fill room xs = xs := by
  induction xs generalizing room with
  | nil => rfl
  | cons x xs ih =>
      obtain ⟨first, others⟩ := List.forall_mem_cons.mp small
      rw [List.map_cons, List.sum_cons] at roomy
      rw [fill, if_pos ⟨by omega, first⟩, ih (by omega) others]

/-! The loops. -/

inductive Built (choices : Choices) (m : Mempool) : List Hash → List Hash → Prop
  | nil : Built choices m [] []
  | snoc {taken ids order : List Hash} {x : Hash} (built : Built choices m taken ids)
      (arranged : Arranged choices m x order) :
      Built choices m (taken ++ [x]) (ids ++ (order ++ [x]))

/-- The selection after some ids of the queue, with the packages that it has taken. -/
structure Stands (choices : Choices) (m : Mempool) (maxSize : Nat) (done taken : List Hash)
    (s : Selection) : Prop where
  size : s.size = (taken.map m.weight).sum
  room : s.size ≤ maxSize
  old : taken ⊆ done
  seen : ∀ y, (y ∈ s.included ∨ y ∈ s.visitedPackages) ↔
    y ∈ taken ∨ ∃ z ∈ done, y ∈ m.dependencies z
  built : ∃ ids, Built choices m taken ids ∧ s.selected = ids.filterMap m.txOf

section Loops

variable {ids done taken rest : List Hash} {s : Selection} {x : Hash}

private theorem Stands.passed (linked : Linked m) (stands : Stands choices m maxSize done taken s)
    (member : y ∈ done) (needed : x ∈ m.dependencies y) :
    Stands choices m maxSize (done ++ [x]) taken s := by
  refine ⟨stands.size, stands.room, List.subset_append_of_subset_left _ stands.old, ?_,
    stands.built⟩
  intro z
  rw [stands.seen]
  refine or_congr_right ⟨?_, ?_⟩
  · rintro ⟨w, earlier, above⟩
    exact ⟨w, List.mem_append_left _ earlier, above⟩
  · rintro ⟨w, listed, above⟩
    rcases List.mem_append.mp listed with earlier | last
    · exact ⟨w, earlier, above⟩
    · obtain rfl := List.mem_singleton.mp last
      exact ⟨y, member, dependencies_closed linked needed above⟩

section Packages

variable {package : Package} {walk : List Hash}

private theorem Whole.seen (whole : Whole choices m x s.visitedPackages package walk)
    (stands : Stands choices m maxSize done taken s) (y : Hash) :
    (y ∈ s.included ∨ y ∈ package.visitedPackages) ↔
      y ∈ taken ∨ ∃ z ∈ done ++ [x], y ∈ m.dependencies z := by
  have before := stands.seen y
  have last : (∃ z ∈ done ++ [x], y ∈ m.dependencies z) ↔
      (∃ z ∈ done, y ∈ m.dependencies z) ∨ y ∈ m.dependencies x := by
    simp only [List.mem_append, List.mem_singleton, or_and_right, exists_or, exists_eq_left]
  rw [whole.marks, last, or_left_comm, before, or_comm, or_assoc]

private theorem Stands.skipped (stands : Stands choices m maxSize done taken s)
    (whole : Whole choices m x s.visitedPackages package walk) :
    Stands choices m maxSize (done ++ [x]) taken
      { s with visitedPackages := package.visitedPackages } :=
  ⟨stands.size, stands.room, List.subset_append_of_subset_left _ stands.old, whole.seen stands,
    stands.built⟩

private theorem Stands.accepted (stands : Stands choices m maxSize done taken s)
    (whole : Whole choices m x s.visitedPackages package walk)
    (fits : m.weight x ≤ maxSize - s.size) :
    Stands choices m maxSize (done ++ [x]) (taken ++ [x])
      { s with
        visitedPackages := package.visitedPackages
        selected := s.selected ++ package.txs
        size := s.size + m.weight x
        included := s.included ∪ package.toInclude.toFinset } := by
  have room := stands.room
  refine ⟨?_, ?_, ?_, fun y => ?_, ?_⟩
  · simp [stands.size]
  · show s.size + m.weight x ≤ maxSize
    omega
  · exact List.append_subset.mpr ⟨List.subset_append_of_subset_left _ stands.old,
      List.subset_append_right _ _⟩
  · have seen := whole.seen stands y
    have own : y ∈ m.packageOf x → y = x ∨ y ∈ package.visitedPackages := by
      rw [whole.marks, packageOf, Finset.mem_union, Finset.mem_singleton]
      tauto
    have self : y = x → y ∈ m.packageOf x := by
      rintro rfl
      exact Finset.mem_union_left _ (Finset.mem_singleton_self y)
    generalize (∃ z ∈ done ++ [x], y ∈ m.dependencies z) = needed at seen ⊢
    simp only [Finset.mem_union, List.mem_toFinset, whole.ids, List.mem_append, List.mem_singleton]
    tauto
  · obtain ⟨ids, built, same⟩ := stands.built
    refine ⟨ids ++ (walk ++ [x]), built.snoc whole.arranged, ?_⟩
    show s.selected ++ package.txs = _
    rw [same, whole.txs, ← List.filterMap_append]

end Packages

variable (order : Queued m ids) (split : ids = done ++ x :: rest)
include order split

private theorem Stands.seen_iff (stands : Stands choices m maxSize done taken s) :
    (x ∈ s.included ∨ x ∈ s.visitedPackages) ↔ ¬ Leads m x := by
  have new : x ∉ taken := fun member => order.fresh split (stands.old member)
  rw [stands.seen, order.leads_iff split]
  simp [new]

private theorem selectFrom_stands (linked : Linked m) (walkable : Leads m x → Walkable m x)
    (stands : Stands choices m maxSize done taken s) :
    ∃ s', m.selectFrom choices maxSize s x = .ok s' ∧
      Stands choices m maxSize (done ++ [x])
        (taken ++ m.fill (maxSize - s.size) ([x].filter (Leads m))) s' := by
  unfold selectFrom
  by_cases leads : Leads m x
  · rw [if_neg (mt (stands.seen_iff order split).mp (not_not.mpr leads)),
      List.filter_singleton, decide_eq_true leads]
    obtain ⟨entry, found⟩ := mem_pooled.mp (order.pooled split)
    simp only [found, Nat.not_lt.mpr stands.room, if_false, cond_true]
    obtain ⟨walk, whole⟩ := whole_of_walkable choices linked found (walkable leads)
      s.visitedPackages
    simp only [fill, whole.size]
    split
    case isTrue fits => exact ⟨_, rfl, stands.accepted whole fits.1⟩
    case isFalse => exact ⟨_, rfl, by simpa using stands.skipped whole⟩
  · obtain ⟨y, member, needed⟩ : ∃ y ∈ done, x ∈ m.dependencies y := by
      by_contra none
      exact leads ((order.leads_iff split).mpr fun y member needed => none ⟨y, member, needed⟩)
    refine ⟨s, if_pos ((stands.seen_iff order split).mpr leads), ?_⟩
    rw [List.filter_singleton, decide_eq_false leads]
    simpa [fill] using stands.passed linked member needed

omit split

private theorem foldlM_selectFrom_stands (linked : Linked m)
    (walkable : ∀ x ∈ ids, Leads m x → Walkable m x) {some rest : List Hash}
    (split : ids = done ++ (some ++ rest)) (stands : Stands choices m maxSize done taken s) :
    ∃ s', some.foldlM (m.selectFrom choices maxSize) s = .ok s' ∧
      Stands choices m maxSize (done ++ some)
        (taken ++ m.fill (maxSize - s.size) (some.filter (Leads m))) s' := by
  induction some generalizing done taken s with
  | nil => exact ⟨s, rfl, by simpa [fill] using stands⟩
  | cons x some ih =>
      have member : x ∈ ids := by simp [split]
      obtain ⟨next, one, stood⟩ := selectFrom_stands order split linked (walkable x member) stands
      have split' : ids = (done ++ [x]) ++ (some ++ rest) := by simp [split]
      obtain ⟨s', others, stood'⟩ := ih split' stood
      refine ⟨s', by rw [List.foldlM_cons, one]; exact others, ?_⟩
      have whole : (x :: some).filter (Leads m) =
          [x].filter (Leads m) ++ some.filter (Leads m) := by
        rw [← List.filter_append, List.singleton_append]
      have left : maxSize - next.size = maxSize - s.size -
          ((m.fill (maxSize - s.size) ([x].filter (Leads m))).map m.weight).sum := by
        rw [stood.size, stands.size, List.map_append, List.sum_append, Nat.sub_sub]
      rw [whole, fill_append, ← left, ← List.append_assoc, List.append_cons]
      exact stood'

private theorem selectRates_stands (linked : Linked m)
    (walkable : ∀ x ∈ ids, Leads m x → Walkable m x) {rates : List UInt64}
    (split : ids = done ++ m.queue rates) (stands : Stands choices m maxSize done taken s) :
    ∃ s', m.selectRates choices maxSize rates s = .ok s' ∧ ∃ done', Stands choices m maxSize done'
      (taken ++ m.fill (maxSize - s.size) ((m.queue rates).filter (Leads m))) s' := by
  induction rates generalizing done taken s with
  | nil => exact ⟨s, rfl, done, by simpa [queue, fill] using stands⟩
  | cons rate rates ih =>
      have head : m.queue (rate :: rates) = sorted hashLe (m.filed rate) ++ m.queue rates := rfl
      rw [selectRates]
      split
      case isTrue full =>
        have pooled : ∀ x ∈ (m.queue (rate :: rates)).filter (Leads m), x ∈ m.pooled := by
          intro x member
          refine (order.all x).mp ?_
          rw [split]
          exact List.mem_append_right _ (List.mem_filter.mp member).1
        refine ⟨s, rfl, done, ?_⟩
        rw [Nat.sub_eq_zero_of_le full, fill_zero pooled, List.append_nil]
        exact stands
      case isFalse =>
        rw [head] at split ⊢
        obtain ⟨next, one, stood⟩ := foldlM_selectFrom_stands order linked walkable split stands
        have split' : ids = (done ++ sorted hashLe (m.filed rate)) ++ m.queue rates := by
          rw [split, List.append_assoc]
        obtain ⟨s', others, done', stood'⟩ := ih split' stood
        refine ⟨s', ?_, done', ?_⟩
        · show (do
            let s ← (sorted hashLe (m.filed rate)).foldlM (m.selectFrom choices maxSize) s
            m.selectRates choices maxSize rates s) = _
          rw [one]
          exact others
        · have left : maxSize - next.size = maxSize - s.size - ((m.fill (maxSize - s.size)
              ((sorted hashLe (m.filed rate)).filter (Leads m))).map m.weight).sum := by
            rw [stood.size, stands.size, List.map_append, List.sum_append, Nat.sub_sub]
          rw [List.filter_append, fill_append, ← left, ← List.append_assoc]
          exact stood'

end Loops

variable (choices maxSize) in
theorem selectTxs_built (linked : Linked m) (indexed : Indexed env m)
    (walkable : ∀ x ∈ m.heads, Walkable m x) :
    ∃ ids, Built choices m (m.fill maxSize m.heads) ids ∧
      m.selectTxs choices maxSize = .ok (ids.filterMap m.txOf) := by
  have start : Stands choices m maxSize [] [] ⟨[], 0, ∅, ∅⟩ :=
    ⟨rfl, Nat.zero_le _, List.Subset.refl _, by simp, [], .nil, rfl⟩
  have able (x : Hash) (member : x ∈ m.queue (sorted (· ≥ ·) m.feeIndex.keys))
      (leads : Leads m x) : Walkable m x :=
    walkable x (List.mem_filter.mpr ⟨member, decide_eq_true leads⟩)
  obtain ⟨s, loops, done, stands⟩ :=
    selectRates_stands (queued indexed) linked able (List.nil_append _).symm start
  obtain ⟨ids, built, same⟩ := stands.built
  refine ⟨ids, built, ?_⟩
  rw [selectTxs, loops, ← same]
  rfl

end Lyrion.Mempool
