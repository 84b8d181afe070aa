/- GID: Lyrion/Node/MerkleRoot
   digest: The merkle root as a tree over transaction hashes, and how far a valid header fixes the
     transactions of its block. -/

import Lyrion.Library.Merkle
import Lyrion.Node.BlockRules

set_option autoImplicit false
set_option relaxedAutoImplicit false

namespace Lyrion.Node

open Library.ByteCodec Library.KeyValue Library.Merkle Data Utils Tx

variable {tx coinbase : Transaction} {txs rest : List Transaction} {p : Hash × Hash} {fees : UInt64}

section Root

variable (env : Env)

def merkleNode (a b : Hash) : Hash := env.sha256d (a.toList ++ b.toList)

private theorem merkleLevel_eq (hashes : List Hash) :
    merkleLevel env hashes = (neighbours hashes).map (combine (merkleNode env)) := by
  fun_induction neighbours hashes with
  | case1 a b rest ih =>
      rw [merkleLevel, ih]
      rfl
  | case2 hashes short =>
      rcases hashes with _ | ⟨a, _ | ⟨b, rest⟩⟩
      · rfl
      · rfl
      · exact absurd rfl (short a b rest)

private theorem merkleLoop_eq (fuel : Nat) (hashes : List Hash) :
    merkleLoop env fuel hashes = reduce (merkleNode env) fuel hashes := by
  induction fuel generalizing hashes with
  | zero => rfl
  | succ fuel ih =>
      rw [merkleLoop, reduce]
      simp only [gt_iff_lt, merkleLevel_eq, ih]
      rfl

def hashedStrings (txs : List Transaction) : List Bytes :=
  txs.map transactionCodec.encode ++
    (combined (merkleNode env) txs.length (txs.map (txHash env))).map fun p =>
      p.1.toList ++ p.2.toList

def CollisionFree (strings : List Bytes) : Prop :=
  ∀ a ∈ strings, ∀ b ∈ strings, env.sha256d a = env.sha256d b → a = b

instance (strings : List Bytes) : Decidable (CollisionFree env strings) := by
  unfold CollisionFree
  infer_instance

variable {env}

private theorem CollisionFree.pairs {strings : List Bytes} (free : CollisionFree env strings)
    {q : Hash × Hash} (left : p.1.toList ++ p.2.toList ∈ strings)
    (right : q.1.toList ++ q.2.toList ∈ strings)
    (same : combine (merkleNode env) p = combine (merkleNode env) q) : p = q := by
  have lengths : p.1.toList.length = q.1.toList.length := by simp
  obtain ⟨first, second⟩ := List.append_inj (free _ left _ right same) lengths
  exact Prod.ext (Vector.toList_inj.mp first) (Vector.toList_inj.mp second)

private theorem CollisionFree.leaf {strings : List Bytes} (free : CollisionFree env strings)
    {q : Hash × Hash} (long : 64 < tx.size) (left : transactionCodec.encode tx ∈ strings)
    (right : q.1.toList ++ q.2.toList ∈ strings) : txHash env tx ≠ combine (merkleNode env) q := by
  intro same
  have strings := congrArg List.length (free _ left _ right same)
  simp only [List.length_append, Vector.length_toList] at strings
  unfold Transaction.size at long
  omega

private theorem reduces_computeMerkleRoot (nonempty : txs ≠ []) :
    ∃ height, Reduces (merkleNode env) height (txs.map (txHash env))
      (combined (merkleNode env) txs.length (txs.map (txHash env)))
      (computeMerkleRoot env txs) := by
  obtain ⟨height, root, reduced, levels⟩ := exists_reduces (merkleNode env)
    (mt List.map_eq_nil_iff.mp nonempty : txs.map (txHash env) ≠ []) (List.length_map _).le
  have found : computeMerkleRoot env txs = root := by
    rw [computeMerkleRoot, merkleLoop_eq, List.length_map, reduced]
    rfl
  exact ⟨height, found ▸ levels⟩

private theorem encode_mem_hashedStrings (member : tx ∈ txs) :
    transactionCodec.encode tx ∈ hashedStrings env txs :=
  List.mem_append_left _ (List.mem_map_of_mem member)

private theorem pair_mem_hashedStrings
    (member : p ∈ combined (merkleNode env) txs.length (txs.map (txHash env))) :
    p.1.toList ++ p.2.toList ∈ hashedStrings env txs :=
  List.mem_append_right _ (List.mem_map.mpr ⟨p, member, rfl⟩)

private theorem prefix_of_computeMerkleRoot {others : List Transaction} (nonempty : txs ≠ [])
    (someOthers : others ≠ []) (sized : ∀ tx ∈ txs ++ others, 64 < tx.size ∧ tx.size < 2 ^ 64)
    (free : CollisionFree env (hashedStrings env txs ++ hashedStrings env others))
    (same : computeMerkleRoot env txs = computeMerkleRoot env others) :
    txs <+: others ∨ others <+: txs := by
  obtain ⟨height, left⟩ := reduces_computeMerkleRoot nonempty
  obtain ⟨depth, right⟩ := reduces_computeMerkleRoot someOthers
  rw [← same] at right
  have inLeft {s : Bytes} (member : s ∈ hashedStrings env txs) :
      s ∈ hashedStrings env txs ++ hashedStrings env others := List.mem_append_left _ member
  have inRight {s : Bytes} (member : s ∈ hashedStrings env others) :
      s ∈ hashedStrings env txs ++ hashedStrings env others := List.mem_append_right _ member
  have pairs (p : Hash × Hash) (here : p ∈ combined (merkleNode env) _ _) (q : Hash × Hash)
      (there : q ∈ combined (merkleNode env) _ _) :
      combine (merkleNode env) p = combine (merkleNode env) q → p = q :=
    free.pairs (inLeft (pair_mem_hashedStrings here)) (inRight (pair_mem_hashedStrings there))
  have hashes := left.prefix_of_root right pairs
    (fun a here q there => by
      obtain ⟨tx, member, rfl⟩ := List.mem_map.mp here
      exact free.leaf (sized tx (List.mem_append_left _ member)).1
        (inLeft (encode_mem_hashedStrings member)) (inRight (pair_mem_hashedStrings there)))
    (fun b there p here => by
      obtain ⟨tx, member, rfl⟩ := List.mem_map.mp there
      exact free.leaf (sized tx (List.mem_append_right _ member)).1
        (inRight (encode_mem_hashedStrings member)) (inLeft (pair_mem_hashedStrings here)))
  have injective (tx : Transaction) (here : tx ∈ txs) (other : Transaction)
      (there : other ∈ others) (hash : txHash env tx = txHash env other) : tx = other :=
    transactionCodec.encode_injective (sized tx (List.mem_append_left _ here)).2
      (sized other (List.mem_append_right _ there)).2
      (free _ (inLeft (encode_mem_hashedStrings here)) _ (inRight (encode_mem_hashedStrings there))
        hash)
  rcases hashes with front | front
  · exact Or.inl (prefix_of_map injective front)
  · exact Or.inr (prefix_of_map
      (fun other there tx here hash => (injective tx here other there hash.symm).symm) front)

def nodeStrings (env : Env) (txs : List Transaction) : List Bytes :=
  (combined (merkleNode env) txs.length (txs.map (txHash env))).map fun p =>
    p.1.toList ++ p.2.toList

private theorem pair_mem_nodeStrings
    (member : p ∈ combined (merkleNode env) txs.length (txs.map (txHash env))) :
    p.1.toList ++ p.2.toList ∈ nodeStrings env txs :=
  List.mem_map.mpr ⟨p, member, rfl⟩

/-- Among lists of one length the root stands for one, unless two of the 64-byte strings or two of
the transactions have the same hash. -/
theorem computeMerkleRoot_binds (env : Env) (txs others : List Transaction)
    (lengths : txs.length = others.length)
    (nodes : CollisionFree env (nodeStrings env txs ++ nodeStrings env others))
    (leaves : ∀ tx ∈ txs, ∀ other ∈ others, txHash env tx = txHash env other → tx = other)
    (same : computeMerkleRoot env txs = computeMerkleRoot env others) : txs = others := by
  by_cases empty : txs = []
  · subst empty
    exact (List.length_eq_zero_iff.mp lengths.symm).symm
  have someOthers : others ≠ [] := by
    rintro rfl
    exact empty (List.length_eq_zero_iff.mp lengths)
  obtain ⟨height, left⟩ := reduces_computeMerkleRoot empty
  obtain ⟨depth, right⟩ := reduces_computeMerkleRoot someOthers
  rw [← same] at right
  have hashes : txs.map (txHash env) = others.map (txHash env) := by
    refine left.eq_of_length right (by simp [lengths]) ?_
    intro p here q there
    exact nodes.pairs (List.mem_append_left _ (pair_mem_nodeStrings here))
      (List.mem_append_right _ (pair_mem_nodeStrings there))
  have front : txs <+: others := prefix_of_map leaves (hashes ▸ List.prefix_rfl)
  exact front.eq_of_length lengths

end Root

def sampleLocked (times : List UInt32) : List Transaction :=
  times.map fun time => { genesisCoinbase sampleEnv [7] with lockTime := time }

theorem locked_transactions_bound :
    (sampleLocked [2, 1, 0]).reverse = sampleLocked [0, 1, 2] :=
  computeMerkleRoot_binds sampleEnv (sampleLocked [2, 1, 0]).reverse (sampleLocked [0, 1, 2]) rfl
    (by decide +kernel) (by decide +kernel) (by decide +kernel)

section Blocks

variable {env : Env} {db : Db} {bestHeight height : Nat} {nowMs laterMs : Option Nat}
  {block other : Block}

private theorem size_of_input {vin : TXInput} (member : vin ∈ tx.inputs) : 64 < tx.size := by
  have inputs := length_encode_le_flatMap txInputCodec member
  rw [length_encode_txInput] at inputs
  rw [Transaction.size_eq]
  omega

private theorem exists_input_of_isCoinbase (coinbase : isCoinbase tx = true) :
    ∃ vin, vin ∈ tx.inputs := by
  unfold isCoinbase at coinbase
  split at coinbase
  · rename_i vin inputs
    exact ⟨vin, by simp [inputs]⟩
  · exact absurd coinbase (by simp)

private theorem BlockRules.sized
    (rules : BlockRules env db bestHeight nowMs block height coinbase rest fees)
    (member : tx ∈ block.txs) : 64 < tx.size ∧ tx.size < 2 ^ 64 := by
  have accepted := validateBlock_txs (validateBlock_eq_ok.mpr ⟨coinbase, rest, fees, rules⟩)
  constructor
  · cases kind : isCoinbase tx with
    | true =>
        obtain ⟨vin, input⟩ := exists_input_of_isCoinbase kind
        exact size_of_input input
    | false =>
        obtain ⟨vin, input⟩ :=
          List.exists_mem_of_ne_nil _ (accepted.shape member kind).2.inputs_ne_nil
        exact size_of_input input
  · have part := size_le_block_size member
    have limit := accepted.size
    unfold maxBlockSize at limit
    omega

private theorem BlockRules.merkleRoot
    (rules : BlockRules env db bestHeight nowMs block height coinbase rest fees) :
    block.header.merkleRoot = computeMerkleRoot env block.txs := by
  obtain ⟨hash, header, -⟩ := rules.header
  simp only [checkHeader, fail_bind, guard_eq_ok, bind_eq_ok, not_not] at header
  obtain ⟨-, _, -, _, -, -, _, -, -, root, -⟩ := header
  exact root

def coinbases (txs : List Transaction) : Nat := txs.countP isCoinbase

private theorem eq_of_front {first : Transaction} {later : List Transaction} {total : UInt64}
    (rules : BlockRules env db bestHeight nowMs block height coinbase rest fees)
    (others : BlockRules env db bestHeight laterMs other height first later total)
    (front : block.txs <+: other.txs) (same : coinbases block.txs = coinbases other.txs) :
    block.txs = other.txs := by
  obtain ⟨extra, longer⟩ := front
  rw [rules.txs, others.txs, List.cons_append] at longer
  obtain ⟨rfl, rfl⟩ := List.cons.inj longer
  have equalFees : fees.toNat = total.toNat := by
    obtain ⟨out, found, amount⟩ := rules.amount
    obtain ⟨out', found', amount'⟩ := others.amount
    obtain rfl := Option.some.inj (found.symm.trans found')
    omega
  have nothing : (extra.map (storedFee db)).sum = 0 := by
    have sum := others.total
    rw [List.map_append, List.sum_append, rules.total] at sum
    omega
  have all : ∀ tx ∈ extra, isCoinbase tx = true := by
    intro tx member
    by_contra ordinary
    obtain ⟨transparent, spend⟩ := others.spends (List.mem_append_right _ member)
      (Bool.not_eq_true _ ▸ ordinary)
    have paid := (storedFee_of_rules transparent spend).2
    have zero := List.sum_eq_zero_iff.mp nothing (storedFee db tx) (List.mem_map_of_mem member)
    have positive := size_pos tx
    have perByte : minFeePerByte.toNat = 10 := rfl
    rw [zero, perByte] at paid
    omega
  have count : coinbases extra = extra.length := List.countP_eq_length.mpr all
  have empty : extra.length = 0 := by
    rw [rules.txs, others.txs, ← List.cons_append, coinbases, coinbases, List.countP_append]
      at same
    unfold coinbases at count
    omega
  rw [rules.txs, others.txs, List.length_eq_zero_iff.mp empty, List.append_nil]

/-- Two accepted blocks with the same header have the same transactions exactly if they have
equally many coinbases: the tree tells the lists apart up to copies at the end, and a copy of
anything but a coinbase changes the fees. -/
theorem header_commits_iff (env : Env) (db : Db) (bestHeight height : Nat)
    (nowMs laterMs : Option Nat) (block other : Block) (header : block.header = other.header)
    (accepted : validateBlock env db bestHeight nowMs block height = .ok ())
    (alsoAccepted : validateBlock env db bestHeight laterMs other height = .ok ())
    (free : CollisionFree env (hashedStrings env block.txs ++ hashedStrings env other.txs)) :
    block.txs = other.txs ↔ coinbases block.txs = coinbases other.txs := by
  obtain ⟨coinbase, rest, fees, rules⟩ := validateBlock_eq_ok.mp accepted
  obtain ⟨first, later, total, others⟩ := validateBlock_eq_ok.mp alsoAccepted
  constructor
  · intro same
    rw [same]
  · intro same
    have roots : computeMerkleRoot env block.txs = computeMerkleRoot env other.txs := by
      rw [← rules.merkleRoot, ← others.merkleRoot, header]
    have sized : ∀ tx ∈ block.txs ++ other.txs, 64 < tx.size ∧ tx.size < 2 ^ 64 :=
      List.forall_mem_append.mpr ⟨fun _ => rules.sized, fun _ => others.sized⟩
    rcases prefix_of_computeMerkleRoot (by simp [rules.txs]) (by simp [others.txs]) sized free roots
      with front | front
    · exact eq_of_front rules others front same
    · exact (eq_of_front others rules front same.symm).symm

end Blocks

def samplePadded (copies : Nat) : Block :=
  let coinbase := { genesisCoinbase sampleEnv [7] with
    outputs := [⟨10000000000, p2pkhScript sampleEnv [7], none⟩] }
  let second := { genesisCoinbase sampleEnv [7] with outputs := [], lockTime := 1 }
  let third := { genesisCoinbase sampleEnv [7] with outputs := [], lockTime := 2 }
  ⟨{ genesisHeader sampleEnv [7] 0 with
      merkleRoot := computeMerkleRoot sampleEnv [coinbase, second, third] },
    coinbase :: second :: List.replicate copies third⟩

private theorem samplePadded_valid {copies : Nat} (few : copies ∈ [1, 2]) :
    validateBlock sampleEnv (sampleHeaderDb 1) 0 (some 2000000000000) (samplePadded copies) 1 =
      .ok () := by
  revert copies
  decide +kernel

private theorem samplePadded_collisionFree :
    CollisionFree sampleEnv (hashedStrings sampleEnv (samplePadded 1).txs ++
      hashedStrings sampleEnv (samplePadded 2).txs) := by
  decide +kernel

/-- A header stands for two blocks: the last of three coinbases can be repeated. -/
theorem repeated_coinbase_accepted :
    (samplePadded 1).header = (samplePadded 2).header ∧
      validateBlock sampleEnv (sampleHeaderDb 1) 0 (some 2000000000000) (samplePadded 1) 1 =
        .ok () ∧
      validateBlock sampleEnv (sampleHeaderDb 1) 0 (some 2000000000000) (samplePadded 2) 1 =
        .ok () ∧
      CollisionFree sampleEnv (hashedStrings sampleEnv (samplePadded 1).txs ++
        hashedStrings sampleEnv (samplePadded 2).txs) ∧
      (samplePadded 1).txs ≠ (samplePadded 2).txs :=
  ⟨rfl, samplePadded_valid (by decide), samplePadded_valid (by decide), samplePadded_collisionFree,
    by decide +kernel⟩

theorem repeated_coinbase_counted :
    (samplePadded 1).txs = (samplePadded 2).txs ↔
      coinbases (samplePadded 1).txs = coinbases (samplePadded 2).txs :=
  header_commits_iff sampleEnv (sampleHeaderDb 1) 0 1 (some 2000000000000) (some 2000000000000)
    (samplePadded 1) (samplePadded 2) rfl (samplePadded_valid (by decide))
    (samplePadded_valid (by decide)) samplePadded_collisionFree

end Lyrion.Node
