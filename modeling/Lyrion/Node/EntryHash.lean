/- GID: Lyrion/Node/EntryHash
   digest: Which coins the element hashes of the set hash can tell apart. -/

import Lyrion.Node.SetHash

set_option autoImplicit false
set_option relaxedAutoImplicit false

namespace Lyrion.Node

open Library.ByteCodec Library.KeyValue Data Tx

variable {env : Env} {txid txid' : Hash} {vout vout' : UInt32} {out out' : TXOutput}

/-- The two fields of an output without a fixed length, one right after the other. -/
def openFields (out : TXOutput) : Bytes := out.scriptPubkey ++ out.commitment.getD []

def utxoEntryBytes (txid : Hash) (vout : UInt32) (out : TXOutput) : Bytes :=
  txid.toList ++ (beBytes 4 vout.toNat ++ (beBytes 8 out.value.toNat ++ openFields out))

private theorem hashUtxoEntry_eq (env : Env) (txid : Hash) (vout : UInt32) (out : TXOutput) :
    hashUtxoEntry env txid vout out = env.sha256d (utxoEntryBytes txid vout out) := by
  simp only [hashUtxoEntry, utxoEntryBytes, openFields, List.append_assoc]

private theorem utxoEntryBytes_eq_iff :
    utxoEntryBytes txid vout out = utxoEntryBytes txid' vout' out' ↔
      txid = txid' ∧ vout = vout' ∧ out.value = out'.value ∧ openFields out = openFields out' := by
  constructor
  · intro same
    obtain ⟨ids, same⟩ := List.append_inj same (by simp)
    obtain ⟨numbers, same⟩ := List.append_inj same (by simp)
    obtain ⟨values, fields⟩ := List.append_inj same (by simp)
    refine ⟨Vector.toList_inj.mp ids, UInt32.toNat_inj.mp ?_, UInt64.toNat_inj.mp ?_, fields⟩
    · exact beBytes_injective vout.toNat_lt vout'.toNat_lt numbers
    · exact beBytes_injective out.value.toNat_lt out'.value.toNat_lt values
  · rintro ⟨rfl, rfl, values, fields⟩
    rw [utxoEntryBytes, utxoEntryBytes, values, fields]

/-- The scripts end at the same place, and both outputs have a commitment or neither has. -/
def SameLayout (out out' : TXOutput) : Prop :=
  out.scriptPubkey.length = out'.scriptPubkey.length ∧
    out.commitment.isSome = out'.commitment.isSome

instance decidableSameLayout (out out' : TXOutput) : Decidable (SameLayout out out') :=
  inferInstanceAs (Decidable (_ ∧ _))

private theorem SameLayout.fields (layout : SameLayout out out')
    (same : openFields out = openFields out') :
    out.scriptPubkey = out'.scriptPubkey ∧ out.commitment = out'.commitment := by
  obtain ⟨lengths, kinds⟩ := layout
  obtain ⟨scripts, rest⟩ := List.append_inj same lengths
  refine ⟨scripts, ?_⟩
  cases first : out.commitment with
  | none =>
      rw [first, Option.isSome_none, eq_comm, Option.isSome_eq_false_iff, Option.isNone_iff_eq_none]
        at kinds
      exact kinds.symm
  | some commitment =>
      rw [first, Option.isSome_some, eq_comm, Option.isSome_iff_exists] at kinds
      obtain ⟨commitment', second⟩ := kinds
      rw [first, second] at rest
      rw [second]
      exact congrArg some rest

private theorem sameLayout_of_commitments (same : openFields out = openFields out')
    (kinds : out.commitment.isSome = out'.commitment.isSome)
    (lengths : (out.commitment.getD []).length = (out'.commitment.getD []).length) :
    SameLayout out out' := by
  have total := congrArg List.length same
  simp only [openFields, List.length_append] at total
  exact ⟨by omega, kinds⟩

def NoCollision (env : Env) (a b : Bytes) : Prop := env.sha256d a = env.sha256d b → a = b

/-- Where the hash does not collide, equal element hashes mean equal byte strings. Entries that are
hashed as one byte string agree in id, number and value, and they are one entry exactly if their
outputs have the same layout. -/
theorem entry_of_bytes_iff (env : Env) (txid txid' : Hash) (vout vout' : UInt32)
    (out out' : TXOutput)
    (free : NoCollision env (utxoEntryBytes txid vout out) (utxoEntryBytes txid' vout' out')) :
    (hashUtxoEntry env txid vout out = hashUtxoEntry env txid' vout' out' ↔
        utxoEntryBytes txid vout out = utxoEntryBytes txid' vout' out') ∧
      (utxoEntryBytes txid vout out = utxoEntryBytes txid' vout' out' →
        (txid = txid' ∧ vout = vout' ∧ out.value = out'.value) ∧
          ((out.scriptPubkey = out'.scriptPubkey ∧ out.commitment = out'.commitment) ↔
            SameLayout out out')) := by
  rw [hashUtxoEntry_eq, hashUtxoEntry_eq]
  refine ⟨⟨free, congrArg env.sha256d⟩, ?_⟩
  intro same
  obtain ⟨ids, numbers, values, fields⟩ := utxoEntryBytes_eq_iff.mp same
  refine ⟨⟨ids, numbers, values⟩, ?_, ?_⟩
  · rintro ⟨scripts, commitments⟩
    exact ⟨by rw [scripts], by rw [commitments]⟩
  · intro layout
    exact layout.fields fields

/-- Two ways to divide the same four bytes, and two ways to have no commitment bytes at all. -/
theorem open_fields_collide :
    utxoEntryBytes zeroHash 0 ⟨5000, [1, 2], some [3, 4]⟩ =
        utxoEntryBytes zeroHash 0 ⟨5000, [1, 2, 3, 4], none⟩ ∧
      utxoEntryBytes zeroHash 0 ⟨5000, [1, 2], some []⟩ =
        utxoEntryBytes zeroHash 0 ⟨5000, [1, 2], none⟩ ∧
      (⟨5000, [1, 2], some [3, 4]⟩ : TXOutput) ≠ ⟨5000, [1, 2, 3, 4], none⟩ ∧
      (⟨5000, [1, 2], some []⟩ : TXOutput) ≠ ⟨5000, [1, 2], none⟩ := by
  decide

theorem plain_outputs_told_apart :
    hashUtxoEntry sampleEnv zeroHash 0 ⟨5000, [1, 2], none⟩ ≠
      hashUtxoEntry sampleEnv zeroHash 0 ⟨5000, [3, 4], none⟩ := by
  have free : NoCollision sampleEnv (utxoEntryBytes zeroHash 0 ⟨5000, [1, 2], none⟩)
      (utxoEntryBytes zeroHash 0 ⟨5000, [3, 4], none⟩) := by
    intro collides
    exact absurd collides (by decide +kernel)
  obtain ⟨hashes, bytes⟩ := entry_of_bytes_iff sampleEnv _ _ _ _ _ _ free
  intro same
  have fields := (utxoEntryBytes_eq_iff.mp (hashes.mp same)).2.2.2
  have layout := sameLayout_of_commitments fields rfl rfl
  have scripts := ((bytes (hashes.mp same)).2.mpr layout).1
  exact absurd scripts (by decide)

end Lyrion.Node
