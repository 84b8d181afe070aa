/- GID: Lyrion/Tx/Anonymous
   digest: What the checks of an anonymous transaction establish, and when the node accepts one. -/

import Lyrion.Tx.Acceptance

set_option autoImplicit false
set_option relaxedAutoImplicit false

namespace Lyrion.Tx

open Library.ByteCodec Library.KeyValue Data Utils

section Acceptance

def anonymousFee (tx : Transaction) : Nat := (tx.size * minFeePerByte.toNat * 3 + 1) / 2

/-- The stored outputs that the inputs refer to pass the anonymous checks, and what they leave over
covers the fee. -/
def AnonymousAcceptable (env : Env) (db : Db) (tx : Transaction) : Prop :=
  ∃ outputs, gatherStored db true "Deserialize anon failed" tx.inputs ∅ = .ok outputs ∧
    validateAnonymousTx env tx outputs db = .ok () ∧
    createdValue tx.outputs + anonymousFee tx ≤ spentValue db true tx.inputs

/-- The node's verdict is the right one exactly on the transactions it has to refuse, since it
refuses all of them: the input sum of an anonymous transaction is left at 0. -/
theorem anonymous_acceptance_iff (env : Env) (db : Db) (bestHeight height : Nat) (tx : Transaction)
    (ordinary : isCoinbase tx = false) (anonymous : tx.isAnonymous = true)
    (_final : lockTimeOpen tx bestHeight = false)
    (_distinct : (tx.inputs.map TXInput.outpoint).Nodup)
    (_mature : ∀ vin ∈ tx.inputs, Mature db height vin) (sized : tx.size < 2 ^ 64) :
    (validateTransaction env db bestHeight tx height = .ok () ↔ AnonymousAcceptable env db tx) ↔
      ¬ AnonymousAcceptable env db tx := by
  have refused := @validateTransaction_anonymous env db bestHeight height tx ordinary anonymous
    sized
  constructor
  · intro agrees acceptable
    exact refused (agrees.mpr acceptable)
  · intro unacceptable
    exact iff_of_false refused unacceptable

end Acceptance

def sampleNote : TXOutput := ⟨10000, [], some (beBytes 32 10000)⟩

def sampleNotes : Map Outpoint TXOutput :=
  (∅ : Map Outpoint TXOutput).insert (zeroHash, 0) sampleNote

def sampleNoteDb : Db :=
  write emptyDb [putCf .anonymous (coinKey true zeroHash 0) (txOutputCodec.encode sampleNote)]

def sampleTransfer (proofs : List Bytes) : Transaction where
  version := 1
  isAnonymous := true
  inputs := [⟨zeroHash, 0, List.replicate 32 1, maxU32⟩]
  outputs := [⟨5000, [], some (beBytes 32 5000)⟩]
  lockTime := 0
  rangeProofs := proofs

/-- A transfer that should be accepted is refused for outputs that exceed its inputs. -/
theorem paid_transfer_refused :
    isCoinbase (sampleTransfer [[]]) = false ∧ lockTimeOpen (sampleTransfer [[]]) 0 = false ∧
      ((sampleTransfer [[]]).inputs.map TXInput.outpoint).Nodup ∧
      (∀ vin ∈ (sampleTransfer [[]]).inputs, Mature sampleNoteDb 0 vin) ∧
      AnonymousAcceptable sampleEnv sampleNoteDb (sampleTransfer [[]]) ∧
      validateTransaction sampleEnv sampleNoteDb 0 (sampleTransfer [[]]) 0 =
        fail (.invalidTx "Outputs exceed inputs") := by
  refine ⟨by decide, by decide, by decide, ?_, ?_, by decide +kernel⟩
  · intro vin member bytes found
    obtain rfl := List.mem_singleton.mp member
    exact absurd found (by simp [sampleNoteDb, Data.get, write, emptyDb, putCf])
  · exact ⟨sampleNotes, by decide +kernel, by decide +kernel, by decide +kernel⟩

theorem coinless_transfer_refused :
    validateTransaction sampleEnv emptyDb 0 (sampleTransfer [[]]) 0 = .ok () ↔
      AnonymousAcceptable sampleEnv emptyDb (sampleTransfer [[]]) := by
  refine (anonymous_acceptance_iff sampleEnv emptyDb 0 0 (sampleTransfer [[]]) (by decide) rfl
    (by decide) (by decide) ?_ (by decide +kernel)).mpr ?_
  · intro vin _ bytes found
    exact absurd found (by simp [Data.get, emptyDb])
  · rintro ⟨outputs, -, -, paid⟩
    exact absurd paid (by decide +kernel)

section Soundness

variable {env : Env} {db : Db} {tx : Transaction} {outputs : Map Outpoint TXOutput}

def keyImageOf (vin : TXInput) : Bytes := vin.scriptSig.take 32

def inputPoint (env : Env) (outputs : Map Outpoint TXOutput) (vin : TXInput) :
    Result env.Point := do
  let out ← orFail .missingUTXO (outputs.lookup vin.outpoint)
  commitmentPoint env out

def referredValue (outputs : Map Outpoint TXOutput) (inputs : List TXInput) : Nat :=
  (inputs.map fun vin => ((outputs.lookup vin.outpoint).map fun o => o.value.toNat).getD 0).sum

private theorem anonymousInputs_spec {inputs : List TXInput} {seen : List Bytes}
    {start sum : UInt64} {before points : List env.Point}
    (passed : anonymousInputs env db tx outputs inputs seen start before = .ok (sum, points)) :
    (inputs.map keyImageOf).Nodup ∧ (∀ vin ∈ inputs, keyImageOf vin ∉ seen) ∧
      (∀ vin ∈ inputs, get db .keyImages (keyImageOf vin) = none) ∧
      start.toNat + referredValue outputs inputs = sum.toNat ∧
      ∃ own, inputs.mapM (inputPoint env outputs) = .ok own ∧ points = before ++ own := by
  induction inputs generalizing seen start before with
  | nil =>
      simp only [anonymousInputs, Except.ok.injEq, Prod.mk.injEq] at passed
      obtain ⟨rfl, rfl⟩ := passed
      exact ⟨List.nodup_nil, by simp, by simp, rfl, [], rfl, (List.append_nil _).symm⟩
  | cons vin inputs ih =>
      simp only [anonymousInputs, fail_bind, guard_eq_ok, bind_eq_ok, orFail_eq_ok] at passed
      obtain ⟨-, -, fresh, unrecorded, clsag, -, -, -, out, found, next, added, point, decoded,
        rest⟩ := passed
      obtain ⟨distinct, unseen, clean, values, own, decodes, rfl⟩ := ih rest
      have first := checkedAdd_eq_some.mp added
      have value : referredValue outputs (vin :: inputs) =
          out.value.toNat + referredValue outputs inputs := by
        simp [referredValue, found]
      refine ⟨?_, ?_, ?_, by omega, point :: own, ?_, ?_⟩
      · rw [List.map_cons, List.nodup_cons]
        refine ⟨?_, distinct⟩
        intro repeated
        obtain ⟨other, member, same⟩ := List.mem_map.mp repeated
        exact unseen other member (List.mem_cons.mpr (Or.inl same))
      · intro other member
        rcases List.mem_cons.mp member with rfl | later
        · exact fresh
        · exact fun inside => unseen other later (List.mem_cons_of_mem _ inside)
      · intro other member
        rcases List.mem_cons.mp member with rfl | later
        · simpa [keyImageOf] using unrecorded
        · exact clean other later
      · rw [mapM_eq_ok] at decodes ⊢
        refine List.forall₂_cons.mpr ⟨?_, decodes⟩
        rw [inputPoint, found]
        exact decoded
      · rw [List.append_assoc, List.singleton_append]

/-- What a valid anonymous transaction should have: an input, fresh and distinct key images, a
range proof in the verified batch for each output, and commitments that balance with the fee. -/
structure AnonymousSound (env : Env) (tx : Transaction) (outputs : Map Outpoint TXOutput)
    (db : Db) : Prop where
  spends : tx.inputs ≠ []
  distinct : (tx.inputs.map keyImageOf).Nodup
  unrecorded : ∀ vin ∈ tx.inputs, get db .keyImages (keyImageOf vin) = none
  proved : ∃ queue, queueProofs env tx = .ok queue ∧ env.verifyBatch queue = some true ∧
    ∀ (i : Nat) out, tx.outputs[i]? = some out → ∃ bytes proof point,
      tx.rangeProofs[i]? = some bytes ∧ env.readRangeProof bytes = some proof ∧
      commitmentPoint env out = .ok point ∧ queue[i]? = some (proof, point, out.value)
  balanced : ∃ (fee : UInt64) (spent created : List env.Point),
    fee.toNat + createdValue tx.outputs = referredValue outputs tx.inputs ∧
    tx.inputs.mapM (inputPoint env outputs) = .ok spent ∧
    tx.outputs.mapM (commitmentPoint env) = .ok created ∧
    sumPoints env spent = sumPoints env created + env.commit fee

private theorem exists_getElem?_of_forall₂ {α β : Type} {R : α → β → Prop} {as : List α}
    {bs : List β} (related : List.Forall₂ R as bs) {i : Nat} {a : α} (here : as[i]? = some a) :
    ∃ b, bs[i]? = some b ∧ R a b := by
  induction related generalizing i with
  | nil => simp at here
  | @cons x y xs ys head tail ih =>
      cases i with
      | zero =>
          obtain rfl : x = a := by simpa using here
          exact ⟨y, by simp, head⟩
      | succ i =>
          rw [List.getElem?_cons_succ] at here ⊢
          exact ih here

private theorem queueProofs_at {queue : List (env.RangeProof × env.Point × UInt64)}
    (queued : queueProofs env tx = .ok queue) {i : Nat} {out : TXOutput} {bytes : Bytes}
    (output : tx.outputs[i]? = some out) (proved : tx.rangeProofs[i]? = some bytes) :
    ∃ proof point, env.readRangeProof bytes = some proof ∧ commitmentPoint env out = .ok point ∧
      queue[i]? = some (proof, point, out.value) := by
  have pair : (tx.outputs.zip tx.rangeProofs)[i]? = some (out, bytes) :=
    List.getElem?_zip_eq_some.mpr ⟨output, proved⟩
  obtain ⟨entry, there, done⟩ := exists_getElem?_of_forall₂ (mapM_eq_ok.mp queued) pair
  simp only [queueProof, bind_eq_ok, orFail_eq_ok, pure_eq_ok] at done
  obtain ⟨proof, read, point, decoded, rfl⟩ := done
  exact ⟨proof, point, read, decoded, there⟩

/-- A transaction that passes is sound exactly if it has an input and a range proof for every
output: the proofs are paired with the outputs only as far as they go. -/
theorem anonymous_sound_iff (env : Env) (tx : Transaction) (outputs : Map Outpoint TXOutput)
    (db : Db) (passed : validateAnonymousTx env tx outputs db = .ok ()) :
    AnonymousSound env tx outputs db ↔
      tx.inputs ≠ [] ∧ tx.outputs.length ≤ tx.rangeProofs.length := by
  simp only [validateAnonymousTx, fail_bind, guard_eq_ok, bind_eq_ok, orFail_eq_ok, pure_eq_ok,
    and_true, not_not, Bool.not_eq_true', Bool.not_eq_false] at passed
  obtain ⟨⟨sum, points⟩, inputs, outputSum, created, fee, left, queue, queued, verified, accepted,
    rfl, outs, decoded, balance⟩ := passed
  obtain ⟨distinct, -, unrecorded, values, own, decodes, joined⟩ := anonymousInputs_spec inputs
  rw [List.nil_append] at joined
  subst joined
  constructor
  · intro sound
    refine ⟨sound.spends, ?_⟩
    by_contra short
    obtain ⟨_, -, -, each⟩ := sound.proved
    have inside : tx.rangeProofs.length < tx.outputs.length := Nat.not_le.mp short
    obtain ⟨_, _, _, missing, -⟩ := each _ _ (List.getElem?_eq_getElem inside)
    simp at missing
  · rintro ⟨spends, enough⟩
    refine ⟨spends, distinct, unrecorded, ⟨queue, queued, accepted, ?_⟩, fee, points, outs, ?_,
      decodes, decoded, balance⟩
    · intro i out output
      have inside : i < tx.rangeProofs.length :=
        Nat.lt_of_lt_of_le (List.getElem?_eq_some_iff.mp output).1 enough
      obtain ⟨proof, point, read, commitment, there⟩ :=
        queueProofs_at queued output (List.getElem?_eq_getElem inside)
      exact ⟨_, proof, point, List.getElem?_eq_getElem inside, read, commitment, there⟩
    · have all := createdValue_eq_checkedSum.mp created
      have rest : sum.toNat = fee.toNat + outputSum.toNat := checkedSub_eq_some.mp left
      have start : (0 : UInt64).toNat = 0 := rfl
      omega

end Soundness

/-- A transfer without range proofs and a transaction without anything pass. -/
theorem unproved_transfer_passes :
    validateAnonymousTx sampleEnv (sampleTransfer []) sampleNotes emptyDb = .ok () ∧
      ¬ AnonymousSound sampleEnv (sampleTransfer []) sampleNotes emptyDb ∧
      validateAnonymousTx sampleEnv ⟨1, true, [], [], 0, []⟩ ∅ emptyDb = .ok () ∧
      ¬ AnonymousSound sampleEnv ⟨1, true, [], [], 0, []⟩ ∅ emptyDb := by
  refine ⟨by decide +kernel, ?_, by decide +kernel, fun sound => sound.spends rfl⟩
  intro sound
  obtain ⟨_, -, -, each⟩ := sound.proved
  obtain ⟨_, _, _, missing, -⟩ := each 0 _ rfl
  exact absurd missing (by simp [sampleTransfer])

theorem proved_transfer_sound :
    AnonymousSound sampleEnv (sampleTransfer [[]]) sampleNotes emptyDb :=
  (anonymous_sound_iff sampleEnv (sampleTransfer [[]]) sampleNotes emptyDb (by decide +kernel)).mpr
    ⟨by simp [sampleTransfer], by decide⟩

end Lyrion.Tx
