/- GID: Lyrion/RunNode/Ledger
   digest: Over all processes of a node that began without coins, no coin is ever stored and nothing
     of value is ever pooled. -/

import Lyrion.RunNode

set_option autoImplicit false
set_option relaxedAutoImplicit false

namespace Lyrion.RunNode

open Library.ByteCodec Library.KeyValue Library.Runs Data Tx Node Net Mempool

section Pool

variable {env : Env} {choices : Choices} {db : Db} {m : Mempool}

def Worthless (m : Mempool) : Prop :=
  ∀ txid entry, m.txs.lookup txid = some entry →
    entry.fee = 0 ∧ ∀ output ∈ entry.tx.outputs, output.value = 0

private theorem hereditary_worthless : Hereditary Worthless where
  quiet _ _ _ _ _ worthless := worthless
  removed m txid worthless other entry found :=
    worthless other entry ((remove_leftOf m txid).lookup found)

private theorem Coinless.gatherInputs (coinless : Coinless db) {isAnonymous : Bool}
    {inputs : List TXInput} {sum inputSum : UInt64} {walked dependsOn : Finset Hash}
    (done : m.gatherInputs db isAnonymous inputs sum walked = .ok (inputSum, dependsOn)) :
    inputSum = sum := by
  induction inputs generalizing walked with
  | nil =>
      obtain ⟨rfl, -⟩ := Prod.mk.inj (Except.ok.inj done)
      rfl
  | cons vin inputs ih =>
      rw [Mempool.gatherInputs, coinless] at done
      simp only at done
      split at done
      · exact ih done
      · exact absurd done (by simp [fail])

private theorem Coinless.store (coinless : Coinless db) {tx : Transaction} {entry : MempoolEntry}
    (worthless : Worthless m) (passed : m.checkInsert env choices db tx = .ok entry) :
    Worthless (m.store choices (txHash env tx) entry) := by
  obtain ⟨walked, inputSum, admitted⟩ := checkInsert_eq_ok passed
  have nothing : inputSum = 0 := Coinless.gatherInputs coinless admitted.inputs
  have paid := admitted.paid
  rw [nothing] at paid
  have created : createdValue tx.outputs = 0 := by
    simp only [UInt64.toNat_zero, Nat.add_eq_zero_iff] at paid
    exact paid.1
  intro txid other found
  rw [lookup_store_txs] at found
  split at found
  · obtain rfl := Option.some.inj found
    constructor
    · apply UInt64.toNat_inj.mp
      simp only [UInt64.toNat_zero] at paid ⊢
      omega
    · intro output member
      rw [admitted.own] at member
      have part : output.value.toNat ≤ createdValue tx.outputs :=
        List.single_le_sum (by simp) _ (List.mem_map_of_mem member)
      apply UInt64.toNat_inj.mp
      rw [UInt64.toNat_zero]
      omega
  · exact worthless txid other found

end Pool

private theorem sterile_genesisHash (hash : Hash) :
    Sterile [putCf .default genesisHashKey hash.toList] := by
  apply sterile_of_elsewhere
  · intro op member isAnonymous
    obtain rfl := List.mem_singleton.mp member
    cases isAnonymous <;> simp [putCf, coinFamily]
  · intro k member id
    obtain rfl : k = genesisHashKey := by simpa [defaultKeys, putCf, Write.key] using member
    simp [genesisHashKey, reorgKey, reorgPrefix]

private theorem coinbaseOnly_genesis (settings : Settings) : CoinbaseOnly settings.genesis := by
  have created := settings.created
  simp only [createGenesisBlock, bind_eq_ok, pure_eq_ok] at created
  obtain ⟨target, -, header, -, same⟩ := created
  intro tx member
  rw [← same] at member
  obtain rfl := List.mem_singleton.mp member
  rfl

private theorem lasting_idle (settings : Settings) :
    Lasting settings Barren (fun _ c m => Idle c ∧ Worthless m) (fun _ c => Idle c) where
  initialised pubkey db after barren done := by
    simp only [initDb, bind_eq_ok, pure_eq_ok] at done
    obtain ⟨_, -, hash, -, rfl⟩ := done
    exact barren.write (sterile_genesisHash hash)
  started session setHash supply db c left barren started := by
    have idle : StartsIdle (startChain settings.env session.world setHash supply settings.genesis
        db) := barren.startChain (coinbaseOnly_genesis settings)
    rw [started] at idle
    exact ⟨idle, by simp [Worthless, Mempool.new]⟩
  failed session setHash supply db e left barren failed := by
    have rest : StartsIdle (startChain settings.env session.world setHash supply settings.genesis
        db) := barren.startChain (coinbaseOnly_genesis settings)
    rw [failed] at rest
    exact rest
  halted setHash supply db journals half barren := barren.recoverHalted journals half
  moved session before after holds move := by
    cases move with
    | file block c m r filed refused =>
        exact ⟨keeps_locked (idle_keeps settings.env session.world session.clock) holds.1 trivial
          filed, holds.2⟩
    | insert choices tx c m m' result inserted =>
        refine ⟨holds.1, ?_⟩
        rcases insertGuarded_eq_some inserted with ⟨rfl, -⟩ | ⟨-, -, entry, passed, rfl, -⟩
        · exact holds.2
        · exact Coinless.store holds.1.barren.coinless holds.2 passed
  cleaned session choices expirationMs c m holds :=
    ⟨holds.1, hereditary_worthless.cleanExpired holds.2 expirationMs⟩
  locked session c m holds := holds.1
  accepted session block height reorg c c' m holds accepted :=
    keeps_locked (idle_keeps settings.env session.world session.clock) holds.1 trivial accepted
  ended session c idle := idle.barren
  shut session c idle := idle.barren.stopChain _
  died session block writes c r idle submitted :=
    (keeps_locked (idle_keeps settings.env _ (session.cut writes).clock) idle trivial
      submitted).barren

variable (settings : Settings)

private theorem coinless_emptyDb : Coinless emptyDb := fun _ _ => rfl

private theorem life_idle (events : List Event) :
    Throughout Barren (fun _ c m => Idle c ∧ Worthless m) (fun _ c => Idle c)
      (life settings emptyDb events) :=
  (lasting_idle settings).life ⟨coinless_emptyDb, by simp [emptyDb, Data.get]⟩ events

/-- A node that begins on an empty database stores no coin, whatever it is sent, however often it
is started and wherever it ends: it saves only blocks of coinbases, pools only transactions without
value, and no ordinary transaction is ever valid. -/
theorem node_never_holds_value (events : List Event) :
    Coinless (life settings emptyDb events).db ∧
      (∀ session s held, life settings emptyDb events = .up session s held →
        (∀ entry ∈ s.chain.saved, CoinbaseOnly entry.2) ∧ Worthless s.mempool) ∧
      (∀ session c readable, life settings emptyDb events = .hung session c readable →
        ∀ entry ∈ c.saved, CoinbaseOnly entry.2) ∧
      ∀ tx bestHeight height, isCoinbase tx = false → tx.size < 2 ^ 64 →
        validateTransaction settings.env (life settings emptyDb events).db bestHeight tx height ≠
          .ok () := by
  have idle := life_idle settings events
  generalize life settings emptyDb events = node at idle
  have coinless : Coinless node.db := by
    cases node with
    | down db => exact idle.coinless
    | up session s held => exact idle.1.barren.coinless
    | hung session c readable => exact idle.barren.coinless
  refine ⟨coinless, ?_, ?_, ?_⟩
  · rintro session s held rfl
    exact ⟨idle.1.saved, idle.2⟩
  · rintro session c readable rfl
    exact idle.saved
  · intro tx bestHeight height ordinary sized valid
    exact coinless.not_spendRules (validateTransaction_shape ordinary sized valid).2

end Lyrion.RunNode
