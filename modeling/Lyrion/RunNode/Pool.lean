/- GID: Lyrion/RunNode/Pool
   digest: The pool of every process agrees with its own tables and limits, and keeps what it has
     admitted until it expires. -/

import Lyrion.RunNode

set_option autoImplicit false
set_option relaxedAutoImplicit false

namespace Lyrion.RunNode

open Library.KeyValue Library.Runs Data Tx Node Net Mempool
open Relation

section Insertion

variable {env : Env} {choices : Choices} {db : Db} {tx : Transaction} {m m' : Mempool}

structure SoundPool (maxSize : Nat) (m : Mempool) : Prop where
  balanced : Balanced m
  linked : Linked m
  few : Few m
  limit : m.maxSize = maxSize
  bytes : total entrySize m.txs ≤ maxSize

theorem SoundPool.insert {maxSize : Nat} (sound : SoundPool maxSize m) {result : Result Bool}
    (inserted : m.insertGuarded env choices db tx = some (result, m')) :
    (m' = m ∧ result ≠ .ok true) ∨
      ∃ entry, m.checkInsert env choices db tx = .ok entry ∧ txHash env tx ∉ m.pooled ∧
        m' = m.store choices (txHash env tx) entry ∧ SoundPool maxSize m' := by
  rcases insertGuarded_eq_some inserted with same | ⟨-, fresh, entry, passed, rfl, small⟩
  · exact Or.inl same
  · obtain ⟨walked, inputSum, admitted⟩ := checkInsert_eq_ok passed
    rw [OverLimits, not_or, Nat.not_lt, Nat.not_lt] at small
    have books := store_books sound.balanced sound.few fresh admitted
    refine Or.inr ⟨entry, passed, fresh, rfl, books, ?_, small.2, sound.limit, ?_⟩
    · exact store_linked sound.linked fresh admitted
    · rw [← books.bytes]
      exact small.1.trans sound.limit.le

end Insertion

section Cleaning

variable {choices : Choices} {m : Mempool} {maxSize : Nat}

private theorem hereditary_sound (maxSize : Nat) :
    Hereditary fun m => Balanced m ∧ Linked m ∧ Few m ∧ total entrySize m.txs ≤ maxSize where
  quiet m heap ttlHeap expirationIndex limit sound :=
    ⟨hereditary_balanced.quiet m heap ttlHeap expirationIndex limit sound.1,
      hereditary_linked.quiet m heap ttlHeap expirationIndex limit sound.2.1, sound.2.2⟩
  removed m txid sound :=
    ⟨hereditary_balanced.removed m txid sound.1, hereditary_linked.removed m txid sound.2.1,
      hereditary_few.removed m txid sound.2.2.1,
      (total_mono entrySize fun _ _ => (remove_leftOf m txid).lookup).trans sound.2.2.2⟩

private theorem maxSize_cleanExpired (choices : Choices) (expirationMs : Nat) (m : Mempool) :
    (m.cleanExpired choices expirationMs).2.maxSize = m.maxSize := by
  unfold Mempool.cleanExpired
  cases choices.nowMs with
  | none => rfl
  | some now =>
      show (List.foldl _ m _).maxSize = m.maxSize
      generalize List.map Prod.snd _ = txids
      induction txids generalizing m with
      | nil => rfl
      | cons txid txids ih =>
          rw [List.foldl_cons, ih, ← (remove_leftOf m txid).maxSize]
          unfold Mempool.popTtl
          split <;> rfl

private theorem SoundPool.cleanExpired (sound : SoundPool maxSize m) (expirationMs : Nat) :
    SoundPool maxSize (m.cleanExpired choices expirationMs).2 := by
  obtain ⟨balanced, linked, few, bytes⟩ := @Hereditary.cleanExpired choices _ m
    (hereditary_sound maxSize) ⟨sound.balanced, sound.linked, sound.few, sound.bytes⟩ expirationMs
  exact ⟨balanced, linked, few, (maxSize_cleanExpired choices _ _).trans sound.limit, bytes⟩

private theorem soundPool_new (maxSize : Nat) : SoundPool maxSize (Mempool.new maxSize) where
  balanced := ⟨rfl, by simp [new], by simp [new], by simp [new, filed], fun _ _ => False.elim,
    by simp [new]⟩
  linked := ⟨by simp [new], by simp [new], by simp [new]⟩
  few := Nat.zero_le _
  limit := rfl
  bytes := Nat.zero_le _

end Cleaning

section Moves

variable {env : Env} {session : Session} {maxSize : Nat}

def Retains (m m' : Mempool) : Prop :=
  ∀ txid entry, m.txs.lookup txid = some entry → m'.txs.lookup txid = some entry

private theorem Retains.refl (m : Mempool) : Retains m m := fun _ _ found => found

private theorem Retains.trans {first second third : Mempool} (before : Retains first second)
    (after : Retains second third) : Retains first third :=
  fun txid entry found => after txid entry (before txid entry found)

private theorem SoundPool.move {before after : Chain × Mempool} (sound : SoundPool maxSize before.2)
    (move : Move env session before after) :
    SoundPool maxSize after.2 ∧ Retains before.2 after.2 := by
  cases move with
  | file block c m r filed refused => exact ⟨sound, .refl m⟩
  | insert choices tx c m m' result inserted =>
      rcases sound.insert inserted with ⟨rfl, -⟩ | ⟨entry, -, fresh, rfl, kept⟩
      · exact ⟨sound, .refl m'⟩
      · refine ⟨kept, fun txid other found => ?_⟩
        have different : txid ≠ txHash env tx := by
          rintro rfl
          exact fresh (mem_pooled_of_lookup found)
        rwa [lookup_store_txs, if_neg different]

private theorem SoundPool.moves {s s' : PeerManager} (sound : SoundPool maxSize s.mempool)
    (moves : Moves env session s s') :
    SoundPool maxSize s'.mempool ∧ Retains s.mempool s'.mempool := by
  have all : ∀ after, ReflTransGen (Move env session) (holdings s) after →
      SoundPool maxSize after.2 ∧ Retains s.mempool after.2 := by
    intro after reached
    induction reached with
    | refl => exact ⟨sound, .refl s.mempool⟩
    | tail _ move ih =>
        obtain ⟨next, more⟩ := ih.1.move move
        exact ⟨next, ih.2.trans more⟩
  exact all _ moves

end Moves

private theorem lasting_soundPool (settings : Settings) :
    Lasting settings (fun _ => True) (fun _ _ m => SoundPool settings.maxMempoolSize m)
      (fun _ _ => True) where
  initialised _ _ _ _ _ := trivial
  started _ _ _ _ _ _ _ _ := soundPool_new _
  failed _ _ _ _ _ _ _ _ := trivial
  halted _ _ _ _ _ _ := trivial
  moved _ _ _ sound move := (sound.move move).1
  cleaned _ _ expirationMs _ _ sound := sound.cleanExpired expirationMs
  locked _ _ _ _ := trivial
  accepted _ _ _ _ _ _ _ _ _ := trivial
  ended _ _ _ := trivial
  shut _ _ _ := trivial
  died _ _ _ _ _ _ _ := trivial

theorem soundPool_of_reached {settings : Settings} {db : Db} {events : List Event}
    {session : Session} {s : PeerManager} {held : Bool}
    (reached : life settings db events = .up session s held) :
    SoundPool settings.maxMempoolSize s.mempool := by
  have lasting : Throughout _ _ _ (life settings db events) :=
    (lasting_soundPool settings).life trivial events
  rw [reached] at lasting
  exact lasting

theorem SoundPool.run {settings : Settings} {session : Session} {s : PeerManager} {held : Bool}
    (sound : SoundPool settings.maxMempoolSize s.mempool) {more : List Event}
    (work : ∀ event ∈ more, event.isWork = true) {session' : Session} {s' : PeerManager}
    {held' : Bool} (ends : run (step settings) (.up session s held) more = .up session' s' held') :
    SoundPool settings.maxMempoolSize s'.mempool ∧ Retains s.mempool s'.mempool := by
  -- the process goes on with the pool grown, or it hangs or ends and stays so
  let Grown (node : Process) : Prop :=
    (∃ session' s' held', node = .up session' s' held' ∧
      SoundPool settings.maxMempoolSize s'.mempool ∧ Retains s.mempool s'.mempool) ∨
        (∃ session' c readable, node = .hung session' c readable) ∨ ∃ db, node = .down db
  have start : Grown (.up session s held) :=
    Or.inl ⟨session, s, held, rfl, sound, .refl s.mempool⟩
  have along := run_invariant (step settings) Grown start ?_ more [] (List.append_nil more).symm
  · rw [ends] at along
    rcases along with ⟨_, _, _, same, sound', kept⟩ | ⟨_, _, _, hung⟩ | ⟨_, down⟩
    · obtain ⟨-, rfl, -⟩ := Process.up.inj same
      exact ⟨sound', kept⟩
    · exact absurd hung (by simp)
    · exact absurd down (by simp)
  · intro before event after split holds
    have works : event.isWork = true := work event (by simp [split])
    rcases holds with ⟨session', s', held', same, sound', kept⟩ | ⟨session', c, readable, same⟩ |
      ⟨db, same⟩
    · rw [same]
      have handled := handled_step settings session' s' event held' works
      generalize step settings (.up session' s' held') event = node at handled
      cases handled with
      | waits s'' readable moves => exact Or.inr (Or.inl ⟨_, _, _, rfl⟩)
      | accepted block height reorg c submitted => exact Or.inr (Or.inl ⟨_, _, _, rfl⟩)
      | aborts s'' moves => exact Or.inr (Or.inr ⟨_, rfl⟩)
      | goesOn s'' held'' moves =>
          obtain ⟨next, more⟩ := sound'.moves moves
          exact Or.inl ⟨_, _, _, rfl, next, kept.trans more⟩
    · rw [same]
      refine Or.inr (Or.inl ?_)
      cases event <;> first | exact ⟨_, _, _, rfl⟩ | exact absurd works (by simp [Event.isWork])
    · rw [same]
      refine Or.inr (Or.inr ?_)
      cases event <;> first | exact ⟨_, rfl⟩ | exact absurd works (by simp [Event.isWork])

/-- In every process, whatever it is sent, the tables of the pool agree with its entries, each
entry has its ancestors with it, and the limits hold. What the pool has admitted it keeps, as long
as the process goes on and no clean-up takes it out: no event evicts or replaces anything. -/
theorem node_pool_keeps_admitted (settings : Settings) (db : Db) (events : List Event)
    (session : Session) (s : PeerManager) (held : Bool)
    (reached : life settings db events = .up session s held) :
    SoundPool settings.maxMempoolSize s.mempool ∧
      ∀ more, (∀ event ∈ more, event.isWork = true) → ∀ session' s' held',
        run (step settings) (.up session s held) more = .up session' s' held' →
        Retains s.mempool s'.mempool := by
  have sound := soundPool_of_reached reached
  refine ⟨sound, ?_⟩
  intro more work session' s' held' ends
  exact (sound.run work ends).2

theorem samplePooling_keeps_spend :
    ∃ entry, (samplePooling sampleCoinDb (sampleSpend [])).mempool.txs.lookup
        (txHash sampleEnv (sampleSpend [])) = some entry ∧ entry.fee = 5000 ∧
      ∀ more, (∀ event ∈ more, event.isWork = true) → ∀ session' s' held',
        run (step sampleSettings)
            (.up sampleSession (samplePooling sampleCoinDb (sampleSpend [])) false) more =
          .up session' s' held' →
        s'.mempool.txs.lookup (txHash sampleEnv (sampleSpend [])) = some entry := by
  obtain ⟨entry, found, paid⟩ : ∃ entry,
      (samplePooling sampleCoinDb (sampleSpend [])).mempool.txs.lookup
        (txHash sampleEnv (sampleSpend [])) = some entry ∧ entry.fee = 5000 := by
    have fee : ((samplePooling sampleCoinDb (sampleSpend [])).mempool.txs.lookup
        (txHash sampleEnv (sampleSpend []))).map MempoolEntry.fee = some 5000 := by
      decide +kernel
    exact Option.map_eq_some_iff.mp fee
  refine ⟨entry, found, paid, ?_⟩
  intro more work session' s' held' ends
  exact (node_pool_keeps_admitted sampleSettings sampleCoinDb _ _ _ _ samplePooling_reached).2 more
    work session' s' held' ends _ entry found

end Lyrion.RunNode
