/- GID: Lyrion/Network
   digest: Several nodes of this program and nobody else: what crosses the wire, and what a node
     gets to know of the blocks and transactions of the others. -/

import Lyrion.RunNode

set_option autoImplicit false
set_option relaxedAutoImplicit false

namespace Lyrion.Network

open Library.ByteCodec Library.KeyValue Data Tx Node Net RunNode
open Relation

structure Fleet (N : Type) where
  settings : N → Settings
  snappy : Snappy
  shared : ∀ n, (settings n).snappy = snappy

/-- The processes, the messages given to a writer so far, and for each node the transactions that
callers have given to it and the chain with which its process came up. No step reads the last
two. -/
structure State (N : Type) where
  node : N → Process
  wire : List Emitted
  given : N → List Transaction
  began : N → Option Chain

def emitted (s : PeerManager) : List Emitted := s.replies.map Prod.snd ++ s.broadcasts

def sentBy : Process → List Emitted
  | .up _ s _ => emitted s
  | _ => []

def chainOf : Process → Option Chain
  | .down _ => none
  | .up _ s _ => some s.chain
  | .hung _ c _ => some c

def beganWith (began : Option Chain) (after : Process) : Process → Option Chain
  | .down _ => chainOf after
  | _ => began

def isTalk : Emitted → Bool
  | .getAddr | .addrReply _ | .addrBroadcast _ _ | .heartbeat => true
  | _ => false

def isOwn : RunNode.Event → Bool
  | .read _ _ | .dies _ _ => false
  | _ => true

def givenIn : RunNode.Event → List Transaction
  | .sendTx tx => [tx]
  | _ => []

variable {N : Type}

def State.begin (disk : N → Db) : State N :=
  ⟨fun n => .down (disk n), [], fun _ => [], fun _ => none⟩

variable [DecidableEq N] (fleet : Fleet N)

def State.after (w : State N) (n : N) (event : RunNode.Event) : State N where
  node := Function.update w.node n (step (fleet.settings n) (w.node n) event)
  wire := w.wire ++ sentBy (step (fleet.settings n) (w.node n) event)
  given := Function.update w.given n (w.given n ++ givenIn event)
  began := Function.update w.began n
    (beganWith (w.began n) (step (fleet.settings n) (w.node n) event) (w.node n))

/-- A network. A message arrives in a read of its own, at any node, any number of times, or never;
`talks` has what the tasks of a connection send by themselves, also in a process that hangs. -/
inductive Step (w : State N) : State N → Prop
  | happens (n : N) (event : RunNode.Event) (own : isOwn event = true) :
      Step w (w.after fleet n event)
  | arrives (n : N) (peer : Peer) (e : Emitted) (frame : Bytes) (sent : e ∈ w.wire)
      (framed : fleet.snappy.frame e.bytes = some frame) :
      Step w (w.after fleet n (.read peer frame))
  | dies (n : N) (e : Emitted) (block : Block) (writes : Nat) (sent : e ∈ w.wire)
      (meant : e.payload = some (.block block)) : Step w (w.after fleet n (.dies block writes))
  | talks (e : Emitted) (talk : isTalk e = true) : Step w { w with wire := w.wire ++ [e] }

section Arrivals

variable {snappy : Snappy} {e : Emitted} {frame data : Bytes} {msg : Message}

private theorem unpack_of_frame (framed : snappy.frame e.bytes = some frame)
    (unpacked : unpack snappy frame = some data) : data = e.bytes := by
  rw [frame_eq_some] at framed
  split at framed
  · obtain ⟨z, compressed, rfl⟩ := framed
    rw [unpack, toOption_eq_some, receive_eq_ok, if_pos rfl,
      snappy.lossless _ z compressed] at unpacked
    exact (Option.some.inj unpacked.2.2.1).symm
  · subst framed
    rw [unpack, toOption_eq_some, receive_eq_ok, if_neg (by decide)] at unpacked
    exact unpacked.2

def isQuiet : Message → Bool
  | .getAddr | .addr _ => true
  | _ => false

private theorem isQuiet_of_parsed (tag : ofLeBytes (data.take 4) = 9 ∨ ofLeBytes (data.take 4) = 10)
    (parsed : parseMessage data = .ok msg) : isQuiet msg = true := by
  rcases tag with tag | tag
  · rw [parseMessage, tag] at parsed
    obtain rfl := Except.ok.inj parsed
    rfl
  · rw [parseMessage, tag] at parsed
    simp only [bind_eq_ok, pure_eq_ok] at parsed
    obtain ⟨addrs, -, rfl⟩ := parsed
    rfl

private theorem messageIn_of_talk (talk : isTalk e = true)
    (framed : snappy.frame e.bytes = some frame) (arrived : messageIn snappy frame = some msg) :
    isQuiet msg = true := by
  obtain ⟨-, data, unpacked, -, parsed⟩ := messageIn_eq_some.mp arrived
  obtain rfl := unpack_of_frame framed unpacked
  cases e with
  | heartbeat =>
      have short : frame = [0, 0] := by simpa [Snappy.frame, Emitted.bytes] using framed.symm
      subst short
      rw [unpack, toOption_eq_some, receive_eq_ok] at unpacked
      exact absurd unpacked.1 (by decide)
  | getAddr => exact isQuiet_of_parsed (.inl rfl) parsed
  | addrReply addrs => exact isQuiet_of_parsed (.inr (take_tag (by decide))) parsed
  | addrBroadcast now addr => exact isQuiet_of_parsed (.inr (take_tag (by decide))) parsed
  | _ => exact absurd talk (by simp [isTalk])

end Arrivals

section Quiet

variable {s s' s'' : PeerManager} {peer : Peer}

/-- The chain and the pool are the same, and what is sent is talk. -/
structure Quiet (s s' : PeerManager) : Prop where
  same : holdings s' = holdings s
  talk : ∀ e ∈ emitted s', e ∈ emitted s ∨ isTalk e = true

private theorem quiet_of_same (same : holdings s' = holdings s) (sent : emitted s' = emitted s) :
    Quiet s s' :=
  ⟨same, fun _ there => .inl (sent ▸ there)⟩

private theorem Quiet.trans (first : Quiet s s') (second : Quiet s' s'') : Quiet s s'' where
  same := second.same.trans first.same
  talk e there := (second.talk e there).elim (first.talk e) .inr

private theorem emitted_decreaseReputation (around : Surroundings) :
    emitted (decreaseReputation around peer s) = emitted s := by
  simp only [decreaseReputation]
  split <;> rfl

private theorem quiet_decreaseReputation (around : Surroundings) :
    Quiet s (decreaseReputation around peer s) :=
  quiet_of_same (holdings_decreaseReputation around) (emitted_decreaseReputation around)

private theorem quiet_removePeer : Quiet s (removePeer peer s) := by
  refine quiet_of_same holdings_removePeer ?_
  unfold removePeer
  split <;> rfl

private theorem quiet_isBanned (around : Surroundings) (ip : IpAddr) : Quiet s
    (isBanned around ip s).2 :=
  quiet_of_same rfl rfl

private theorem quiet_welcome (call : Newcomer) : Quiet s (welcome call peer s) := by
  unfold welcome
  split
  · exact quiet_of_same rfl rfl
  · refine ⟨rfl, fun e there => ?_⟩
    simp only [emitted, reply, broadcast, List.map_append, List.map_cons, List.map_nil,
      List.mem_append, List.mem_singleton] at there ⊢
    rcases there with (there | rfl) | there | rfl
    · exact .inl (.inl there)
    · exact .inr rfl
    · exact .inl (.inr there)
    · exact .inr rfl

private theorem quiet_addPeer (around : Surroundings) (maxPeers : Nat) (call : Newcomer) :
    Quiet s (addPeer around maxPeers call s) := by
  have asked : Quiet s (isBanned around call.ip s).2 := quiet_isBanned around call.ip
  unfold addPeer
  simp only
  split
  · exact asked
  · refine asked.trans ?_
    unfold considerPeer
    split
    · exact quiet_of_same rfl rfl
    · split
      · exact quiet_of_same rfl rfl
      · split
        · exact quiet_of_same rfl rfl
        · simp only
          split
          · exact quiet_welcome call
          · exact quiet_decreaseReputation around

private theorem serve_of_quiet {around : Surroundings} {choices : Choices} {msg : Message}
    (quiet : isQuiet msg = true) :
    ∃ s', serve around choices peer s msg = some (.ok (), s') ∧ Quiet s s' := by
  cases msg with
  | getAddr =>
      refine ⟨_, rfl, rfl, fun e there => ?_⟩
      simp only [emitted, reply, List.map_append, List.map_cons, List.map_nil, List.mem_append,
        List.mem_singleton] at there ⊢
      rcases there with (there | rfl) | there
      · exact .inl (.inl there)
      · exact .inr rfl
      · exact .inl (.inr there)
  | addr addrs => exact ⟨_, rfl, quiet_of_same rfl rfl⟩
  | _ => exact absurd quiet (by simp [isQuiet])

private theorem quiet_afterRead {around : Surroundings} {snappy : Snappy} {buf : Bytes}
    (quiet : ∀ msg, messageIn snappy buf = some msg → isQuiet msg = true) :
    Quiet s (afterRead around snappy peer s [] buf).state := by
  rcases readerStep_cases snappy (handleMessage around peer) (decreaseReputation around peer)
      (removePeer peer) [] s (.read buf) with
    ⟨-, status, after, -, kept, step⟩ | ⟨read, -, -, step⟩ |
      ⟨read, data, same, sized, unpacked, step⟩
  · rw [afterRead, step]
    rcases kept with rfl | rfl
    · exact quiet_of_same rfl rfl
    · exact quiet_removePeer
  · rw [afterRead, step]
    exact quiet_decreaseReputation around
  · rw [afterRead, step]
    obtain rfl := Arrival.read.inj same
    rcases handleMessage_cases around peer data s with
      ⟨-, short⟩ | ⟨-, -, taken⟩ | ⟨⟨long, -⟩, ⟨fault, -, refused⟩ | ⟨msg, parsed, served⟩⟩
    · rw [short]
      exact quiet_decreaseReputation around
    · rw [taken]
      have counts : Quiet s (counted peer data s) := quiet_of_same rfl rfl
      exact counts.trans (quiet_decreaseReputation around)
    · rw [refused]
      have counts : Quiet s (counted peer data s) := quiet_of_same rfl rfl
      rcases fault with e | place | _
      · exact counts.trans (quiet_decreaseReputation around)
      · exact counts
      · exact counts
    · have arrives : messageIn snappy buf = some msg :=
        messageIn_eq_some.mpr ⟨sized, data, unpacked, long, parsed⟩
      have enters : Quiet s (entered peer data s) := quiet_of_same rfl rfl
      obtain ⟨s', answer, answered⟩ :
          ∃ s', serve around (around.choices s.tick) peer (entered peer data s) msg =
            some (.ok (), s') ∧ Quiet (entered peer data s) s' := serve_of_quiet (quiet msg arrives)
      rw [served, answer]
      exact enters.trans answered

end Quiet

section Nodes

variable {settings : Settings} {session : Session} {s s' : PeerManager} {txs : List Transaction}
  {began : Option Chain}

def PooledFrom (txs : List Transaction) (m : Mempool) : Prop :=
  ∀ txid entry, m.txs.lookup txid = some entry → entry.tx ∈ txs

private theorem hereditary_pooledFrom (txs : List Transaction) :
    Mempool.Hereditary (PooledFrom txs) where
  quiet _ _ _ _ _ pooled := pooled
  removed m txid pooled other entry found :=
    pooled other entry ((Mempool.remove_leftOf m txid).lookup found)

private theorem PooledFrom.insert {env : Env} {choices : Choices} {db : Db} {tx : Transaction}
    {m m' : Mempool} {result : Result Bool} (pooled : PooledFrom txs m)
    (inserted : m.insertGuarded env choices db tx = some (result, m')) :
    PooledFrom (txs ++ [tx]) m' := by
  have before : PooledFrom (txs ++ [tx]) m :=
    fun txid entry found => List.mem_append_left _ (pooled txid entry found)
  rcases Mempool.insertGuarded_eq_some inserted with ⟨rfl, -⟩ | ⟨-, -, entry, passed, rfl, -⟩
  · exact before
  · obtain ⟨walked, inputSum, admitted⟩ := Mempool.checkInsert_eq_ok passed
    intro txid other found
    rw [Mempool.lookup_store_txs] at found
    split at found
    · obtain rfl := Option.some.inj found
      rw [admitted.own]
      exact List.mem_append_right _ List.mem_cons_self
    · exact before txid other found

/-- A node that knows of no block or transaction of another one: its process has the chain with
which it came up. -/
def Alone (txs : List Transaction) (began : Option Chain) : Process → Prop
  | .down _ => True
  | .up _ s _ =>
      began = some s.chain ∧ PooledFrom txs s.mempool ∧ ∀ e ∈ emitted s, isTalk e = true
  | .hung _ c _ => began = some c

private theorem Alone.more {node : Process} (alone : Alone txs began node)
    (more : List Transaction) :
    Alone (txs ++ more) began node := by
  cases node with
  | down db => trivial
  | hung session c readable => exact alone
  | up session s held =>
      obtain ⟨started, pooled, talk⟩ := alone
      refine ⟨started, fun txid entry found => ?_, talk⟩
      exact List.mem_append_left _ (pooled txid entry found)

private theorem Alone.quiet {held held' : Bool} (alone : Alone txs began (.up session s held))
    (quiet : Quiet s s') : Alone txs began (.up session s' held') := by
  obtain ⟨started, pooled, talk⟩ := alone
  obtain ⟨chain, pool⟩ := Prod.mk.inj quiet.same
  refine ⟨?_, ?_, fun e there => (quiet.talk e there).elim (talk e) id⟩
  · rwa [chain]
  · rwa [pool]

private theorem alone_of_hung {c : Chain} {held readable : Bool} {txs' : List Transaction}
    (alone : Alone txs began (.up session s held)) (same : c = s.chain) :
    Alone txs' began (.hung session c readable) := by
  subst same
  exact alone.1

private theorem Alone.read {held : Bool} {peer : Peer} {buf : Bytes}
    (alone : Alone txs began (.up session s held))
    (quiet : ∀ msg, messageIn settings.snappy buf = some msg → isQuiet msg = true) :
    Alone txs began (onRead settings session peer buf s held) := by
  have read : Quiet s
      (afterRead (session.around settings.env) settings.snappy peer s [] buf).state :=
    quiet_afterRead quiet
  unfold onRead
  simp only
  split
  · unfold stick
    split
    · rename_i block arrived
      exact absurd (quiet _ arrived) (by simp [isQuiet])
    · exact alone_of_hung alone rfl
  · trivial
  · unfold settle
    split
    · split
      · exact alone.quiet ⟨read.same, read.talk⟩
      · exact alone_of_hung alone (Prod.mk.inj read.same).1
    · exact alone.quiet read

variable (settings) in
private theorem Alone.own {node : Process} (alone : Alone txs began node) (event : RunNode.Event)
    (own : isOwn event = true) :
    Alone (txs ++ givenIn event) (beganWith began (step settings node event) node)
      (step settings node event) := by
  cases node with
  | down db =>
      cases event with
      | start session setHash supply =>
          simp only [step]
          split
          · refine ⟨rfl, ?_, ?_⟩
            · intro txid entry found
              simp [newManager, Mempool.new] at found
            · intro e there
              simp [newManager, emitted] at there
          · trivial
      | _ => trivial
  | hung session c readable =>
      cases event with
      | stop => trivial
      | crash => trivial
      | _ => exact alone
  | up session s held =>
      cases event with
      | read peer buf => exact absurd own (by simp [isOwn])
      | dies block writes => exact absurd own (by simp [isOwn])
      | stop => trivial
      | crash => trivial
      | lost peer =>
          refine Alone.more ?_ _
          cases held with
          | false => exact alone.quiet quiet_removePeer
          | true => exact alone
      | joins call =>
          refine Alone.more ?_ _
          cases held with
          | false => exact alone.quiet (quiet_addPeer _ _ call)
          | true => exact alone.quiet (quiet_isBanned _ _)
      | sendTx tx =>
          simp only [step, onSendTx]
          split
          · exact alone_of_hung alone rfl
          · rename_i result m inserted
            exact ⟨alone.1, alone.2.1.insert inserted, alone.2.2⟩
      | cleans =>
          refine Alone.more ?_ _
          simp only [step, onCleans]
          split
          · trivial
          · rename_i outcome rated done
            have pooled : PooledFrom txs (s.mempool.cleanExpired (session.choices s.tick)
                settings.txExpirationMs).2 :=
              (hereditary_pooledFrom txs).cleanExpired alone.2.1 settings.txExpirationMs
            rw [Rated.cleanExpired_pool done] at pooled
            exact ⟨alone.1, pooled, alone.2.2⟩
      | mined => exact alone_of_hung alone rfl
      | crossed => exact alone_of_hung alone rfl
      | asks => exact alone.more _
      | initDb pubkey => exact alone.more _
      | command setHash supply => exact alone.more _
      | start other setHash supply => exact alone.more _
      | halts setHash supply journals half => exact alone.more _

end Nodes

section Runs

variable {fleet} {w w' : State N}

/-- Nothing but talk has been sent, and every node is alone. -/
structure Isolated (w : State N) : Prop where
  talk : ∀ e ∈ w.wire, isTalk e = true
  alone : ∀ n, Alone (w.given n) (w.began n) (w.node n)

private theorem talk_of_alone {txs : List Transaction} {began : Option Chain} {node : Process}
    (alone : Alone txs began node) : ∀ e ∈ sentBy node, isTalk e = true := by
  cases node with
  | up session s held => exact alone.2.2
  | down db => exact fun e there => absurd there List.not_mem_nil
  | hung session c readable => exact fun e there => absurd there List.not_mem_nil

private theorem Isolated.after (isolated : Isolated w) (n : N) (event : RunNode.Event)
    (alone : Alone (w.given n ++ givenIn event)
      (beganWith (w.began n) (step (fleet.settings n) (w.node n) event) (w.node n))
      (step (fleet.settings n) (w.node n) event)) :
    Isolated (w.after fleet n event) where
  talk e there := by
    rcases List.mem_append.mp there with there | there
    · exact isolated.talk e there
    · exact talk_of_alone alone e there
  alone m := by
    by_cases same : m = n
    · subst same
      simpa [State.after] using alone
    · simpa [State.after, same] using isolated.alone m

private theorem Isolated.step (isolated : Isolated w) (step : Step fleet w w') : Isolated w' := by
  cases step with
  | happens n event own =>
      exact isolated.after n event ((isolated.alone n).own _ event own)
  | arrives n peer e frame sent framed =>
      have talk := isolated.talk e sent
      refine isolated.after n _ (Alone.more ?_ _)
      have alone := isolated.alone n
      generalize w.node n = node at alone ⊢
      cases node with
      | down db => trivial
      | hung session c readable => exact alone
      | up session s held =>
          refine Alone.read alone fun msg arrived => messageIn_of_talk talk framed ?_
          rwa [← fleet.shared n]
  | dies n e block writes sent meant =>
      have talk := isolated.talk e sent
      cases e <;> simp [Emitted.payload, isTalk] at meant talk
  | talks e talk =>
      refine ⟨fun other there => ?_, isolated.alone⟩
      rcases List.mem_append.mp there with there | there
      · exact isolated.talk other there
      · rwa [List.mem_singleton.mp there]

/-- In a network of this program no block and no transaction ever crosses the wire, and none is
announced. Every process has the chain with which it came up, and pools what the callers of its node
have given to it. -/
theorem network_isolated (fleet : Fleet N) (disk : N → Db) (w : State N)
    (reached : ReflTransGen (Step fleet) (State.begin disk) w) :
    (∀ e ∈ w.wire, isTalk e = true) ∧
      (∀ n session s held, w.node n = .up session s held →
        w.began n = some s.chain ∧ PooledFrom (w.given n) s.mempool) ∧
      ∀ n session c readable, w.node n = .hung session c readable → w.began n = some c := by
  have isolated : Isolated w := by
    induction reached with
    | refl => exact ⟨fun e there => absurd there List.not_mem_nil, fun n => trivial⟩
    | tail _ step ih => exact ih.step step
  refine ⟨isolated.talk, ?_, ?_⟩
  · intro n session s held up
    have alone := isolated.alone n
    rw [up] at alone
    exact ⟨alone.1, alone.2.1⟩
  · intro n session c readable hung
    have alone := isolated.alone n
    rwa [hung] at alone

def sampleFleet : Fleet Bool := ⟨fun _ => sampleSettings, sampleSnappy, fun _ => rfl⟩

def sampleNetwork : State Bool :=
  (((State.begin fun _ => sampleCoinDb).after sampleFleet true
    (.start sampleSession zeroHash 0)).after sampleFleet false
      (.start sampleSession zeroHash 0)).after sampleFleet true (.sendTx (sampleSpend []))

def sampleAsked : State Bool :=
  State.after sampleFleet { sampleNetwork with wire := sampleNetwork.wire ++ [.getAddr] } false
    (.read samplePeer [0, 9, 0, 0, 0])

theorem sampleAsked_isolated :
    (∃ s, sampleAsked.node false = .up sampleSession s false ∧
        (s.replies.map fun sent => sent.2.bytes) = [(Emitted.addrReply []).bytes] ∧
          sampleAsked.began false = some s.chain) ∧
      ∃ s, sampleAsked.node true = .up sampleSession s false ∧ s.mempool.pooled.card = 1 ∧
        sampleAsked.began true = some s.chain ∧ PooledFrom [sampleSpend []] s.mempool ∧
        ∀ e ∈ sampleAsked.wire, isTalk e = true := by
  have reached : ReflTransGen (Step sampleFleet) (State.begin fun _ => sampleCoinDb)
      sampleAsked := by
    refine .tail (.tail (.tail (.tail (.single
      (.happens true (.start sampleSession zeroHash 0) rfl))
        (.happens false (.start sampleSession zeroHash 0) rfl))
          (.happens true (.sendTx (sampleSpend [])) rfl)) (.talks .getAddr rfl)) ?_
    refine .arrives false samplePeer .getAddr _ ?_ rfl
    exact List.mem_append_right sampleNetwork.wire List.mem_cons_self
  obtain ⟨talk, runs, -⟩ := network_isolated sampleFleet _ _ reached
  have asked : sampleAsked.node false = onRead sampleSettings sampleSession samplePeer
      [0, 9, 0, 0, 0] (sampleFirstOn sampleCoinDb) false := by
    show step sampleSettings (life sampleSettings sampleCoinDb [.start sampleSession zeroHash 0])
      (.read samplePeer [0, 9, 0, 0, 0]) = _
    rw [sampleCoinDb_started]
    rfl
  have pools : sampleAsked.node true =
      .up sampleSession (samplePooling sampleCoinDb (sampleSpend [])) false :=
    samplePooling_reached
  constructor
  · have status : (afterRead (sampleSession.around sampleEnv) sampleSnappy samplePeer
        (sampleFirstOn sampleCoinDb) [] [0, 9, 0, 0, 0]).status = .reading := by
      decide +kernel
    have up : sampleAsked.node false = .up sampleSession (afterRead (sampleSession.around sampleEnv)
        sampleSnappy samplePeer (sampleFirstOn sampleCoinDb) [] [0, 9, 0, 0, 0]).state false := by
      rw [asked, onRead]
      simp only [sampleSettings, status, settle, Bool.false_eq_true, if_false, reduceCtorEq,
        decide_false]
    exact ⟨_, up, by decide +kernel, (runs false _ _ _ up).1⟩
  · obtain ⟨began, pooled⟩ := runs true _ _ _ pools
    exact ⟨_, pools, by decide +kernel, began, pooled, talk⟩

end Runs

end Lyrion.Network
