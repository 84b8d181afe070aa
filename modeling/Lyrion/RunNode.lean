/- GID: Lyrion/RunNode
   digest: The node as a process: its start, the tasks that change the chain and the pool in any
     order, the locks it never gets back, its end at any moment, and its next start. -/

import Lyrion.Net.Bans
import Lyrion.Net.Peers
import Lyrion.Node.Restart
import Lyrion.Utils.Compact

set_option autoImplicit false
set_option relaxedAutoImplicit false

namespace Lyrion.RunNode

open Library.ByteCodec Library.KeyValue Library.Runs Data Utils Tx Node Net
open Relation

/-- What the configuration and the crates fix for every process of a node. -/
structure Settings where
  env : Env
  snappy : Snappy
  pubkey : Bytes
  genesis : Block
  created : createGenesisBlock env pubkey = .ok genesis
  maxMempoolSize : Nat
  txExpirationMs : Nat
  maxPeers : Nat
  seedNodes : List String

/-- What one process finds outside: the clock, the answers of the database and the orders of hash
tables. -/
structure Session where
  world : World
  choices : Nat → Choices
  instant : Nat → Nat
  clock : ClockFits world

def Session.around (env : Env) (session : Session) : Surroundings :=
  ⟨env, session.world, session.choices, session.instant⟩

/-- The same outside, with every write of a heavier block after the first ones failing: what a
process leaves that ends between two of them. -/
def Session.cut (session : Session) (writes : Nat) : Session :=
  { session with
    world := { session.world with
      outside := fun tick =>
        let o := session.world.outside tick
        { o with
          journalPut := o.journalPut && decide (0 < writes)
          reorgWrite := o.reorgWrite && decide (1 < writes)
          journalDelete := o.journalDelete && decide (2 < writes)
          saveWrite := o.saveWrite && decide (3 < writes) } } }

/-- A node without a process, with one, or with one whose chain no task can change any more, since
its lock is never free again. `readable` then says that the chain can still be read, and `peersHeld`
that the list of peers is locked for ever. -/
inductive Process
  | down (db : Db)
  | up (session : Session) (s : PeerManager) (peersHeld : Bool)
  | hung (session : Session) (c : Chain) (readable : Bool)

def Process.db : Process → Db
  | .down db => db
  | .up _ s _ => s.chain.db
  | .hung _ c _ => c.db

inductive Event
  | initDb (pubkey : Bytes)
  /-- A command that loads the chain, such as `Status`: a recovery, and then nothing is written. -/
  | command (setHash : Hash) (supply : UInt64)
  | start (session : Session) (setHash : Hash) (supply : UInt64)
  /-- A process that ends in its recovery. -/
  | halts (setHash : Hash) (supply : UInt64) (journals : Nat) (half : Bool)
  | read (peer : Peer) (buf : Bytes)
  | lost (peer : Peer)
  | joins (call : Newcomer)
  | sendTx (tx : Transaction)
  | cleans
  /-- The miner finds a nonce. -/
  | mined
  /-- A handler has the pool and waits for the chain, and another task has the chain and waits for
  the pool. -/
  | crossed
  /-- A task asks to write to the chain. -/
  | asks
  /-- The end on a signal, where it comes. A reader of a connection that the node has made itself is
  not aborted: if it keeps the chain locked, `main` waits, and the process only ends by `crash`. -/
  | stop
  | crash
  /-- The process ends after some of the writes for a block. -/
  | dies (block : Block) (writes : Nat)

variable (settings : Settings)

def newManager (c : Chain) : PeerManager where
  chain := c
  mempool := Mempool.new settings.maxMempoolSize
  knownPeers := settings.seedNodes
  pendingInv := ∅
  peers := ∅
  reputation := ∅
  bans := ∅
  bansPersistent := ∅
  inventory := []
  replies := []
  broadcasts := []
  tick := 0

def messageIn (snappy : Snappy) (buf : Bytes) : Option Message :=
  if buf.length > maxMessageSize then none
  else (unpack snappy buf).bind fun data =>
    if data.length < 4 then none else (parseMessage data).toOption

theorem messageIn_eq_some {snappy : Snappy} {buf : Bytes} {msg : Message} :
    messageIn snappy buf = some msg ↔ buf.length ≤ maxMessageSize ∧
      ∃ data, unpack snappy buf = some data ∧ 4 ≤ data.length ∧ parseMessage data = .ok msg := by
  simp only [messageIn, Option.ite_none_left_eq_some, gt_iff_lt, Nat.not_lt,
    Option.bind_eq_some_iff, toOption_eq_some]

/-- After a read that its reader goes on from. Once the list of peers is locked, a ban or an end of
a connection does not get at it, and the broadcast of a transaction waits with the chain read. -/
def settle (session : Session) (s : PeerManager) (peersHeld : Bool) (r : Reader PeerManager) :
    Process :=
  if peersHeld then
    if r.state.broadcasts.length = s.broadcasts.length then
      .up session { r.state with peers := s.peers } true
    else .hung session r.state.chain true
  -- `remove_peer` asks for the list that it has locked itself
  else .up session r.state (decide (r.status = .closed))

/-- After a read whose handler never returns. `add_block` has the chain, and waits for its own lock
or for the pool; an insertion reads the chain, and waits for `avg_fee`. -/
def stick (session : Session) (msg : Option Message) (c : Chain) : Process :=
  match msg with
  | some (.block block) =>
      match Locked.submit settings.env session.world true block c with
      | none => .hung session c false
      | some (_, c) => .hung session c false
  | _ => .hung session c true

def onRead (session : Session) (peer : Peer) (buf : Bytes) (s : PeerManager) (peersHeld : Bool) :
    Process :=
  let r := afterRead (session.around settings.env) settings.snappy peer s [] buf
  match r.status with
  | .stuck => stick settings session (messageIn settings.snappy buf) s.chain
  -- a panic in any task ends the process
  | .failed (.panic _) => .down r.state.chain.db
  | _ => settle session s peersHeld r

def onSendTx (session : Session) (tx : Transaction) (s : PeerManager) (peersHeld : Bool) :
    Process :=
  match Mempool.insertGuarded settings.env (session.choices s.tick) s.chain.db tx s.mempool with
  | none => .hung session s.chain true
  | some (_, m) => .up session { s with mempool := m, tick := s.tick + 1 } peersHeld

/-- `remove_peer` asks to read the list that it has locked itself. -/
def onLost (session : Session) (peer : Peer) (s : PeerManager) : Bool → Process
  | false => .up session (removePeer peer s) true
  | true => .up session s true

def onJoins (session : Session) (call : Newcomer) (s : PeerManager) : Bool → Process
  | false => .up session (addPeer (session.around settings.env) settings.maxPeers call s) false
  | true => .up session (isBanned (session.around settings.env) call.ip s).2 true

/-- The removal of the last entry divides by zero; the average that it finds is no matter. -/
def onCleans (session : Session) (s : PeerManager) (peersHeld : Bool) : Process :=
  let choices := session.choices s.tick
  let rated : Rated := ⟨s.mempool, choices.avgFee 0⟩
  match rated.cleanExpired .release choices settings.txExpirationMs with
  | .error _ => .down s.chain.db
  | .ok (_, rated) =>
      .up session { s with mempool := rated.pool, tick := s.tick + 1 } peersHeld

/-- The database of a process that ends inside `add_block`. -/
def midway (session : Session) (block : Block) (writes : Nat) (c : Chain) : Db :=
  match Locked.submit settings.env (session.cut writes).world true block c with
  | none => c.db
  | some (_, c) => c.db

/-- The orderly end, once `main` has the chain. -/
def shutDown (session : Session) (c : Chain) : Db :=
  stopChain settings.env (session.world.outside c.tick) c

def step : Process → Event → Process
  | .down db, .initDb pubkey => .down ((initDb settings.env pubkey db).toOption.getD db)
  | .down db, .command setHash supply => .down (recoverLeaves settings.env setHash supply db).2
  | .down db, .start session setHash supply =>
      match startChain settings.env session.world setHash supply settings.genesis db with
      | (.ok c, _) => .up session (newManager settings c) false
      | (.error _, db) => .down db
  | .down db, .halts setHash supply journals half =>
      .down (recoverHalted settings.env setHash supply db journals half)
  | .down db, _ => .down db
  | .up session s held, .read peer buf => onRead settings session peer buf s held
  | .up session s held, .lost peer => onLost session peer s held
  | .up session s held, .joins call => onJoins settings session call s held
  | .up session s held, .sendTx tx => onSendTx settings session tx s held
  | .up session s held, .cleans => onCleans settings session s held
  -- the miner keeps its read guard to the end of the round and then asks to write
  | .up session s _, .mined => .hung session s.chain false
  | .up session s _, .crossed => .hung session s.chain false
  | .up session s held, .asks => .up session s held
  | .up session s _, .stop => .down (shutDown settings session s.chain)
  | .up _ s _, .crash => .down s.chain.db
  | .up session s _, .dies block writes => .down (midway settings session block writes s.chain)
  -- the database is open in one process at a time
  | .up session s held, .initDb _ => .up session s held
  | .up session s held, .command _ _ => .up session s held
  | .up session s held, .start _ _ _ => .up session s held
  | .up session s held, .halts _ _ _ _ => .up session s held
  | .hung session c _, .stop => .down (shutDown settings session c)
  | .hung _ c _, .crash => .down c.db
  | .hung session c _, .asks => .hung session c false
  | .hung session c readable, _ => .hung session c readable

def life (db : Db) (events : List Event) : Process := run (step settings) (.down db) events

/-- One change of the chain and the pool by a handler in a process that goes on. -/
inductive Move (env : Env) (session : Session) : Chain × Mempool → Chain × Mempool → Prop
  | file (block : Block) (c : Chain) (m : Mempool) (r : Result Submitted × Chain)
      (filed : Locked.submit env session.world true block c = some r)
      (refused : ∀ height reorg, r.1 ≠ .ok (.accepted height reorg)) :
      Move env session (c, m) (r.2, m)
  | insert (choices : Choices) (tx : Transaction) (c : Chain) (m m' : Mempool)
      (result : Result Bool)
      (inserted : m.insertGuarded env choices c.db tx = some (result, m')) :
      Move env session (c, m) (c, m')

def holdings (s : PeerManager) : Chain × Mempool := (s.chain, s.mempool)

def Moves (env : Env) (session : Session) (s s' : PeerManager) : Prop :=
  ReflTransGen (Move env session) (holdings s) (holdings s')

section Handling

variable {settings} {env : Env} {session : Session} {s s' : PeerManager} {peer : Peer}

private theorem moves_of_same (same : holdings s' = holdings s) : Moves env session s s' := by
  rw [Moves, same]

theorem holdings_decreaseReputation (around : Surroundings) :
    holdings (decreaseReputation around peer s) = holdings s := by
  simp only [decreaseReputation]
  split <;> rfl

theorem holdings_removePeer : holdings (removePeer peer s) = holdings s := by
  unfold removePeer
  split <;> rfl

private theorem holdings_addPeer (around : Surroundings) (maxPeers : Nat) (call : Newcomer) :
    holdings (addPeer around maxPeers call s) = holdings s := by
  unfold addPeer
  simp only
  split
  · rfl
  · unfold considerPeer
    split
    · rfl
    · split
      · rfl
      · split
        · rfl
        · simp only
          split
          · unfold welcome
            split <;> rfl
          · exact holdings_decreaseReputation around

private theorem moves_addHeaders {headers : List BlockHeader} {prevHash : Hash}
    {result : Result Unit}
    (added : addHeaders (session.around env) headers prevHash s = some (result, s')) :
    Moves env session s s' := by
  induction headers generalizing prevHash s with
  | nil =>
      obtain ⟨-, rfl⟩ := Prod.mk.inj (Option.some.inj added)
      exact moves_of_same rfl
  | cons header rest ih =>
      obtain ⟨refused, -⟩ := submit_light env session.world header s.chain
      have filed : Move env session (holdings s)
          ((submit env session.world ⟨header, []⟩ s.chain).2, s.mempool) :=
        .file ⟨header, []⟩ s.chain s.mempool _
          (locked_submit_light env session.world header s.chain) refused
      rw [addHeaders_cons] at added
      simp only [Session.around, addBlock_light] at added
      split at added
      · obtain ⟨-, rfl⟩ := Prod.mk.inj (Option.some.inj added)
        exact moves_of_same rfl
      · split at added
        · obtain ⟨-, rfl⟩ := Prod.mk.inj (Option.some.inj added)
          exact moves_of_same rfl
        · split at added
          · obtain ⟨-, rfl⟩ := Prod.mk.inj (Option.some.inj added)
            exact .single filed
          · exact ReflTransGen.head filed (ih added)

private theorem moves_serve {choices : Choices} {msg : Message} {result : Result Unit}
    (served : serve (session.around env) choices peer s msg = some (result, s')) :
    Moves env session s s' := by
  cases msg with
  | inv kind hash =>
      obtain ⟨-, rfl⟩ := Prod.mk.inj (Option.some.inj served)
      exact moves_of_same rfl
  | getData kind hash =>
      simp only [serve] at served
      split at served
      · split at served <;> obtain ⟨-, rfl⟩ := Prod.mk.inj (Option.some.inj served) <;>
          exact moves_of_same rfl
      · split at served
        · split at served
          · obtain ⟨-, rfl⟩ := Prod.mk.inj (Option.some.inj served)
            exact moves_of_same rfl
          · split at served <;> obtain ⟨-, rfl⟩ := Prod.mk.inj (Option.some.inj served) <;>
              exact moves_of_same rfl
        · obtain ⟨-, rfl⟩ := Prod.mk.inj (Option.some.inj served)
          exact moves_of_same rfl
  | getHeaders locator stop =>
      simp only [serve] at served
      split at served <;> obtain ⟨-, rfl⟩ := Prod.mk.inj (Option.some.inj served) <;>
        exact moves_of_same rfl
  | tx tx =>
      simp only [serve] at served
      split at served
      · exact absurd served (by simp)
      · rename_i m inserted
        obtain ⟨-, rfl⟩ := Prod.mk.inj (Option.some.inj served)
        exact .single (.insert choices tx s.chain s.mempool m _ inserted)
      · rename_i m _ inserted
        obtain ⟨-, rfl⟩ := Prod.mk.inj (Option.some.inj served)
        exact .single (.insert choices tx s.chain s.mempool m _ inserted)
  | block block =>
      simp only [serve, addBlockHoldingPool, Session.around] at served
      rcases submitted : Locked.submit env session.world true block s.chain with
        _ | ⟨e | (_ | _ | _), c⟩
      · simp [submitted] at served
      · simp only [submitted] at served
        obtain ⟨-, rfl⟩ := Prod.mk.inj (Option.some.inj served)
        exact .single (.file block s.chain s.mempool _ submitted (by simp))
      · simp only [submitted] at served
        obtain ⟨-, rfl⟩ := Prod.mk.inj (Option.some.inj served)
        exact .single (.file block s.chain s.mempool _ submitted (by simp))
      · simp only [submitted] at served
        obtain ⟨-, rfl⟩ := Prod.mk.inj (Option.some.inj served)
        exact .single (.file block s.chain s.mempool _ submitted (by simp))
      · simp [submitted] at served
  | headers headers =>
      cases headers with
      | nil =>
          obtain ⟨-, rfl⟩ := Prod.mk.inj (Option.some.inj served)
          exact moves_of_same rfl
      | cons first rest => exact moves_addHeaders served
  | getAddr =>
      obtain ⟨-, rfl⟩ := Prod.mk.inj (Option.some.inj served)
      exact moves_of_same rfl
  | addr addrs =>
      obtain ⟨-, rfl⟩ := Prod.mk.inj (Option.some.inj served)
      exact moves_of_same rfl
  | pong =>
      obtain ⟨-, rfl⟩ := Prod.mk.inj (Option.some.inj served)
      exact moves_of_same rfl

private theorem moves_handleMessage {data : Bytes} {result : Result Unit}
    (handled : handleMessage (session.around env) peer data s = some (result, s')) :
    Moves env session s s' := by
  rcases handleMessage_cases (session.around env) peer data s with
    ⟨-, short⟩ | ⟨-, -, taken⟩ | ⟨-, ⟨fault, -, refused⟩ | ⟨msg, parsed, served⟩⟩
  · obtain ⟨-, rfl⟩ := Prod.mk.inj (Option.some.inj (short.symm.trans handled))
    exact moves_of_same rfl
  · obtain ⟨-, rfl⟩ := Prod.mk.inj (Option.some.inj (taken.symm.trans handled))
    exact moves_of_same (holdings_decreaseReputation _)
  · obtain ⟨-, rfl⟩ := Prod.mk.inj (Option.some.inj (refused.symm.trans handled))
    exact moves_of_same rfl
  · have same : holdings (entered peer data s) = holdings s := rfl
    have moved : Moves env session (entered peer data s) s' :=
      moves_serve (served.symm.trans handled)
    rwa [Moves, same] at moved

private theorem moves_afterRead (snappy : Snappy) (peer : Peer) (buf : Bytes) (s : PeerManager) :
    Moves env session s (afterRead (session.around env) snappy peer s [] buf).state := by
  rcases readerStep_cases snappy (handleMessage (session.around env) peer)
      (decreaseReputation (session.around env) peer) (removePeer peer) [] s (.read buf) with
    ⟨-, status, after, -, kept, step⟩ | ⟨read, -, -, step⟩ |
      ⟨read, data, same, sized, unpacked, step⟩
  · rw [afterRead, step]
    rcases kept with rfl | rfl
    · exact moves_of_same rfl
    · exact moves_of_same holdings_removePeer
  · rw [afterRead, step]
    exact moves_of_same (holdings_decreaseReputation _)
  · rw [afterRead, step]
    cases handled : handleMessage (session.around env) peer data s with
    | none => exact moves_of_same rfl
    | some answer =>
        obtain ⟨(e | place) | done, s'⟩ := answer
        · have penalised : holdings (decreaseReputation (session.around env) peer s') =
              holdings s' := holdings_decreaseReputation _
          have moved := moves_handleMessage handled
          rw [Moves, ← penalised] at moved
          exact moved
        all_goals exact moves_handleMessage handled

/-- Where a handler leaves the process: behind a lock, with the chain as it was after some changes
or after a block that was accepted, at its end by a panic, or in its loop after some changes. -/
inductive Handled (settings : Settings) (session : Session) (s : PeerManager) : Process → Prop
  | waits (s' : PeerManager) (readable : Bool) (moves : Moves settings.env session s s') :
      Handled settings session s (.hung session s'.chain readable)
  | accepted (block : Block) (height : Nat) (reorg : Bool) (c : Chain)
      (submitted : Locked.submit settings.env session.world true block s.chain =
        some (.ok (.accepted height reorg), c)) :
      Handled settings session s (.hung session c false)
  | aborts (s' : PeerManager) (moves : Moves settings.env session s s') :
      Handled settings session s (.down s'.chain.db)
  | goesOn (s' : PeerManager) (held : Bool) (moves : Moves settings.env session s s') :
      Handled settings session s (.up session s' held)

private theorem handled_settle {held : Bool} {r : Reader PeerManager}
    (moves : Moves settings.env session s r.state) :
    Handled settings session s (settle session s held r) := by
  unfold settle
  split
  · split
    · exact .goesOn _ true moves
    · exact .waits r.state true moves
  · exact .goesOn _ _ moves

private theorem handled_stick (msg : Option Message) :
    Handled settings session s (stick settings session msg s.chain) := by
  have still : Moves settings.env session s s := moves_of_same rfl
  unfold stick
  split
  · rename_i block
    split
    · exact .waits s false still
    · rename_i result c submitted
      rcases result with e | (_ | _ | ⟨height, reorg⟩)
      · exact .waits { s with chain := c } false
          (.single (.file block s.chain s.mempool _ submitted (by simp)))
      · exact .waits { s with chain := c } false
          (.single (.file block s.chain s.mempool _ submitted (by simp)))
      · exact .waits { s with chain := c } false
          (.single (.file block s.chain s.mempool _ submitted (by simp)))
      · exact .accepted block height reorg c submitted
  · exact .waits s true still

private theorem handled_onRead (peer : Peer) (buf : Bytes) (held : Bool) :
    Handled settings session s (onRead settings session peer buf s held) := by
  have moves : Moves settings.env session s _ :=
    moves_afterRead settings.snappy peer buf s
  unfold onRead
  simp only
  split
  · exact handled_stick _
  · exact .aborts _ moves
  · exact handled_settle moves

/-- The events of one process that neither end it from outside nor clean its pool. -/
def Event.isWork : Event → Bool
  | .start _ _ _ | .cleans | .stop | .crash | .dies _ _ => false
  | _ => true

variable (settings session s) in
theorem handled_step (event : Event) (held : Bool) (work : event.isWork = true) :
    Handled settings session s (step settings (.up session s held) event) := by
  have still : Moves settings.env session s s := moves_of_same rfl
  cases event with
  | read peer buf => exact handled_onRead peer buf held
  | lost peer =>
      cases held with
      | false => exact .goesOn _ _ (moves_of_same holdings_removePeer)
      | true => exact .goesOn _ _ still
  | joins call =>
      cases held with
      | false => exact .goesOn _ _ (moves_of_same (holdings_addPeer _ _ _))
      | true => exact .goesOn _ _ (moves_of_same rfl)
  | sendTx tx =>
      simp only [step, onSendTx]
      split
      · exact .waits s true still
      · rename_i result m inserted
        exact .goesOn _ _ (.single (.insert _ tx s.chain s.mempool m result inserted))
  | mined => exact .waits s false still
  | crossed => exact .waits s false still
  | asks => exact .goesOn _ _ still
  | cleans => exact absurd work (by simp [Event.isWork])
  | stop => exact absurd work (by simp [Event.isWork])
  | crash => exact absurd work (by simp [Event.isWork])
  | dies block writes => exact absurd work (by simp [Event.isWork])
  | initDb pubkey => exact .goesOn _ _ still
  | command setHash supply => exact .goesOn _ _ still
  | start other setHash supply => exact absurd work (by simp [Event.isWork])
  | halts setHash supply journals half => exact .goesOn _ _ still

end Handling

/-! An invariant of a node over all of its processes. `Disk` holds of the database between two of
them, `Runs` of the chain and the pool of a process that goes on, and `Waits` of the chain once no
task gets at it. -/

section Lasting

variable {settings} {Disk : Db → Prop} {Runs : Session → Chain → Mempool → Prop}
  {Waits : Session → Chain → Prop}

def Throughout (Disk : Db → Prop) (Runs : Session → Chain → Mempool → Prop)
    (Waits : Session → Chain → Prop) : Process → Prop
  | .down db => Disk db
  | .up session s _ => Runs session s.chain s.mempool
  | .hung session c _ => Waits session c

variable (settings Disk Runs Waits) in
/-- What is to be shown of each part of the node. -/
structure Lasting : Prop where
  initialised : ∀ pubkey db after, Disk db → initDb settings.env pubkey db = .ok after → Disk after
  started : ∀ session setHash supply db c left, Disk db →
    startChain settings.env session.world setHash supply settings.genesis db = (.ok c, left) →
    Runs session c (Mempool.new settings.maxMempoolSize)
  failed : ∀ (session : Session) setHash supply db e left, Disk db →
    startChain settings.env session.world setHash supply settings.genesis db = (.error e, left) →
    Disk left
  halted : ∀ setHash supply db journals half, Disk db →
    Disk (recoverHalted settings.env setHash supply db journals half)
  moved : ∀ session before after, Runs session before.1 before.2 →
    Move settings.env session before after → Runs session after.1 after.2
  cleaned : ∀ session choices expirationMs c m, Runs session c m →
    Runs session c (m.cleanExpired choices expirationMs).2
  locked : ∀ session c m, Runs session c m → Waits session c
  accepted : ∀ session block height reorg c c' m, Runs session c m →
    Locked.submit settings.env session.world true block c =
      some (.ok (.accepted height reorg), c') →
    Waits session c'
  ended : ∀ session c, Waits session c → Disk c.db
  shut : ∀ session c, Waits session c → Disk (shutDown settings session c)
  died : ∀ session block writes c r, Waits session c →
    Locked.submit settings.env (session.cut writes).world true block c = some r → Disk r.2.db

private theorem Lasting.moves (lasting : Lasting settings Disk Runs Waits) {session : Session}
    {s s' : PeerManager} (holds : Runs session s.chain s.mempool)
    (moves : Moves settings.env session s s') : Runs session s'.chain s'.mempool := by
  have all : ∀ after, ReflTransGen (Move settings.env session) (holdings s) after →
      Runs session after.1 after.2 := by
    intro after reached
    induction reached with
    | refl => exact holds
    | tail _ move ih => exact lasting.moved session _ _ ih move
  exact all _ moves

private theorem Lasting.step (lasting : Lasting settings Disk Runs Waits) (node : Process)
    (event : Event) (holds : Throughout Disk Runs Waits node) :
    Throughout Disk Runs Waits (step settings node event) := by
  cases node with
  | down db =>
      cases event with
      | initDb pubkey =>
          simp only [RunNode.step]
          cases done : initDb settings.env pubkey db with
          | error e => exact holds
          | ok after => exact lasting.initialised pubkey db after holds done
      | command setHash supply =>
          have whole := lasting.halted setHash supply db (pendingKeys db).length false holds
          rw [recoverHalted_all] at whole
          exact whole
      | start session setHash supply =>
          simp only [RunNode.step]
          split
          · rename_i c left started
            exact lasting.started session setHash supply db c left holds started
          · rename_i e left failed
            exact lasting.failed session setHash supply db e left holds failed
      | halts setHash supply journals half => exact lasting.halted _ _ _ _ _ holds
      | _ => exact holds
  | hung session c readable =>
      cases event with
      | stop => exact lasting.shut session c holds
      | crash => exact lasting.ended session c holds
      | _ => exact holds
  | up session s held =>
      have waits := lasting.locked session _ _ holds
      by_cases work : event.isWork = true
      · have handled := handled_step settings session s event held work
        generalize RunNode.step settings (.up session s held) event = node at handled
        cases handled with
        | waits s' readable moves => exact lasting.locked session _ _ (lasting.moves holds moves)
        | aborts s' moves =>
            exact lasting.ended session _ (lasting.locked session _ _ (lasting.moves holds moves))
        | accepted block height reorg c submitted =>
            exact lasting.accepted session block height reorg _ c _ holds submitted
        | goesOn s' held moves => exact lasting.moves holds moves
      · cases event with
        | cleans =>
            simp only [RunNode.step, onCleans]
            split
            · exact lasting.ended session _ waits
            · rename_i outcome rated done
              have kept := lasting.cleaned session (session.choices s.tick) settings.txExpirationMs
                _ _ holds
              rw [Rated.cleanExpired_pool done] at kept
              exact kept
        | start other setHash supply => exact holds
        | stop => exact lasting.shut session _ waits
        | crash => exact lasting.ended session _ waits
        | dies block writes =>
            simp only [RunNode.step, midway]
            split
            · exact lasting.ended session _ waits
            · rename_i result c submitted
              exact lasting.died session block writes s.chain _ waits submitted
        | _ => exact absurd rfl work

theorem keeps_locked {env : Env} {world : World} {Inv : Chain → Prop} {Allowed : Block → Prop}
    (keeps : Keeps env world Inv Allowed) {block : Block} {c : Chain}
    {r : Result Submitted × Chain} (inv : Inv c) (allowed : Allowed block)
    (submitted : Locked.submit env world true block c = some r) : Inv r.2 := by
  rw [(locked_submit_eq_some.mp submitted).1]
  exact keeps.submit block c inv allowed

theorem Lasting.life (lasting : Lasting settings Disk Runs Waits) {db : Db} (start : Disk db)
    (events : List Event) : Throughout Disk Runs Waits (life settings db events) := by
  have begun : Throughout Disk Runs Waits (.down db) := start
  refine run_invariant _ (Throughout Disk Runs Waits) begun ?_ events [] (List.append_nil _).symm
  intro before event _ _ holds
  exact lasting.step _ event holds

end Lasting

section Sample

private theorem createGenesisBlock_first {env : Env} {pubkey : Bytes} {hash : Hash}
    (hashed : headerHash env (genesisHeader env pubkey 0) = .ok hash)
    (low : u256FromBe hash ≤ 0xffff * 2 ^ 208) :
    createGenesisBlock env pubkey =
      .ok ⟨genesisHeader env pubkey 0, [genesisCoinbase env pubkey]⟩ := by
  obtain ⟨fuel, enough⟩ : ∃ fuel, 2 ^ 64 = fuel + 1 := ⟨2 ^ 64 - 1, by norm_num⟩
  simp only [createGenesisBlock, compactToTarget_genesis, enough, mineGenesis, hashed, low, if_true,
    bind, Except.bind, pure, Except.pure]

private theorem sampleHash_genesis :
    headerHash sampleEnv (sampleBlock []).header = .ok (sampleHash (sampleBlock [])) := by
  decide +kernel

private theorem sampleHash_genesis_low : u256FromBe (sampleHash (sampleBlock [])) ≤ 0xffff * 2 ^
    208 := by
  decide +kernel

def sampleSettings : Settings where
  env := sampleEnv
  snappy := sampleSnappy
  pubkey := [7]
  genesis := sampleBlock []
  created := createGenesisBlock_first sampleHash_genesis sampleHash_genesis_low
  maxMempoolSize := 1000000
  txExpirationMs := 3600000
  maxPeers := 100
  seedNodes := []

def sampleSession : Session where
  world := sampleWorld
  choices _ := Mempool.sampleChoices
  instant tick := tick
  clock tick now same := by
    obtain rfl := Option.some.inj same
    decide

def sampleFirstOn (db : Db) : PeerManager :=
  newManager sampleSettings (((Chain.new sampleEnv sampleWorld db (sampleBlock [])).1.toOption).getD
    (blank db zeroHash))

private theorem sampleFirstOn_started {db : Db} (clear : NoJournal db)
    (tipless : get db .default tipKey = none)
    (succeeds : (Chain.new sampleEnv sampleWorld db (sampleBlock [])).1.isOk = true) :
    life sampleSettings db [.start sampleSession zeroHash 0] =
      .up sampleSession (sampleFirstOn db) false := by
  have recovered : recoverLeaves sampleEnv zeroHash 0 db = (.ok (), db) := by
    rw [recoverLeaves, noJournal_iff.mp clear]
    rfl
  have unloaded : loadFromDb sampleEnv zeroHash 0 db = fail (.anyhow "Missing tip") := by
    rw [loadFromDb, recoverPendingReorgs_eq_leaves, recovered]
    show (do let _ ← orFail (.anyhow "Missing tip") (get db .default tipKey); _) = _
    rw [tipless]
    rfl
  have begun : startChain sampleEnv sampleWorld zeroHash 0 (sampleBlock []) db =
      Chain.new sampleEnv sampleWorld db (sampleBlock []) := by
    rw [startChain, unloaded, recovered]
    rfl
  obtain ⟨c, started⟩ := exists_of_isOk succeeds
  have whole : Chain.new sampleEnv sampleWorld db (sampleBlock []) =
      (.ok c, (Chain.new sampleEnv sampleWorld db (sampleBlock [])).2) := Prod.ext started rfl
  show (match startChain sampleEnv sampleWorld zeroHash 0 (sampleBlock []) db with
    | (.ok c, _) => Process.up sampleSession (newManager sampleSettings c) false
    | (.error _, db) => .down db) = _
  rw [begun, whole, sampleFirstOn, started]
  rfl

def samplePooling (db : Db) (tx : Transaction) : PeerManager :=
  let first := sampleFirstOn db
  let inserted := Mempool.insertGuarded sampleEnv Mempool.sampleChoices first.chain.db tx
    first.mempool
  { first with mempool := inserted.elim first.mempool Prod.snd, tick := 1 }

private theorem step_sendTx_of_inserted {session : Session} {s : PeerManager} {held : Bool}
    {tx : Transaction} (settings : Settings)
    (returns : (Mempool.insertGuarded settings.env (session.choices s.tick) s.chain.db tx
      s.mempool).isSome = true) :
    step settings (.up session s held) (.sendTx tx) =
      .up session { s with
        mempool := (Mempool.insertGuarded settings.env (session.choices s.tick) s.chain.db tx
          s.mempool).elim s.mempool Prod.snd
        tick := s.tick + 1 } held := by
  obtain ⟨⟨result, m⟩, inserted⟩ := Option.isSome_iff_exists.mp returns
  simp only [step, onSendTx, inserted, Option.elim_some]

theorem sampleCoinDb_started :
    life sampleSettings sampleCoinDb [.start sampleSession zeroHash 0] =
      .up sampleSession (sampleFirstOn sampleCoinDb) false :=
  sampleFirstOn_started (fun _ => rfl) rfl (by decide +kernel)

theorem samplePooling_reached :
    life sampleSettings sampleCoinDb [.start sampleSession zeroHash 0, .sendTx (sampleSpend [])] =
      .up sampleSession (samplePooling sampleCoinDb (sampleSpend [])) false := by
  show step sampleSettings (life sampleSettings sampleCoinDb [.start sampleSession zeroHash 0])
    (.sendTx (sampleSpend [])) = _
  rw [sampleCoinDb_started]
  exact step_sendTx_of_inserted sampleSettings (by decide +kernel)

end Sample

end Lyrion.RunNode
