/- GID: Lyrion/RunNode/Locks
   digest: The locks of a running node: which handlers always come to their end, which wait for
     themselves, and which wait for one another. -/

import Lyrion.Library.FairLocks
import Lyrion.RunNode

set_option autoImplicit false
set_option relaxedAutoImplicit false

namespace Lyrion.RunNode.Locks

open Library.ByteCodec Library.FairLocks Data Tx Node Net
open Relation

/-! The locks of the node. A `Mutex` is a lock that is only ever written, and so is the part of a
`DashMap` that an entry is in. The lock of each connection's stream is left out: no other lock is
asked for with it. -/

inductive LockName
  | pendingInv
  | chain
  | mempool
  | stateLock
  | state
  | targetCache
  | peers
  | peersById
  | knownPeers
  | bans
  | bansPersistent
  | heap
  | ttlHeap
  | lru
  | avgFee
  | maxSize
  | maintenanceLock
  deriving DecidableEq

def briefly (l : LockName) (mode : Mode) : List (Act LockName) := holding l mode []

def repeated (n : Nat) (body : List (Act LockName)) : List (Act LockName) :=
  (List.replicate n body).flatten

/-- How far `add_block` gets with a block that it does not take. `measured` has the number of blocks
whose operations were built before it failed. -/
inductive Refusal
  | unhashed
  | known
  | orphan
  | invalid
  | measured (built : Nat)

/-- The reads of `state` by `add_block`, and the one use of `target_cache`. -/
def Refusal.reads : Refusal → List (Act LockName)
  | .unhashed => []
  | .known => briefly .state .read
  | .orphan | .invalid => repeated 2 (briefly .state .read)
  | .measured built =>
      repeated 2 (briefly .state .read) ++ briefly .targetCache .write ++
        repeated 2 (briefly .state .read) ++ repeated built (repeated 3 (briefly .state .read))

inductive Filing
  | refused (refusal : Refusal)
  /-- `apply_block_action` takes `state_lock` again. -/
  | lighter
  /-- `add_block` takes the pool to remove what the block has confirmed. -/
  | accepted (built : Nat)

def addBlock : Filing → List (Act LockName)
  | .refused refusal => holding .stateLock .write refusal.reads
  | .lighter =>
      holding .stateLock .write ((Refusal.measured 0).reads ++ briefly .stateLock .write)
  | .accepted built =>
      holding .stateLock .write ((Refusal.measured built).reads ++ briefly .mempool .write)

inductive Insertion
  | refused
  | stored
  /-- The pool is over its limits: `evict_low_fee_package` asks for `avg_fee`, as does the removal
  of an orphaned entry. -/
  | evicts
  deriving DecidableEq

def Insertion.inner : Insertion → List (Act LockName)
  | .refused => []
  | .stored =>
      briefly .heap .write ++ briefly .ttlHeap .write ++
        holding .lru .write (holding .avgFee .write (briefly .maxSize .read))
  | .evicts =>
      briefly .heap .write ++ briefly .ttlHeap .write ++
        holding .lru .write (holding .avgFee .write
          (briefly .maxSize .read ++ briefly .avgFee .write ++ briefly .heap .write))

/-- Where `add_peer` ends, or that it gets to serve the connection. -/
inductive Joining
  | banned
  | full
  | refused (bans : Bool)
  | served

def isBanned : List (Act LockName) := holding .bans .write (briefly .bansPersistent .write)

def broadcast : List (Act LockName) := briefly .peers .read

def banIp : List (Act LockName) :=
  briefly .bans .write ++ briefly .bansPersistent .write ++ briefly .peers .write

def decreaseReputation (bans : Bool) : List (Act LockName) := if bans then banIp else []

def handshake : List (Act LockName) := briefly .chain .read

def addPeer : Joining → List (Act LockName)
  | .banned => isBanned
  | .full => isBanned ++ briefly .peers .read
  | .refused bans => isBanned ++ briefly .peers .read ++ handshake ++ decreaseReputation bans
  | .served =>
      isBanned ++ briefly .peers .read ++ handshake ++ briefly .knownPeers .write ++ broadcast ++
        briefly .peers .write ++ briefly .peersById .write

/-- The parts of the node that take locks, by the path they take. A task runs one after another. -/
inductive Handler
  | addPeer (joining : Joining)
  | reconnect
  /-- An inventory, or one too many and whether the penalty for it is a ban. -/
  | inv (flood : Option Bool)
  | getDataTx
  | getDataBlock
  | getHeaders
  | tx (insertion : Insertion)
  | block (filing : Filing)
  | headers (refusals : List Refusal)
  | getAddr
  | addr
  | ping
  | penalty (bans : Bool)
  | removePeer
  | inventory (looksUp : Bool)
  | minerWaits
  | minerInterrupted
  | minerFinds (filing : Filing)
  | backup
  | cleanExpired (removed : List Nat)
  | getHeight
  | getBlock
  | getMempool
  | sendTx (insertion : Insertion)
  | shutDown

def Handler.program : Handler → List (Act LockName)
  | .addPeer joining => Locks.addPeer joining
  | .reconnect => briefly .peers .read ++ briefly .knownPeers .read
  -- the entry of the counter is held until the penalty is over
  | .inv none => briefly .pendingInv .write
  | .inv (some bans) => holding .pendingInv .write (decreaseReputation bans)
  | .ping => []
  | .getDataTx => briefly .mempool .read
  | .getDataBlock => briefly .chain .read
  | .getHeaders => holding .chain .read (briefly .state .read)
  | .tx insertion =>
      holding .mempool .write (holding .chain .read
        (insertion.inner ++ if insertion = .refused then [] else broadcast))
  | .block filing => holding .chain .write (holding .mempool .write (addBlock filing))
  | .headers refusals =>
      holding .chain .write (refusals.map fun refusal => addBlock (.refused refusal)).flatten
  | .getAddr => briefly .knownPeers .read
  | .addr => briefly .knownPeers .write
  | .penalty bans => decreaseReputation bans
  | .removePeer =>
      holding .peers .write (holding .peersById .write (briefly .peers .read))
  | .inventory looksUp =>
      holding .chain .write (holding .mempool .write
        (if looksUp then briefly .state .read else []))
  | .minerWaits => briefly .chain .read
  -- the guard of the round lives on while the tip is read again
  | .minerInterrupted => holding .chain .read (briefly .mempool .read ++ briefly .chain .read)
  | .minerFinds filing =>
      holding .chain .read (briefly .mempool .read ++ briefly .chain .read ++
        holding .chain .write (addBlock filing))
  | .backup => holding .maintenanceLock .write (briefly .maintenanceLock .write)
  | .cleanExpired removed =>
      holding .mempool .write (briefly .ttlHeap .read ++
        (removed.map fun entries =>
          repeated entries (briefly .avgFee .write) ++ briefly .ttlHeap .write).flatten)
  | .getHeight => briefly .chain .read
  | .getBlock => holding .chain .read (briefly .state .read)
  | .getMempool => briefly .mempool .read
  | .sendTx insertion => holding .mempool .write (holding .chain .read insertion.inner)
  | .shutDown => holding .chain .read (briefly .state .read)

def Handler.waitsForItself : Handler → Bool
  | .block (.refused _) => false
  | .block _ | .removePeer | .minerFinds _ | .backup | .tx .evicts | .sendTx .evicts => true
  | _ => false

/-- The handlers that keep to the order of `rank` and yield their thread while they wait. Who waits
for `pending_inv` blocks a thread of the runtime, and its holder may need one to go on. -/
def Handler.keepsOrder : Handler → Bool
  | .inv _ | .tx _ | .sendTx _ | .minerInterrupted => false
  | handler => !handler.waitsForItself

def rank : LockName → Nat
  | .pendingInv => 0
  | .bans => 1
  | .bansPersistent => 2
  | .chain => 3
  | .mempool => 4
  | .stateLock => 5
  | .targetCache => 6
  | .state => 7
  | .heap => 8
  | .ttlHeap => 9
  | .lru => 10
  | .avgFee => 11
  | .maxSize => 12
  | .knownPeers => 13
  | .peers => 14
  | .peersById => 15
  | .maintenanceLock => 16

private theorem rank_le (l : LockName) : rank l ≤ 16 := by
  cases l <;> simp [rank]

section Paths

private theorem balanced_briefly (l : LockName) (mode : Mode) : Balanced (briefly l mode) :=
  .holding l mode .nil

private theorem balanced_repeated (n : Nat) {body : List (Act LockName)}
    (balanced : Balanced body) :
    Balanced (repeated n body) := by
  apply Balanced.flatten
  intro other there
  rwa [List.eq_of_mem_replicate there]

private theorem balanced_reads (refusal : Refusal) : Balanced refusal.reads := by
  have twice := balanced_repeated 2 (balanced_briefly .state .read)
  cases refusal with
  | unhashed => exact .nil
  | known => exact balanced_briefly .state .read
  | orphan => exact twice
  | invalid => exact twice
  | measured built =>
      refine .append (.append (.append twice (balanced_briefly .targetCache .write)) twice) ?_
      exact balanced_repeated built (balanced_repeated 3 (balanced_briefly .state .read))

private theorem balanced_addBlock (filing : Filing) : Balanced (addBlock filing) := by
  cases filing with
  | refused refusal => exact .holding _ _ (balanced_reads refusal)
  | lighter => exact .holding _ _ (.append (balanced_reads _) (balanced_briefly _ _))
  | accepted built => exact .holding _ _ (.append (balanced_reads _) (balanced_briefly _ _))

private theorem balanced_inner (insertion : Insertion) : Balanced insertion.inner := by
  have pushed : Balanced (briefly .heap .write ++ briefly .ttlHeap .write) :=
    .append (balanced_briefly _ _) (balanced_briefly _ _)
  cases insertion with
  | refused => exact .nil
  | stored => exact .append pushed (.holding _ _ (.holding _ _ (balanced_briefly _ _)))
  | evicts =>
      refine .append pushed (.holding _ _ (.holding _ _ ?_))
      exact .append (.append (balanced_briefly _ _) (balanced_briefly _ _)) (balanced_briefly _ _)

private theorem balanced_banIp : Balanced banIp :=
  .append (.append (balanced_briefly _ _) (balanced_briefly _ _)) (balanced_briefly _ _)

private theorem balanced_decreaseReputation (bans : Bool) : Balanced (decreaseReputation bans) := by
  cases bans with
  | false => exact .nil
  | true => exact balanced_banIp

private theorem balanced_addPeer (joining : Joining) : Balanced (addPeer joining) := by
  have asked : Balanced isBanned := .holding _ _ (balanced_briefly _ _)
  have counted := Balanced.append asked (balanced_briefly .peers .read)
  have greeted := Balanced.append counted (balanced_briefly .chain .read)
  cases joining with
  | banned => exact asked
  | full => exact counted
  | refused bans => exact .append greeted (balanced_decreaseReputation bans)
  | served =>
      exact .append (.append (.append (.append greeted (balanced_briefly _ _))
        (balanced_briefly _ _)) (balanced_briefly _ _)) (balanced_briefly _ _)

private theorem balanced_program (handler : Handler) : Balanced handler.program := by
  cases handler with
  | addPeer joining => exact balanced_addPeer joining
  | reconnect => exact .append (balanced_briefly _ _) (balanced_briefly _ _)
  | inv flood =>
      cases flood with
      | none => exact balanced_briefly _ _
      | some bans => exact .holding _ _ (balanced_decreaseReputation bans)
  | ping => exact .nil
  | getHeaders => exact .holding _ _ (balanced_briefly _ _)
  | tx insertion =>
      refine .holding _ _ (.holding _ _ (.append (balanced_inner insertion) ?_))
      split
      · exact .nil
      · exact balanced_briefly _ _
  | block filing => exact .holding _ _ (.holding _ _ (balanced_addBlock filing))
  | headers refusals =>
      refine .holding _ _ (.flatten fun body there => ?_)
      obtain ⟨refusal, -, rfl⟩ := List.mem_map.mp there
      exact balanced_addBlock _
  | penalty bans => exact balanced_decreaseReputation bans
  | removePeer => exact .holding _ _ (.holding _ _ (balanced_briefly _ _))
  | inventory looksUp =>
      refine .holding _ _ (.holding _ _ ?_)
      split
      · exact balanced_briefly _ _
      · exact .nil
  | minerInterrupted =>
      exact .holding _ _ (.append (balanced_briefly _ _) (balanced_briefly _ _))
  | minerFinds filing =>
      exact .holding _ _ (.append (.append (balanced_briefly _ _) (balanced_briefly _ _))
        (.holding _ _ (balanced_addBlock filing)))
  | backup => exact .holding _ _ (balanced_briefly _ _)
  | cleanExpired removed =>
      refine .holding _ _ (.append (balanced_briefly _ _) (.flatten fun body there => ?_))
      obtain ⟨entries, -, rfl⟩ := List.mem_map.mp there
      exact .append (balanced_repeated entries (balanced_briefly _ _)) (balanced_briefly _ _)
  | getBlock => exact .holding _ _ (balanced_briefly _ _)
  | sendTx insertion => exact .holding _ _ (.holding _ _ (balanced_inner insertion))
  | shutDown => exact .holding _ _ (balanced_briefly _ _)
  | getDataTx => exact balanced_briefly _ _
  | getDataBlock => exact balanced_briefly _ _
  | getAddr => exact balanced_briefly _ _
  | addr => exact balanced_briefly _ _
  | minerWaits => exact balanced_briefly _ _
  | getHeight => exact balanced_briefly _ _
  | getMempool => exact balanced_briefly _ _

private theorem proper_program (handler : Handler) : Proper [] handler.program := by
  have whole : Proper [] (handler.program ++ []) := (balanced_program handler).proper rfl
  rwa [List.append_nil] at whole

private theorem blocks_evicts (own : List (LockName × Mode)) : Blocks own Insertion.evicts.inner :=
    by
  refine .behind (.append (balanced_briefly _ _) (balanced_briefly _ _)) (.holding (.holding ?_))
  exact .append (.behind (balanced_briefly _ _) (blocks_again .write List.mem_cons_self rfl _)) _

private theorem blocks_block {filing : Filing} (taken : ∀ refusal, filing ≠ .refused refusal) :
    Blocks [] (Handler.block filing).program := by
  refine .holding (.holding ?_)
  cases filing with
  | refused refusal => exact absurd rfl (taken refusal)
  | lighter =>
      exact .holding (.behind (balanced_reads _) (blocks_again .write List.mem_cons_self rfl _))
  | accepted built =>
      refine .holding (.behind (balanced_reads _) (blocks_again .write ?_ rfl _))
      exact List.mem_cons_of_mem _ List.mem_cons_self

private theorem blocked_of_waitsForItself {handler : Handler}
    (waits : handler.waitsForItself = true) :
    Blocked [] handler.program := by
  apply Blocks.blocked
  cases handler with
  | tx insertion =>
      cases insertion with
      | evicts => exact .holding (.holding (.append (blocks_evicts _) _))
      | _ => exact absurd waits (by simp [Handler.waitsForItself])
  | sendTx insertion =>
      cases insertion with
      | evicts => exact .holding (.holding (blocks_evicts _))
      | _ => exact absurd waits (by simp [Handler.waitsForItself])
  | block filing =>
      apply blocks_block
      rintro refusal rfl
      simp [Handler.waitsForItself] at waits
  | removePeer =>
      refine .holding (.holding (blocks_again .write ?_ rfl _))
      exact List.mem_cons_of_mem _ List.mem_cons_self
  | minerFinds filing =>
      refine .holding (.behind (.append (balanced_briefly _ _) (balanced_briefly _ _)) ?_)
      exact blocks_again .read List.mem_cons_self rfl _
  | backup => exact .holding (blocks_again .write List.mem_cons_self rfl _)
  | _ => exact absurd waits (by simp [Handler.waitsForItself])

end Paths

section Order

variable {own : List (LockName × Mode)}

private theorem nested_briefly {l : LockName} (mode : Mode)
    (above : ∀ guard ∈ own, rank guard.1 < rank l) : Nested rank own (briefly l mode) :=
  .holding above (nested_nil _)

private theorem nested_repeated (n : Nat) {body : List (Act LockName)}
    (nested : Nested rank own body) :
    Nested rank own (repeated n body) := by
  apply Nested.flatten
  intro other there
  rwa [List.eq_of_mem_replicate there]

private theorem nested_refused (refusal : Refusal)
    (above : ∀ guard ∈ own, rank guard.1 < rank .stateLock) :
    Nested rank own (addBlock (.refused refusal)) := by
  have later {l : LockName} (high : rank .stateLock < rank l) :
      ∀ guard ∈ (LockName.stateLock, Mode.write) :: own, rank guard.1 < rank l := by
    rintro guard (_ | ⟨_, owned⟩)
    · exact high
    · exact (above guard owned).trans high
  have read := nested_briefly .read (later (l := .state) (by decide))
  have cached := nested_briefly .write (later (l := .targetCache) (by decide))
  refine .holding above ?_
  cases refusal with
  | unhashed => exact nested_nil _
  | known => exact read
  | orphan => exact nested_repeated 2 read
  | invalid => exact nested_repeated 2 read
  | measured built =>
      refine .append (.append (.append (nested_repeated 2 read) cached) (nested_repeated 2 read)) ?_
      exact nested_repeated built (nested_repeated 3 read)

private theorem nested_outer (l : LockName) (mode : Mode) : Nested rank [] (briefly l mode) :=
  nested_briefly mode (by simp)

private theorem nested_decreaseReputation (bans : Bool) : Nested rank []
    (decreaseReputation bans) := by
  cases bans with
  | false => exact nested_nil _
  | true => exact .append (.append (nested_outer _ _) (nested_outer _ _)) (nested_outer _ _)

private theorem nested_addPeer (joining : Joining) : Nested rank [] (addPeer joining) := by
  have asked : Nested rank [] isBanned := .holding (by simp) (nested_briefly _ (by decide))
  have counted := asked.append (nested_outer .peers .read)
  have greeted := counted.append (nested_outer .chain .read)
  cases joining with
  | banned => exact asked
  | full => exact counted
  | refused bans => exact greeted.append (nested_decreaseReputation bans)
  | served =>
      exact (((greeted.append (nested_outer _ _)).append (nested_outer _ _)).append
        (nested_outer _ _)).append (nested_outer _ _)

private theorem ordered_of_keepsOrder {handler : Handler} (keeps : handler.keepsOrder = true) :
    Ordered rank [] handler.program := by
  apply Nested.ordered
  cases handler with
  | addPeer joining => exact nested_addPeer joining
  | reconnect => exact .append (nested_outer _ _) (nested_outer _ _)
  | ping => exact nested_nil _
  | getHeaders => exact .holding (by simp) (nested_briefly _ (by decide))
  | getBlock => exact .holding (by simp) (nested_briefly _ (by decide))
  | shutDown => exact .holding (by simp) (nested_briefly _ (by decide))
  | block filing =>
      cases filing with
      | refused refusal =>
          exact .holding (by simp) (.holding (by decide) (nested_refused refusal (by decide)))
      | _ => exact absurd keeps (by simp [Handler.keepsOrder, Handler.waitsForItself])
  | headers refusals =>
      refine .holding (by simp) (.flatten fun body there => ?_)
      obtain ⟨refusal, -, rfl⟩ := List.mem_map.mp there
      exact nested_refused refusal (by decide)
  | penalty bans => exact nested_decreaseReputation bans
  | inventory looksUp =>
      refine .holding (by simp) (.holding (by decide) ?_)
      split
      · exact nested_briefly _ (by decide)
      · exact nested_nil _
  | cleanExpired removed =>
      refine .holding (by simp) (.append (nested_briefly _ (by decide)) (.flatten ?_))
      intro body there
      obtain ⟨entries, -, rfl⟩ := List.mem_map.mp there
      exact .append (nested_repeated entries (nested_briefly _ (by decide)))
        (nested_briefly _ (by decide))
  | getDataTx => exact nested_outer _ _
  | getDataBlock => exact nested_outer _ _
  | getAddr => exact nested_outer _ _
  | addr => exact nested_outer _ _
  | minerWaits => exact nested_outer _ _
  | getHeight => exact nested_outer _ _
  | getMempool => exact nested_outer _ _
  | _ => exact absurd keeps (by simp [Handler.keepsOrder, Handler.waitsForItself])

end Order

section Samples

variable {T : Type} [DecidableEq T]

abbrev Runs : System LockName T → System LockName T → Prop :=
  ReflTransGen (System.Step fun _ => Set.range Handler.program)

abbrev RunsInOrder : System LockName T → System LockName T → Prop :=
  ReflTransGen (System.Step fun _ => Handler.program '' {handler | handler.keepsOrder = true})

def turn (s : System LockName T) (t : T) : System LockName T :=
  match s.code t with
  | [] => s
  | next :: rest => ⟨act t s.locks next, Function.update s.code t rest⟩

def begin (s : System LockName T) (t : T) (handler : Handler) : System LockName T :=
  ⟨s.locks, Function.update s.code t handler.program⟩

omit [DecidableEq T] in
private theorem not_waiting_of_queues {s : System LockName T} {t : T}
    (none : ∀ l, t ∉ (s.locks l).queue.map Prod.fst) : ¬ Waiting s.locks t := by
  rintro ⟨l, mode, queued⟩
  exact none l (List.mem_map_of_mem queued)

private theorem run_turn {programs : T → Set (List (Act LockName))} {s : System LockName T} {t : T}
    (none : ∀ l, t ∉ (s.locks l).queue.map Prod.fst) :
    ReflTransGen (System.Step programs) s (turn s t) := by
  unfold turn
  split
  · exact .refl
  · rename_i next rest code
    exact .single (.act t next rest code (not_waiting_of_queues none))

def sampleTasks (other : Handler) : System LockName Bool :=
  begin (begin System.idle true other) false (.inventory true)

private theorem run_sampleTasks {programs : Bool → Set (List (Act LockName))} {other : Handler}
    (ours : other.program ∈ programs true)
    (inventory : (Handler.inventory true).program ∈ programs false) :
    ReflTransGen (System.Step programs) System.idle (sampleTasks other) := by
  have first : System.Step programs System.idle (begin System.idle true other) :=
    .start true _ ours rfl (not_waiting_of_queues fun l => List.not_mem_nil)
  refine .tail (.single first) (.start false _ inventory ?_ ?_)
  · rfl
  · exact not_waiting_of_queues fun l => List.not_mem_nil

end Samples

section Interleavings

variable {T : Type} [DecidableEq T] {s after : System LockName T}

private theorem follows_of_runs (reached : Runs System.idle s) (t : T) :
    ∃ own asked, Follows Proper s t own asked := by
  refine (follows_idle rfl).run (proper_course ?_) reached
  rintro _ ⟨handler, rfl⟩
  exact proper_program handler

/-- The handlers that keep the order of the locks come to their end from wherever they have got
to. -/
theorem handlers_in_order_complete [Fintype T] (reached : RunsInOrder System.idle s) :
    ∃ after, RunsInOrder s after ∧ ∀ t, after.code t = [] ∧ ¬ Waiting after.locks t := by
  refine ordered_completes rank_le ?_ reached
  rintro t _ ⟨handler, keeps, rfl⟩
  exact ordered_of_keepsOrder keeps

theorem sampleTasks_complete :
    ∃ after, RunsInOrder (turn (turn (sampleTasks .getHeaders) false) true) after ∧
      ∀ t, after.code t = [] ∧ ¬ Waiting after.locks t := by
  apply handlers_in_order_complete
  have begun : RunsInOrder System.idle (sampleTasks .getHeaders) :=
    run_sampleTasks ⟨.getHeaders, rfl, rfl⟩ ⟨.inventory true, rfl, rfl⟩
  refine (begun.trans (run_turn ?_)).trans (run_turn ?_)
  · exact fun l => by cases l <;> decide
  · exact fun l => by cases l <;> decide

private theorem lock_lost (reached : Runs System.idle s) {t : T} {l : LockName} {has asks : Mode}
    (held : (t, has) ∈ (s.locks l).held) (queued : (t, asks) ∈ (s.locks l).queue)
    (apart : has.shares asks = false) : Deadlocked {t} s.locks := by
  -- Whoever asks for the lock later waits behind its holder.
  obtain ⟨own, asked, follows⟩ := follows_of_runs reached t
  obtain rfl := follows.asked_eq queued
  apply deadlocked_of_clashes
  rintro _ rfl
  exact ⟨own, l, asks, follows, .inl ⟨_, held, rfl, apart⟩⟩

/-- A handler that asks for a lock which it has never comes to its end, and once it has asked,
nobody gets that lock any more: not the task itself, and no task that asks for it later. -/
theorem handler_waits_for_itself (reached : Runs System.idle s) {t : T} (handler : Handler)
    (waits : handler.waitsForItself = true) (done : s.code t = []) (free : ¬ Waiting s.locks t)
    (run : Runs ⟨s.locks, Function.update s.code t handler.program⟩ after) :
    (Waiting after.locks t ∨ after.code t ≠ []) ∧
      ∀ l has asks, (t, has) ∈ (after.locks l).held → (t, asks) ∈ (after.locks l).queue →
        has.shares asks = false →
        ∀ later : System LockName T, Runs after later → Waiting later.locks t ∧
          ∀ u mode code, ¬ Waiting later.locks u →
            ∀ final, Runs ⟨act u later.locks (.take l mode), code⟩ final →
              Waiting final.locks u := by
  constructor
  · refine blocked_never_done ?_ reached (blocked_of_waitsForItself waits) done free run
    rintro u _ ⟨other, rfl⟩
    exact proper_program other
  · intro l has asks held queued apart later more
    have begun : System.Step (fun _ => Set.range Handler.program) s
        ⟨s.locks, Function.update s.code t handler.program⟩ :=
      .start t _ ⟨handler, rfl⟩ done free
    have dead := lock_lost ((reached.tail begun).trans run) held queued apart
    refine ⟨(dead.run more).1.waits t rfl, ?_⟩
    intro u mode code free final rest
    exact dead.lost queued rfl more free rest

/-- A connection ends while the task that reconnects is about to count the peers. -/
def sampleEnding : System LockName Bool :=
  begin (begin System.idle false .reconnect) true .removePeer

/-- The end of a connection has got the list of peers and asks for it again. -/
def sampleEnded : System LockName Bool := turn (turn (turn sampleEnding true) true) true

theorem removePeer_waits_for_itself :
    Handler.removePeer.waitsForItself = true ∧ Runs System.idle sampleEnded ∧
      (∀ later, Runs sampleEnded later → Waiting later.locks true) ∧
      ∀ final, Runs (turn sampleEnded false) final → Waiting final.locks false := by
  have first : Runs System.idle (begin (System.idle : System LockName Bool) false .reconnect) :=
    .single (.start false _ ⟨_, rfl⟩ rfl (not_waiting_of_queues fun l => List.not_mem_nil))
  have idle : ¬ Waiting (begin (System.idle : System LockName Bool) false .reconnect).locks true :=
    not_waiting_of_queues fun l => List.not_mem_nil
  have turns : Runs sampleEnding sampleEnded := by
    refine ((run_turn ?_).trans (run_turn ?_)).trans (run_turn ?_)
    all_goals exact fun l => by cases l <;> decide
  have waits := (handler_waits_for_itself first .removePeer rfl rfl idle turns).2 .peers .write
    .read (by decide) (by decide) rfl
  refine ⟨rfl, ?_, fun later more => (waits later more).1, ?_⟩
  · exact (first.tail (.start true _ ⟨.removePeer, rfl⟩ rfl idle)).trans turns
  · intro final more
    refine (waits sampleEnded .refl).2 false .read _ (not_waiting_of_queues fun l => ?_) final more
    cases l <;> decide

/-- A handler of a transaction that has the pool and waits for the chain, and another task the other
way round; or the miner between its two reads of the tip with a writer that has asked in between.
Both wait for ever. -/
theorem crossed_handlers_wait (reached : Runs System.idle s) {t u : T}
    (crossed :
      ((t, .write) ∈ (s.locks .mempool).held ∧ (t, .read) ∈ (s.locks .chain).queue ∧
        (u, .write) ∈ (s.locks .chain).held ∧ (u, .write) ∈ (s.locks .mempool).queue) ∨
      ((t, .read) ∈ (s.locks .chain).held ∧
        ∃ before rest, (s.locks .chain).queue = before ++ (u, .write) :: rest ∧
          (t, .read) ∈ rest))
    (run : Runs s after) :
    Waiting after.locks t ∧ Waiting after.locks u ∧
      ∀ v mode code, ¬ Waiting after.locks v →
        ∀ final, Runs ⟨act v after.locks (.take .chain mode), code⟩ final →
          Waiting final.locks v := by
  obtain ⟨own, asked, follows⟩ := follows_of_runs reached t
  obtain ⟨own', asked', follows'⟩ := follows_of_runs reached u
  have dead : Deadlocked {t, u} s.locks ∧ (t, .read) ∈ (s.locks .chain).queue := by
    rcases crossed with ⟨pool, chain, chain', pool'⟩ | ⟨chain, before, rest, split, later⟩
    · obtain rfl := follows.asked_eq chain
      obtain rfl := follows'.asked_eq pool'
      refine ⟨?_, chain⟩
      apply deadlocked_of_clashes
      rintro v (rfl | rfl)
      · exact ⟨own, .chain, .read, follows, .inl ⟨_, chain', .inr rfl, rfl⟩⟩
      · exact ⟨own', .mempool, .write, follows', .inl ⟨_, pool, .inl rfl, rfl⟩⟩
    · have first : (u, .write) ∈ (s.locks .chain).queue := by simp [split]
      have second : (t, .read) ∈ (s.locks .chain).queue := by simp [split, later]
      obtain rfl := follows.asked_eq second
      obtain rfl := follows'.asked_eq first
      refine ⟨?_, second⟩
      apply deadlocked_of_clashes
      rintro v (rfl | rfl)
      · exact ⟨own, .chain, .read, follows, .inr ⟨before, _, rest, split, .inr rfl, later⟩⟩
      · exact ⟨own', .chain, .write, follows', .inl ⟨_, chain, .inl rfl, rfl⟩⟩
  obtain ⟨dead, queued⟩ := dead
  refine ⟨(dead.run run).1.waits t (.inl rfl), (dead.run run).1.waits u (.inr rfl), ?_⟩
  intro v mode code free final rest
  exact dead.lost queued (.inl rfl) run free rest

theorem sampleTasks_crossed :
    Runs System.idle
        (turn (turn (turn (turn (sampleTasks (.tx .stored)) true) false) true) false) ∧
      ∀ after, Runs (turn (turn (turn (turn (sampleTasks (.tx .stored)) true) false) true) false)
          after →
        Waiting after.locks true ∧ Waiting after.locks false := by
  have begun : Runs System.idle (sampleTasks (.tx .stored)) :=
    run_sampleTasks ⟨_, rfl⟩ ⟨_, rfl⟩
  have reached : Runs System.idle
      (turn (turn (turn (turn (sampleTasks (.tx .stored)) true) false) true) false) := by
    refine (((begun.trans (run_turn ?_)).trans (run_turn ?_)).trans (run_turn ?_)).trans
      (run_turn ?_)
    all_goals exact fun l => by cases l <;> decide
  refine ⟨reached, fun after run => ?_⟩
  have waits := crossed_handlers_wait (t := true) (u := false) reached (.inl (by decide)) run
  exact ⟨waits.1, waits.2.1⟩

end Interleavings

section Messages

variable (settings : Settings) (session : Session) (s : PeerManager)

def insertionOf (tx : Transaction) : Insertion :=
  match Mempool.insertGuarded settings.env (session.choices s.tick) s.chain.db tx s.mempool with
  | none => .evicts
  | some (.ok true, _) => .stored
  | some _ => .refused

/-- The path of a block that arrives; how far it gets where it is not taken is left open. -/
def filingOf (refusal : Refusal) (built : Nat) (block : Block) : Filing :=
  match Locked.submit settings.env session.world true block s.chain with
  | none => .lighter
  | some (.ok (.accepted _ _), _) => .accepted built
  | some _ => .refused refusal

def handlerOf (refusal : Refusal) (built : Nat) : Message → Handler
  | .inv _ _ => .inv none
  | .getData kind _ => if kind = 1 then .getDataTx else if kind = 2 then .getDataBlock else .ping
  | .getHeaders _ _ => .getHeaders
  | .tx tx => .tx (insertionOf settings session s tx)
  | .block block => .block (filingOf settings session s refusal built block)
  | .headers headers => .headers (headers.map fun _ => refusal)
  | .getAddr => .getAddr
  | .addr _ => .addr
  | .pong => .ping

variable {settings session s} {peer : Peer} {buf : Bytes}

private theorem waitsForItself_handlerOf (refusal : Refusal) (built : Nat) (msg : Message) :
    (handlerOf settings session s refusal built msg).waitsForItself = true ↔
      Hangs (session.around settings.env) (session.choices s.tick) s msg := by
  cases msg with
  | tx tx =>
      simp only [handlerOf, insertionOf, Hangs, Session.around, ← insertGuarded_eq_none_iff]
      generalize Mempool.insertGuarded settings.env _ _ tx _ = inserted
      rcases inserted with _ | ⟨e | (_ | _), m⟩ <;> simp [Handler.waitsForItself]
  | block block =>
      simp only [handlerOf, filingOf, Hangs, Session.around, ← submit_waits_iff,
        ← locked_submit_accepted_iff]
      generalize Locked.submit settings.env session.world true block s.chain = submitted
      rcases submitted with _ | ⟨e | (_ | _ | _), c⟩ <;> simp [Handler.waitsForItself]
  | getData kind hash =>
      simp only [handlerOf, Hangs, iff_false]
      split
      · simp [Handler.waitsForItself]
      · split <;> simp [Handler.waitsForItself]
  | _ => simp [handlerOf, Hangs, Handler.waitsForItself]

private theorem not_flooded_of_hangs {around : Surroundings} {choices : Choices} {data : Bytes}
    {msg : Message} (parsed : parseMessage data = .ok msg) (hangs : Hangs around choices s msg) :
    ¬ Flooded peer data s := by
  rintro ⟨tag | tag, -⟩
  all_goals
    rw [parseMessage, tag] at parsed
    simp only [bind_eq_ok, pure_eq_ok] at parsed
    obtain ⟨hash, -, rfl⟩ := parsed
    exact hangs

private theorem afterRead_stuck_iff (around : Surroundings) (snappy : Snappy) (peer : Peer)
    (buf : Bytes) (s : PeerManager) :
    (afterRead around snappy peer s [] buf).status = .stuck ↔
      ∃ msg, messageIn snappy buf = some msg ∧ Hangs around (around.choices s.tick) s msg := by
  have same (data : Bytes) (msg : Message) :
      Hangs around (around.choices s.tick) (entered peer data s) msg ↔
        Hangs around (around.choices s.tick) s msg := by
    cases msg <;> exact Iff.rfl
  constructor
  · intro stuck
    rcases readerStep_cases snappy (handleMessage around peer) (Net.decreaseReputation around peer)
        (Net.removePeer peer) [] s (.read buf) with
      ⟨-, status, after, ends, -, step⟩ | ⟨read, -, -, step⟩ |
        ⟨read, data, arrived, sized, unpacked, step⟩
    · rw [afterRead, step] at stuck
      obtain rfl : status = .stuck := stuck
      rcases ends with ends | ⟨e, ends⟩ <;> exact absurd ends (by simp)
    · rw [afterRead, step] at stuck
      exact absurd stuck (by simp)
    · rw [afterRead, step] at stuck
      obtain rfl := Arrival.read.inj arrived
      have waits : handleMessage around peer data s = none := by
        rcases answer : handleMessage around peer data s with _ | ⟨(e | place) | done, after⟩
        · rfl
        all_goals
          rw [answer] at stuck
          exact absurd stuck (by simp [Reader.answered])
      rcases handleMessage_cases around peer data s with
        ⟨-, short⟩ | ⟨-, -, taken⟩ | ⟨⟨long, -⟩, ⟨fault, -, refused⟩ | ⟨msg, parsed, served⟩⟩
      · exact absurd (short.symm.trans waits) (by simp)
      · exact absurd (taken.symm.trans waits) (by simp)
      · exact absurd (refused.symm.trans waits) (by simp)
      · refine ⟨msg, messageIn_eq_some.mpr ⟨sized, data, unpacked, long, parsed⟩, ?_⟩
        rw [← same data, ← serve_eq_none_iff around _ peer]
        exact served.symm.trans waits
  · rintro ⟨msg, arrived, hangs⟩
    obtain ⟨sized, data, unpacked, long, parsed⟩ := messageIn_eq_some.mp arrived
    rw [afterRead, readerStep_of_unpacked sized unpacked]
    rcases handleMessage_cases around peer data s with
      ⟨short, -⟩ | ⟨-, flooded, -⟩ | ⟨-, ⟨fault, failed, -⟩ | ⟨other, parsed', served⟩⟩
    · omega
    · exact absurd flooded (not_flooded_of_hangs parsed hangs)
    · exact absurd (failed.symm.trans parsed) (by simp)
    · obtain rfl := Except.ok.inj (parsed'.symm.trans parsed)
      rw [← same data, ← serve_eq_none_iff around _ peer] at hangs
      rw [served, hangs]
      rfl

/-- While the list of peers is free, a read leaves the node hung exactly if its message runs a
handler that waits for itself. -/
theorem onRead_hung_iff (refusal : Refusal) (built : Nat) :
    (∃ c readable, onRead settings session peer buf s false = .hung session c readable) ↔
      ∃ msg, messageIn settings.snappy buf = some msg ∧
        (handlerOf settings session s refusal built msg).waitsForItself = true := by
  simp only [waitsForItself_handlerOf]
  refine Iff.trans ?_ (afterRead_stuck_iff (session.around settings.env) settings.snappy peer buf s)
  unfold onRead
  simp only
  constructor
  · rintro ⟨c, readable, hung⟩
    split at hung
    · assumption
    · exact absurd hung (by simp)
    · exact absurd hung (by simp [settle])
  · intro waits
    rw [waits]
    simp only [stick]
    split
    · split <;> exact ⟨_, _, rfl⟩
    · exact ⟨_, _, rfl⟩

end Messages

end Lyrion.RunNode.Locks
