/- GID: Lyrion/Net
   digest: What a node sends, the writer and reader tasks of a connection, and the handler. -/

import Lyrion.Library.Framing
import Lyrion.Mempool.Blocks
import Lyrion.Mempool.Eviction

set_option autoImplicit false
set_option relaxedAutoImplicit false

namespace Lyrion.Net

open Library.ByteCodec Library.KeyValue Library.Runs Library.Framing Data Utils Tx Node

def maxMessageSize : Nat := 4 * 1024 * 1024

inductive IpAddr
  | v4 (octets : Vector UInt8 4)
  | v6 (octets : Vector UInt8 16)
  deriving DecidableEq

/-- A text of the form `format!("{}:{}", ip, port)`: it begins with a visible character and is
short. -/
structure PeerAddr where
  text : String
  visible : ∃ first rest, Codec.utf8 text = first :: rest ∧ 32 ≤ first.toNat
  short : (Codec.utf8 text).length < 256

/-! What is sent. -/

def msgHeaders : Nat := 8
def msgTx : Nat := 5
def msgBlock : Nat := 6
def msgGetAddr : Nat := 9
def msgAddr : Nat := 10

inductive Emitted
  | invTx (hash : Hash)
  | invBlock (hash : Hash)
  | tx (tx : Transaction)
  | block (block : Block)
  | headers (headers : List BlockHeader)
  | getAddr
  | addrReply (addrs : List String)
  | addrBroadcast (nowMs : Nat) (addr : PeerAddr)
  | heartbeat

def Emitted.bytes : Emitted → Bytes
  | .invTx hash => leBytes 4 1 ++ hash.toList
  | .invBlock hash => leBytes 4 2 ++ hash.toList
  | .tx t => leBytes 4 msgTx ++ transactionCodec.encode t
  | .block b => leBytes 4 msgBlock ++ blockCodec.encode b
  | .headers hs => leBytes 4 msgHeaders ++ headerCodec.list.encode hs
  | .getAddr => leBytes 4 msgGetAddr
  | .addrReply addrs => leBytes 4 msgAddr ++ Codec.string.list.encode addrs
  -- one serialized tuple, whose second field is the clock as a 128-bit word
  | .addrBroadcast nowMs addr =>
      leBytes 4 msgAddr ++ (leBytes 16 nowMs ++ Codec.string.list.encode [addr.text])
  | .heartbeat => [0]

structure Snappy where
  compress : Bytes → Option Bytes
  uncompress : Bytes → Option Bytes
  lossless : ∀ m z, compress m = some z → uncompress z = some m

/-- The writer task's bytes for one message: a flag, then the message, compressed past 1024
bytes. -/
def Snappy.frame (snappy : Snappy) (msg : Bytes) : Option Bytes :=
  if msg.length > 1024 then (snappy.compress msg).map fun compressed => 1 :: compressed
  else some (0 :: msg)

/-- What the writer task puts on the stream; it ends at a failed compression. -/
def writerTask (snappy : Snappy) (messages : List Bytes) : Bytes :=
  (framesOf snappy.frame messages).flatten

/-! What is understood. -/

inductive Message
  | inv (kind : Nat) (hash : Hash)
  | getData (kind : Nat) (hash : Hash)
  | getHeaders (locator stop : Hash)
  | tx (tx : Transaction)
  | block (block : Block)
  | headers (headers : List BlockHeader)
  | getAddr
  | addr (addrs : List String)
  | pong
  deriving DecidableEq

def hashAt (data : Bytes) (lo : Nat) : Result Hash := do
  let bytes ← sliceOf data lo (lo + 32)
  orFail (.anyhow "Invalid hash") (hashOfBytes bytes)

def deserialize {α : Type} (codec : Codec α) (data : Bytes) : Result α :=
  orFail (.anyhow "bincode") (codec.read (data.drop 4))

/-- The reading half of each arm of `handle_message`, on at least four bytes. -/
def parseMessage (data : Bytes) : Result Message :=
  match ofLeBytes (data.take 4) with
  | 1 => do pure (.inv 1 (← hashAt data 4))
  | 2 => do pure (.inv 2 (← hashAt data 4))
  | 3 => do
      let kind ← sliceOf data 4 8
      pure (.getData (ofLeBytes kind) (← hashAt data 8))
  | 4 =>
      if data.length < 40 then fail (.invalidBlock "GETHEADERS too short")
      else do
        let locator ← hashAt data 4
        let stop ← if data.length ≥ 72 then hashAt data 36 else pure zeroHash
        pure (.getHeaders locator stop)
  | 5 => do pure (.tx (← deserialize transactionCodec data))
  | 6 => do pure (.block (← deserialize blockCodec data))
  | 8 => do pure (.headers (← deserialize headerCodec.list data))
  | 9 => pure .getAddr
  | 10 => do pure (.addr (← deserialize Codec.string.list data))
  | 11 => do
      -- the nonce is an array of four bytes, as the tag it is joined with, and eight are given
      let _ ← sliceOf data 4 12
      fail (.anyhow "try_into")
  | 12 => pure .pong
  | _ => fail (.anyhow "Unknown message type")

/-! The node as the connections see it. -/

/-- The handle of a connection: which `Arc<Peer>` it is, its address, and its `peer_id`. -/
structure Peer where
  id : Nat
  ip : IpAddr
  peerId : Bytes

/-- The shared state. `reputation` is kept for each connection; `inventory`, `replies` and
`broadcasts` list what went into the channels; `tick` counts the answers taken from outside. -/
structure PeerManager where
  chain : Chain
  mempool : Mempool
  knownPeers : List String
  pendingInv : Map Bytes Nat
  peers : Map IpAddr (List Nat)
  reputation : Map Nat Int8
  bans : Map IpAddr Nat
  bansPersistent : Map IpAddr Nat
  inventory : List (Nat × Hash)
  replies : List (Nat × Emitted)
  broadcasts : List Emitted
  tick : Nat

/-- The outside of a node: that of its chain, and for each call the choices of the pool and the
clock. -/
structure Surroundings where
  env : Env
  world : World
  choices : Nat → Choices
  instant : Nat → Nat

variable (around : Surroundings)

def banTime : Nat := 72 * 3600 * 1000000000

def banIp (ip : IpAddr) (s : PeerManager) : PeerManager :=
  { s with
    bans := s.bans.insert ip (around.instant s.tick + banTime)
    bansPersistent := s.bansPersistent.insert ip (around.instant (s.tick + 1) + banTime)
    peers := s.peers.erase ip
    tick := s.tick + 2 }

def decreaseReputation (peer : Peer) (s : PeerManager) : PeerManager :=
  let value := (s.reputation.lookup peer.id).getD 0 - 10
  let s := { s with reputation := s.reputation.insert peer.id value }
  if value ≤ -50 then banIp around peer.ip s else s

def removePeer (peer : Peer) (s : PeerManager) : PeerManager :=
  match s.peers.lookup peer.ip with
  | none => s
  | some ids =>
      let left := ids.filter fun id => id ≠ peer.id
      { s with
        peers := if left.isEmpty then s.peers.erase peer.ip else s.peers.insert peer.ip left }

def broadcast (msg : Emitted) (s : PeerManager) : PeerManager :=
  { s with broadcasts := s.broadcasts ++ [msg] }

def reply (peer : Peer) (msg : Emitted) (s : PeerManager) : PeerManager :=
  { s with replies := s.replies ++ [(peer.id, msg)] }

/-- `add_block` while the caller holds the pool: once a block is saved, it waits for the pool and
never returns. -/
def addBlockHoldingPool (block : Block) (c : Chain) : Option (Result Bool × Chain) :=
  match Locked.submit around.env around.world true block c with
  -- `apply_block_action` waits for the lock of `add_block`
  | none => none
  | some (.ok (.accepted _ _), _) => none
  | some (.ok _, c) => some (.ok false, c)
  | some (.error e, c) => some (.error e, c)

def ignoreError {α : Type} : Result α → Result Unit
  | .ok _ => .ok ()
  | .error (.error _) => .ok ()
  | .error fault => .error fault

theorem ignoreError_eq_error {α : Type} {r : Result α} {fault : Fault} :
    ignoreError r = .error fault ↔ r = .error fault ∧ fault.isCrash = true := by
  rcases r with (e | place) | a <;> cases fault <;> simp [ignoreError, Fault.isCrash]

/-- The loop over received headers: each one has to follow the one before, and is added as a block
without transactions. No such block is saved, so the pool is not touched. -/
def addHeaders : List BlockHeader → Hash → PeerManager → Option (Result Unit × PeerManager)
  | [], _, s => some (.ok (), s)
  | header :: rest, prevHash, s =>
      match headerHash around.env header with
      | .error e => some (.error e, s)
      | .ok hash =>
          if header.prevHash ≠ prevHash then
            some (fail (.invalidBlock "Discontinuous headers"), s)
          else
            match Locked.addBlock around.env around.world ⟨header, []⟩ s.chain with
            | none => none
            | some (added, c) =>
                match ignoreError added with
                | .error fault => some (.error fault, { s with chain := c })
                | .ok () => addHeaders rest hash { s with chain := c }

theorem addHeaders_cons (header : BlockHeader) (rest : List BlockHeader) (prevHash : Hash)
    (s : PeerManager) :
    addHeaders around (header :: rest) prevHash s =
      match headerHash around.env header with
      | .error e => some (.error e, s)
      | .ok hash =>
          if header.prevHash ≠ prevHash then
            some (fail (.invalidBlock "Discontinuous headers"), s)
          else
            let added := addBlock around.env around.world ⟨header, []⟩ s.chain
            match ignoreError added.1 with
            | .error fault => some (.error fault, { s with chain := added.2 })
            | .ok () => addHeaders around rest hash { s with chain := added.2 } := by
  -- The calls of `add_block` return, since they do not get to `apply_block_action`.
  rw [addHeaders]
  simp only [locked_addBlock_light]

/-- The acting half of each arm of `handle_message`, `none` where it never returns. -/
def serve (choices : Choices) (peer : Peer) (s : PeerManager) :
    Message → Option (Result Unit × PeerManager)
  | .inv kind hash => some (.ok (), { s with inventory := s.inventory ++ [(kind, hash)] })
  | .getData kind hash =>
      if kind = 1 then
        match s.mempool.txs.lookup hash with
        | some entry => some (.ok (), reply peer (.tx entry.tx) s)
        | none => some (.ok (), s)
      else if kind = 2 then
        match s.chain.state.hashToHeight.lookup hash with
        | none => some (.error (.panic "no entry found for key"), s)
        | some height =>
            match loadBlockFromDb s.chain.db height with
            | .error e => some (.error e, s)
            | .ok block => some (.ok (), reply peer (.block block) s)
      else some (.ok (), s)
  | .getHeaders locator stop =>
      match getHeaders around.env s.chain locator stop with
      | .error e => some (.error e, s)
      | .ok headers => some (.ok (), reply peer (.headers headers) s)
  | .tx tx =>
      match Mempool.insertGuarded around.env choices s.chain.db tx s.mempool with
      | none => none
      | some (.ok true, m) =>
          some (.ok (), broadcast (.invTx (txHash around.env tx)) { s with mempool := m })
      | some (result, m) => some (ignoreError result, { s with mempool := m })
  | .block block =>
      match addBlockHoldingPool around block s.chain with
      | none => none
      | some (.error e, c) => some (.error e, { s with chain := c })
      | some (.ok false, c) => some (.ok (), { s with chain := c })
      | some (.ok true, c) =>
          match headerHash around.env block.header with
          | .error e => some (.error e, { s with chain := c })
          | .ok hash => some (.ok (), broadcast (.invBlock hash) { s with chain := c })
  | .headers headers =>
      match headers with
      | [] => some (.ok (), s)
      | first :: _ => addHeaders around headers first.prevHash s
  | .getAddr => some (.ok (), reply peer (.addrReply s.knownPeers) s)
  | .addr addrs =>
      some (.ok (), { s with
        knownPeers := addrs.foldl
          (fun known addr => if addr ∈ known then known else known ++ [addr]) s.knownPeers })
  | .pong => some (.ok (), s)

/-- `handle_message` up to the choice of the arm: no message where the flood guard drops it. -/
def recognise (peer : Peer) (data : Bytes) (s : PeerManager) :
    Result (Option Message) × PeerManager :=
  if data.length < 4 then (fail (.invalidBlock "Message too short"), s)
  else if ofLeBytes (data.take 4) = 1 ∨ ofLeBytes (data.take 4) = 2 then
    let count := (s.pendingInv.lookup peer.peerId).getD 0 + 1
    let s := { s with pendingInv := s.pendingInv.insert peer.peerId count }
    if count > 1000 then (.ok none, decreaseReputation around peer s)
    else ((parseMessage data).map some, s)
  else ((parseMessage data).map some, s)

def handleMessage (peer : Peer) (data : Bytes) (s : PeerManager) :
    Option (Result Unit × PeerManager) :=
  match recognise around peer data s with
  | (.error e, s) => some (.error e, s)
  | (.ok none, s) => some (.ok (), s)
  | (.ok (some msg), s) =>
      serve around (around.choices s.tick) peer { s with tick := s.tick + 1 } msg

/-! The reader task. -/

/-- The work that the reader gives to a thread of its own: the data behind the flag, uncompressed if
the flag says so. -/
def processData (snappy : Snappy) (isCompressed : Bool) (data : Bytes) : Result Bytes :=
  if isCompressed then
    if data.length > maxCompressedSize then fail .attackDetected
    else do
      let decomp ← orFail .decompressionFailed (snappy.uncompress data)
      if decomp.length > maxMsgDecompressed then fail .attackDetected
      else pure decomp
  else pure data

/-- The reader's own checks on one read, down to the message. The last one is about what was read,
also where that was compressed. -/
def receive (snappy : Snappy) (flag : UInt8) (data : Bytes) : Result Bytes := do
  let processed ← processData snappy (flag = 1) data
  if data.length < 4 then fail (.invalidBlock "Message too short")
  else pure processed

/-- What the reader wakes up to: the shutdown, a timeout or an error, or some bytes. -/
inductive Arrival
  | shutdown
  | lost
  | read (buf : Bytes)

/-- Where the reader task is: in its loop, out of it and the peer removed, ended by an error or a
panic, or waiting for a handler that never returns. -/
inductive ReaderStatus
  | reading
  | closed
  | failed (fault : Fault)
  | stuck
  deriving DecidableEq

/-- The task with the state it works on. `handed` lists the messages given to the handler. -/
structure Reader (σ : Type) where
  status : ReaderStatus
  handed : List Bytes
  state : σ

section Reading

variable {σ : Type} (snappy : Snappy) (handle : Bytes → σ → Option (Result Unit × σ))
  (penalise close : σ → σ)

def Reader.answered (r : Reader σ) : Option (Result Unit × σ) → Reader σ
  | none => { r with status := .stuck }
  | some (.ok (), s) => { r with state := s }
  | some (.error (.error _), s) => { r with state := penalise s }
  | some (.error fault, s) => { r with status := .failed fault, state := s }

def readerStep (r : Reader σ) (arrival : Arrival) : Reader σ :=
  if r.status ≠ .reading then r
  else
    match arrival with
    | .shutdown => { r with status := .closed, state := close r.state }
    | .lost => { r with status := .closed, state := close r.state }
    | .read [] => { r with status := .closed, state := close r.state }
    | .read (flag :: data) =>
        if (flag :: data).length > maxMessageSize then { r with state := penalise r.state }
        else
          match receive snappy flag data with
          | .error fault => { r with status := .failed fault }
          | .ok msg =>
              Reader.answered penalise { r with handed := r.handed ++ [msg] } (handle msg r.state)

end Reading

def readerTask (snappy : Snappy) (peer : Peer) (s : PeerManager) (arrivals : List Arrival) :
    Reader PeerManager :=
  run (readerStep snappy (handleMessage around peer) (decreaseReputation around peer)
    (removePeer peer)) ⟨.reading, [], s⟩ arrivals

end Lyrion.Net
