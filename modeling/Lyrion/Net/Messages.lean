/- GID: Lyrion/Net/Messages
   digest: Which of the messages a node sends its peers understand. -/

import Lyrion.Net.Framing

set_option autoImplicit false
set_option relaxedAutoImplicit false

namespace Lyrion.Net

open Library.ByteCodec Library.KeyValue Library.Runs Data Utils Tx Node

/-- What the receiver should make of a message. No message stands for a heartbeat. -/
def Emitted.payload : Emitted → Option Message
  | .invTx hash => some (.inv 1 hash)
  | .invBlock hash => some (.inv 2 hash)
  | .tx t => some (.tx t)
  | .block b => some (.block b)
  | .headers hs => some (.headers hs)
  | .getAddr => some .getAddr
  | .addrReply addrs => some (.addr addrs)
  | .addrBroadcast _ addr => some (.addr [addr.text])
  | .heartbeat => none

/-- The message type in front of a message; a heartbeat is too short for one. -/
def Emitted.tag : Emitted → Nat
  | .invTx _ => 1
  | .invBlock _ => 2
  | .tx _ => msgTx
  | .block _ => msgBlock
  | .headers _ => msgHeaders
  | .getAddr => msgGetAddr
  | .addrReply _ => msgAddr
  | .addrBroadcast _ _ => msgAddr
  | .heartbeat => 0

def Emitted.isInv (e : Emitted) : Bool := e.tag = 1 ∨ e.tag = 2

def Emitted.isBroadcast : Emitted → Bool
  | .addrBroadcast _ _ => true
  | _ => false

/-! The parts of a tagged message. -/

section Tagged

variable {tag : Nat} {rest : Bytes}

theorem take_tag (word : tag < 256 ^ 4) : ofLeBytes ((leBytes 4 tag ++ rest).take 4) = tag := by
  rw [List.take_append_of_le_length (by simp), List.take_of_length_le (by simp),
    ofLeBytes_leBytes 4 tag word]

private theorem drop_tag : (leBytes 4 tag ++ rest).drop 4 = rest := by
  rw [List.drop_append_of_le_length (by simp), List.drop_of_length_le (by simp), List.nil_append]

private theorem hashAt_tagged (hash : Hash) : hashAt (leBytes 4 tag ++ hash.toList) 4 = .ok hash :=
    by
  have all : (leBytes 4 tag ++ hash.toList).take 36 = leBytes 4 tag ++ hash.toList :=
    List.take_of_length_le (by simp)
  have slice : sliceOf (leBytes 4 tag ++ hash.toList) 4 (4 + 32) = .ok hash.toList := by
    rw [sliceOf, if_pos (by simp), all, drop_tag]
  rw [hashAt, slice]
  exact orFail_eq_ok.mpr (hashOfBytes_toList hash)

private theorem deserialize_tagged {α : Type} (codec : Codec α) (a : α)
    (short : (codec.encode a).length < 2 ^ 64) :
    deserialize codec (leBytes 4 tag ++ codec.encode a) = .ok a := by
  rw [deserialize, drop_tag, codec.read_encode a short]
  rfl

end Tagged

private theorem parseMessage_bytes {e : Emitted} {msg : Message} (meant : e.payload = some msg)
    (other : e.isBroadcast = false) (short : e.bytes.length < 2 ^ 64) :
    parseMessage e.bytes = .ok msg := by
  have inner {tag : Nat} {payload : Bytes} (whole : e.bytes = leBytes 4 tag ++ payload) :
      payload.length < 2 ^ 64 := by
    rw [whole, List.length_append] at short
    omega
  cases e with
  | invTx hash =>
      obtain rfl := Option.some.inj meant
      rw [parseMessage, Emitted.bytes, take_tag (by decide)]
      simp only [hashAt_tagged]
      rfl
  | invBlock hash =>
      obtain rfl := Option.some.inj meant
      rw [parseMessage, Emitted.bytes, take_tag (by decide)]
      simp only [hashAt_tagged]
      rfl
  | tx t =>
      obtain rfl := Option.some.inj meant
      rw [parseMessage, Emitted.bytes, take_tag (by decide)]
      simp only [msgTx, deserialize_tagged transactionCodec t (inner rfl)]
      rfl
  | block b =>
      obtain rfl := Option.some.inj meant
      rw [parseMessage, Emitted.bytes, take_tag (by decide)]
      simp only [msgBlock, deserialize_tagged blockCodec b (inner rfl)]
      rfl
  | headers hs =>
      obtain rfl := Option.some.inj meant
      rw [parseMessage, Emitted.bytes, take_tag (by decide)]
      simp only [msgHeaders, deserialize_tagged headerCodec.list hs (inner rfl)]
      rfl
  | getAddr =>
      obtain rfl := Option.some.inj meant
      rfl
  | addrReply addrs =>
      obtain rfl := Option.some.inj meant
      rw [parseMessage, Emitted.bytes, take_tag (by decide)]
      simp only [msgAddr, deserialize_tagged Codec.string.list addrs (inner rfl)]
      rfl
  | addrBroadcast nowMs addr => exact absurd other (by simp [Emitted.isBroadcast])
  | heartbeat => exact absurd meant (by simp [Emitted.payload])

/-! The broadcast of an address: the receiver reads the low half of the clock as the number of
    addresses and the high half as the length of the first. -/

section Broadcast

variable {nowMs : Nat} {addr : PeerAddr}

def afterCount (nowMs : Nat) (addr : PeerAddr) : Bytes :=
  leBytes 8 (nowMs / 256 ^ 8) ++ Codec.string.list.encode [addr.text]

private theorem parseMessage_broadcast :
    parseMessage (Emitted.addrBroadcast nowMs addr).bytes =
      match Codec.string.decodeMany (nowMs % 256 ^ 8) (afterCount nowMs addr) with
      | none => fail (.anyhow "bincode")
      | some (texts, _) => .ok (.addr texts) := by
  have split : splitExact 8 (leBytes 8 nowMs ++ afterCount nowMs addr) =
      some (leBytes 8 nowMs, afterCount nowMs addr) := by
    simpa using splitExact_append (leBytes 8 nowMs) (afterCount nowMs addr)
  have bytes : leBytes 16 nowMs ++ Codec.string.list.encode [addr.text] =
      leBytes 8 nowMs ++ afterCount nowMs addr := by
    rw [leBytes_add 8 8, List.append_assoc, afterCount]
  have count : ofLeBytes (leBytes 8 nowMs) = nowMs % 256 ^ 8 := by
    rw [← leBytes_mod, ofLeBytes_leBytes 8 _ (Nat.mod_lt _ (by decide))]
  rw [parseMessage, Emitted.bytes, take_tag (by decide), bytes]
  simp only [msgAddr, deserialize, drop_tag, Codec.read, Codec.list, split, Option.bind_some, count]
  generalize Codec.string.decodeMany (nowMs % 256 ^ 8) (afterCount nowMs addr) = decoded
  cases decoded with
  | none => rfl
  | some decoded => rfl

private theorem encode_address : Codec.string.list.encode [addr.text] =
    leBytes 8 1 ++ (leBytes 8 (Codec.utf8 addr.text).length ++ Codec.utf8 addr.text) := by
  rw [Codec.encode_list, List.flatMap_singleton, Codec.encode_string, List.length_singleton]

private theorem string_decode (length : Nat) (bs : Bytes) :
    Codec.string.decode (leBytes 8 length ++ bs) =
      (splitExact (ofLeBytes (leBytes 8 length)) bs).bind fun p =>
        (String.fromUTF8? ⟨p.1.toArray⟩).map fun text => (text, p.2) := by
  have split : splitExact 8 (leBytes 8 length ++ bs) = some (leBytes 8 length, bs) := by
    simpa using splitExact_append (leBytes 8 length) bs
  simp only [Codec.string, Codec.refine, Codec.bytes, split, Option.bind_some]

private theorem string_decode_eq_some {length : Nat} {bs rest : Bytes} {text : String}
    (word : length < 256 ^ 8)
    (read : Codec.string.decode (leBytes 8 length ++ bs) = some (text, rest)) :
    length ≤ bs.length ∧ Codec.utf8 text = bs.take length ∧ rest = bs.drop length := by
  rw [string_decode, ofLeBytes_leBytes 8 length word, splitExact] at read
  split at read
  case isTrue enough =>
    obtain ⟨found, valid, pair⟩ := Option.map_eq_some_iff.mp read
    obtain ⟨rfl, rfl⟩ := Prod.mk.inj pair
    exact ⟨enough, Codec.utf8_of_fromUTF8 valid, rfl⟩
  case isFalse => exact absurd read (by simp)

private theorem broadcast_misread :
    parseMessage (Emitted.addrBroadcast nowMs addr).bytes ≠ .ok (.addr [addr.text]) := by
  obtain ⟨first, rest, text, visible⟩ := addr.visible
  intro parsed
  rw [parseMessage_broadcast] at parsed
  obtain ⟨unread, decoded⟩ : ∃ unread, Codec.string.decodeMany (nowMs % 256 ^ 8)
      (afterCount nowMs addr) = some ([addr.text], unread) := by
    split at parsed
    case h_1 => exact absurd parsed (by simp [fail])
    case h_2 texts unread decoded =>
      obtain rfl := Message.addr.inj (Except.ok.inj parsed)
      exact ⟨unread, decoded⟩
  have word : nowMs / 256 ^ 8 % 256 ^ 8 < 256 ^ 8 := Nat.mod_lt _ (by decide)
  rw [afterCount, ← leBytes_mod 8 (nowMs / 256 ^ 8)] at decoded
  generalize nowMs / 256 ^ 8 % 256 ^ 8 = length at decoded word
  generalize nowMs % 256 ^ 8 = count at decoded
  cases count with
  | zero => exact absurd decoded (by simp [Codec.decodeMany])
  | succ count =>
      obtain ⟨a, later, as, read, -, list⟩ := Codec.decodeMany_succ_eq_some.mp decoded
      obtain ⟨rfl, rfl⟩ := List.cons.inj list
      obtain ⟨-, bytes, -⟩ := string_decode_eq_some word read
      -- the length of the vector stands where the text should
      rw [text, encode_address] at bytes
      have one : first = 1 := by
        cases length with
        | zero => exact absurd bytes (by simp)
        | succ length => exact (List.cons.inj bytes).1
      rw [one] at visible
      exact absurd visible (by decide)

private theorem overlapping_length (first : UInt8) (rest : Bytes) :
    leBytes 7 0 ++ first :: rest = leBytes 8 (first.toNat * 256 ^ 7) ++ rest := by
  have low : leBytes 7 (first.toNat * 256 ^ 7) = leBytes 7 0 := by
    rw [← leBytes_mod 7, Nat.mul_mod_left]
  have high : leBytes 1 (first.toNat * 256 ^ 7 / 256 ^ 7) = [first] := by
    rw [Nat.mul_div_cancel _ (by decide)]
    simp [leBytes]
  rw [leBytes_add 7 1, low, high, List.append_assoc, List.singleton_append]

private theorem broadcast_refused (late : 3 ≤ nowMs) (word : nowMs < 256 ^ 8) :
    parseMessage (Emitted.addrBroadcast nowMs addr).bytes = fail (.anyhow "bincode") := by
  obtain ⟨first, rest, text, visible⟩ := addr.visible
  have short := addr.short
  rw [parseMessage_broadcast, Nat.mod_eq_of_lt word, afterCount, Nat.div_eq_of_lt word,
    encode_address]
  split
  case h_1 => rfl
  case h_2 texts unread decoded =>
  exfalso
  obtain ⟨count, rfl⟩ := Nat.exists_eq_add_of_le' late
  -- an empty text, a text of one byte, and then a length that nothing can fill
  obtain ⟨a, later, as, read, decoded, -⟩ := Codec.decodeMany_succ_eq_some.mp decoded
  obtain ⟨-, -, rfl⟩ := string_decode_eq_some (by decide) read
  obtain ⟨b, later, bs, read, decoded, -⟩ := Codec.decodeMany_succ_eq_some.mp decoded
  rw [List.drop_zero] at read
  obtain ⟨-, -, rfl⟩ := string_decode_eq_some (by decide) read
  obtain ⟨c, later, cs, read, -, -⟩ := Codec.decodeMany_succ_eq_some.mp decoded
  rw [leBytes, List.cons_append, List.drop_succ_cons, List.drop_zero, Nat.div_eq_of_lt short, text,
    overlapping_length] at read
  have fits : first.toNat * 256 ^ 7 < 256 ^ 8 := by
    have := first.toNat_lt
    omega
  obtain ⟨enough, -, -⟩ := string_decode_eq_some fits read
  rw [text, List.length_cons] at short
  omega

end Broadcast

/-! The whole way of a message. -/

section Way

variable {around : Surroundings} {snappy : Snappy} {peer : Peer} {s : PeerManager} {e : Emitted}

def pendingCount (peer : Peer) (s : PeerManager) : Nat := (s.pendingInv.lookup peer.peerId).getD 0

def afterGuard (peer : Peer) (isInv : Bool) (s : PeerManager) : PeerManager :=
  if isInv then
    { s with pendingInv := s.pendingInv.insert peer.peerId (pendingCount peer s + 1) }
  else s

private theorem tag_bytes (long : 4 ≤ e.bytes.length) : ofLeBytes (e.bytes.take 4) = e.tag := by
  cases e with
  | heartbeat => exact absurd long (by decide)
  | getAddr => rfl
  | _ => exact take_tag (by decide)

private theorem inv_tag_iff (long : 4 ≤ e.bytes.length) :
    (ofLeBytes (e.bytes.take 4) = 1 ∨ ofLeBytes (e.bytes.take 4) = 2) ↔ e.isInv = true := by
  rw [tag_bytes long, Emitted.isInv, decide_eq_true_iff]

private theorem recognise_bytes (long : 4 ≤ e.bytes.length)
    (quiet : e.isInv = true → pendingCount peer s < 1000) :
    recognise around peer e.bytes s =
      ((parseMessage e.bytes).map some, afterGuard peer e.isInv s) := by
  rw [recognise, if_neg (by omega)]
  by_cases inv : e.isInv = true
  · have below := quiet inv
    rw [if_pos ((inv_tag_iff long).mpr inv)]
    simp only [pendingCount] at below
    rw [if_neg (by omega), inv]
    rfl
  · rw [if_neg (mt (inv_tag_iff long).mp inv), afterGuard, if_neg inv]

private theorem recognise_flood (long : 4 ≤ e.bytes.length) (inv : e.isInv = true)
    (flood : 1000 ≤ pendingCount peer s) : (recognise around peer e.bytes s).1 = .ok none := by
  rw [recognise, if_neg (by omega), if_pos ((inv_tag_iff long).mpr inv)]
  simp only [pendingCount] at flood
  rw [if_pos (by omega)]

def Carried (snappy : Snappy) (e : Emitted) : Prop :=
  ∃ frame, snappy.frame e.bytes = some frame ∧ 5 ≤ frame.length ∧ frame.length ≤ maxMessageSize ∧
    e.bytes.length ≤ maxMsgDecompressed

/-- A message that has arrived in a read of its own is handed over as it was sent, and the handler
comes to serve what was meant by it, with nothing held against the sender. -/
def Understood (around : Surroundings) (snappy : Snappy) (peer : Peer) (s : PeerManager)
    (e : Emitted) : Prop :=
  ∃ frame msg guarded, snappy.frame e.bytes = some frame ∧ frame.length ≤ maxMessageSize ∧
    unpack snappy frame = some e.bytes ∧ e.payload = some msg ∧
    recognise around peer e.bytes s = (.ok (some msg), guarded) ∧
    (guarded.reputation = s.reputation ∧ guarded.bans = s.bans ∧ guarded.peers = s.peers) ∧
    ∀ log, readerStep snappy (handleMessage around peer) (decreaseReputation around peer)
        (removePeer peer) ⟨.reading, log, s⟩ (.read frame) =
      Reader.answered (decreaseReputation around peer) ⟨.reading, log ++ [e.bytes], s⟩
        (serve around (around.choices guarded.tick) peer { guarded with tick := guarded.tick + 1 }
          msg)

private theorem long_of_carried (carried : Carried snappy e) : 4 ≤ e.bytes.length := by
  obtain ⟨frame, framed, long, -, -⟩ := carried
  rw [frame_eq_some] at framed
  split at framed
  case isTrue => omega
  case isFalse =>
    rw [framed, List.length_cons] at long
    omega

private theorem carried_of_short (long : 4 ≤ e.bytes.length) (short : e.bytes.length ≤ 1024) :
    Carried snappy e := by
  have limits : 1025 ≤ maxMessageSize ∧ 1024 ≤ maxMsgDecompressed := by decide
  refine ⟨0 :: e.bytes, frame_eq_some.mpr ?_, ?_, ?_, ?_⟩
  · rw [if_neg (by omega)]
  · rw [List.length_cons]
    omega
  · rw [List.length_cons]
    omega
  · omega

private theorem exists_payload (long : 4 ≤ e.bytes.length) : ∃ msg, e.payload = some msg := by
  cases e with
  | heartbeat => exact absurd long (by decide)
  | _ => exact ⟨_, rfl⟩

/-- A node's messages are understood exactly if their frames are carried, unless they are the
broadcast of an address, and as long as fewer than a thousand inventories have been counted. -/
theorem understood_iff (around : Surroundings) (snappy : Snappy) (peer : Peer) (s : PeerManager)
    (e : Emitted) :
    Understood around snappy peer s e ↔ Carried snappy e ∧ e.isBroadcast = false ∧
      (e.isInv = true → pendingCount peer s < 1000) := by
  constructor
  · rintro ⟨frame, msg, guarded, framed, sized, unpacked, meant, recognised, -, -⟩
    obtain ⟨enough, bounded⟩ := (unpack_frame framed sized).mp unpacked
    have carried : Carried snappy e := ⟨frame, framed, enough, sized, bounded⟩
    have long := long_of_carried carried
    have quiet : e.isInv = true → pendingCount peer s < 1000 := by
      intro inv
      by_contra flood
      have dropped : (recognise around peer e.bytes s).1 = .ok none :=
        recognise_flood long inv (not_lt.mp flood)
      rw [recognised] at dropped
      exact absurd dropped (by simp)
    refine ⟨carried, ?_, quiet⟩
    rw [recognise_bytes long quiet] at recognised
    obtain ⟨found, parsed, same⟩ := map_eq_ok.mp (Prod.mk.inj recognised).1
    obtain rfl := Option.some.inj same
    cases e with
    | addrBroadcast nowMs addr =>
        obtain rfl := Option.some.inj meant
        exact absurd parsed broadcast_misread
    | _ => rfl
  · rintro ⟨carried, other, quiet⟩
    have long := long_of_carried carried
    obtain ⟨frame, framed, enough, sized, bounded⟩ := carried
    obtain ⟨msg, meant⟩ := exists_payload long
    have unpacked := (unpack_frame framed sized).mpr ⟨enough, bounded⟩
    have parsed := parseMessage_bytes meant other (bounded.trans_lt (by decide))
    have recognised : recognise around peer e.bytes s =
        (.ok (some msg), afterGuard peer e.isInv s) := by
      rw [recognise_bytes long quiet, parsed]
      rfl
    refine ⟨frame, msg, _, framed, sized, unpacked, meant, recognised, ?_, fun log => ?_⟩
    · unfold afterGuard
      split
      · exact ⟨rfl, rfl, rfl⟩
      · exact ⟨rfl, rfl, rfl⟩
    · rw [readerStep_of_unpacked sized unpacked, handleMessage, recognised]

private theorem unpack_plain {msg : Bytes} (long : 4 ≤ msg.length) :
    unpack snappy (0 :: msg) = some msg := by
  rw [unpack, toOption_eq_some, receive_eq_ok, if_neg (by decide)]
  exact ⟨long, rfl⟩

private theorem broadcast_penalised {nowMs : Nat} {addr : PeerAddr} (late : 3 ≤ nowMs)
    (word : nowMs < 256 ^ 8) (log : List Bytes) :
    readerStep snappy (handleMessage around peer) (decreaseReputation around peer) (removePeer peer)
        ⟨.reading, log, s⟩ (.read (0 :: (Emitted.addrBroadcast nowMs addr).bytes)) =
      ⟨.reading, log ++ [(Emitted.addrBroadcast nowMs addr).bytes],
        decreaseReputation around peer s⟩ := by
  have length : (Emitted.addrBroadcast nowMs addr).bytes.length =
      36 + (Codec.utf8 addr.text).length := by
    simp only [Emitted.bytes, encode_address, List.length_append, length_leBytes]
    omega
  have limit : 292 ≤ maxMessageSize := by decide
  have short := addr.short
  have recognised : recognise around peer (Emitted.addrBroadcast nowMs addr).bytes s =
      (fail (.anyhow "bincode"), s) := by
    rw [recognise_bytes (by omega) (by simp [Emitted.isInv, Emitted.tag, msgAddr]),
      broadcast_refused late word]
    rfl
  rw [readerStep_of_unpacked (by rw [List.length_cons]; omega) (unpack_plain (by omega)),
    handleMessage, recognised]
  rfl

private theorem heartbeat_fails (log : List Bytes) :
    readerStep snappy (handleMessage around peer) (decreaseReputation around peer) (removePeer peer)
        ⟨.reading, log, s⟩ (.read (0 :: Emitted.heartbeat.bytes)) =
      ⟨.failed (.error (.invalidBlock "Message too short")), log, s⟩ :=
  rfl

end Way

def sampleAround : Surroundings where
  env := sampleEnv
  world := sampleWorld
  choices _ := Mempool.sampleChoices
  instant tick := tick

def sampleManager (pending : Nat) : PeerManager where
  chain := Mempool.sampleFunded
  mempool := Mempool.new 1000
  knownPeers := []
  pendingInv := (∅ : Map Bytes Nat).insert [7] pending
  peers := ∅
  reputation := ∅
  bans := ∅
  bansPersistent := ∅
  inventory := []
  replies := []
  broadcasts := []
  tick := 0

def samplePeer : Peer := ⟨1, .v4 ⟨#[10, 0, 0, 1], rfl⟩, [7]⟩

def sampleAddr : PeerAddr where
  text := "10.0.0.1:8333"
  visible := ⟨49, [48, 46, 48, 46, 48, 46, 49, 58, 56, 51, 51, 51], by decide, by decide⟩
  short := by decide

/-- What the sample node makes of one message that arrives in a read of its own. -/
def sampleReceived (pending : Nat) (e : Emitted) : Reader PeerManager :=
  readerTask sampleAround sampleSnappy samplePeer (sampleManager pending) [.read (0 :: e.bytes)]

/-- The broadcast of an address and the 1001st inventory cost their sender ten points each, and a
heartbeat ends the reader task. -/
theorem honest_messages_cost :
    (sampleReceived 0 (.addrBroadcast 1732060800000 sampleAddr)).state.reputation.lookup 1 =
        some (-10) ∧
      (sampleReceived 0 .heartbeat).status =
        .failed (.error (.invalidBlock "Message too short")) ∧
      (sampleReceived 1000 (.invTx zeroHash)).state.reputation.lookup 1 = some (-10) := by
  refine ⟨?_, ?_, by decide +kernel⟩
  · rw [sampleReceived, readerTask, run_cons, broadcast_penalised (by decide) (by decide)]
    decide +kernel
  · rw [sampleReceived, readerTask, run_cons, heartbeat_fails]
    rfl

theorem request_understood :
    Understood sampleAround sampleSnappy samplePeer (sampleManager 0) .getAddr :=
  (understood_iff _ _ _ _ _).mpr
    ⟨carried_of_short (by decide) (by decide), by decide, by decide⟩

end Lyrion.Net
