/- GID: Lyrion/Net/Delivery
   digest: Which cuts of the stream hand the sent messages over unchanged. -/

import Lyrion.Net.Panics

set_option autoImplicit false
set_option relaxedAutoImplicit false

namespace Lyrion.Net

open Library.ByteCodec Library.Framing Data Utils Tx Node

/-- The state in which the reader of a connection goes on after a message. -/
def goOn (around : Surroundings) (peer : Peer) : Bytes → PeerManager → Option PeerManager :=
  nextState (handleMessage around peer) (decreaseReputation around peer)

/-- A message that `handle_message` comes back from: it is refused before the arms, or its arm can
slice it, does not panic on it and does not wait for ever. -/
def Answerable (around : Surroundings) (peer : Peer) (data : Bytes) (s : PeerManager) : Prop :=
  Reaches peer data s →
    needed (ofLeBytes (data.take 4)) ≤ data.length ∧
      ∀ msg, parseMessage data = .ok msg →
        ¬ Upsets Fault.isCrash around (entered peer data s) msg ∧
        ¬ Hangs around (around.choices s.tick) (entered peer data s) msg

/-- However the stream is cut, the messages are handed over as they were sent if each read is the
frame of one of them and the handler comes back from all but the last; and, as no frame can be taken
for a shorter or longer one, only then. -/
theorem handed_iff (around : Surroundings) (snappy : Snappy) (peer : Peer) (s : PeerManager)
    (messages reads : List Bytes) (cut : reads.flatten = writerTask snappy messages)
    (sized : ∀ read ∈ reads, read ≠ [] ∧ read.length ≤ maxMessageSize) :
    (OneFrameEach snappy messages reads → GoesOn (goOn around peer) messages s →
      (readerTask around snappy peer s (reads.map .read)).handed = messages) ∧
    (snappy.Exact → (readerTask around snappy peer s (reads.map .read)).handed = messages →
      OneFrameEach snappy messages reads ∧ GoesOn (goOn around peer) messages s) ∧
    ∀ data s, (goOn around peer data s).isSome ↔ Answerable around peer data s := by
  have nonempty : ∀ read ∈ reads, read ≠ [] := fun read member => (sized read member).1
  have bounded : ∀ read ∈ reads, read.length ≤ maxMessageSize :=
    fun read member => (sized read member).2
  rw [readerTask, handed_eq_consumed sized, List.nil_append, ← oneFrameEach_iff bounded]
  refine ⟨fun framed goesOn => (consumed_of_frames framed s).mpr goesOn, ?_, ?_⟩
  · exact fun exact handed => (consumed_iff (exact_frame exact) nonempty cut s).mp handed
  · intro data s
    rw [goOn, nextState_isSome_iff, handleMessage_returns_iff]
    rfl

def sampleHanded (reads : List Bytes) : Reader PeerManager :=
  readerTask sampleAround sampleSnappy samplePeer (sampleManager 0) (reads.map .read)

def sampleRequest : Bytes := leBytes 4 3 ++ leBytes 4 2 ++ zeroHash.toList

/-- Two requests for addresses that arrive in one read are handed over as one message; one that
arrives in two reads ends the task; and one behind a message that panics is not handed over. -/
theorem cut_stream_loses_messages :
    ([[0, 9, 0, 0, 0, 0, 9, 0, 0, 0]].flatten =
        writerTask sampleSnappy [Emitted.getAddr.bytes, Emitted.getAddr.bytes] ∧
      (sampleHanded [[0, 9, 0, 0, 0, 0, 9, 0, 0, 0]]).handed = [[9, 0, 0, 0, 0, 9, 0, 0, 0]]) ∧
    ([[0, 9, 0], [0, 0]].flatten = writerTask sampleSnappy [Emitted.getAddr.bytes] ∧
      (sampleHanded [[0, 9, 0], [0, 0]]).handed = [] ∧
      (sampleHanded [[0, 9, 0], [0, 0]]).status =
        .failed (.error (.invalidBlock "Message too short"))) ∧
    [0 :: sampleRequest, [0, 9, 0, 0, 0]].flatten =
        writerTask sampleSnappy [sampleRequest, Emitted.getAddr.bytes] ∧
      (sampleHanded [0 :: sampleRequest, [0, 9, 0, 0, 0]]).handed = [sampleRequest] := by
  decide +kernel

theorem whole_frames_arrive :
    (sampleHanded [0 :: (Emitted.tx (sampleSpend [])).bytes, [0, 9, 0, 0, 0]]).handed =
        [(Emitted.tx (sampleSpend [])).bytes, Emitted.getAddr.bytes] ∧
      (sampleHanded [0 :: (Emitted.tx (sampleSpend [])).bytes,
        [0, 9, 0, 0, 0]]).state.mempool.pooled = {txHash sampleEnv (sampleSpend [])} := by
  refine ⟨(handed_iff sampleAround sampleSnappy samplePeer (sampleManager 0)
    [(Emitted.tx (sampleSpend [])).bytes, Emitted.getAddr.bytes] _ (by decide +kernel)
    (by decide +kernel)).1 ?_ (Or.inr ?_), by decide +kernel⟩
  · exact .cons (by decide +kernel) (.cons (by decide +kernel) .nil)
  · have answered : (goOn sampleAround samplePeer (Emitted.tx (sampleSpend [])).bytes
        (sampleManager 0)).isSome = true := by decide +kernel
    obtain ⟨s, same⟩ := Option.isSome_iff_exists.mp answered
    exact ⟨s, same, Or.inl rfl⟩

end Lyrion.Net
