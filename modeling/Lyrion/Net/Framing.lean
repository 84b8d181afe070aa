/- GID: Lyrion/Net/Framing
   digest: The frames of the messages of a connection, and the loop that reads them. -/

import Lyrion.Net

set_option autoImplicit false
set_option relaxedAutoImplicit false

namespace Lyrion.Net

open Library.ByteCodec Library.Runs Library.Framing Data Utils

variable {snappy : Snappy}

theorem receive_eq_ok {flag : UInt8} {data msg : Bytes} :
    receive snappy flag data = .ok msg ↔ 4 ≤ data.length ∧
      if flag = 1 then data.length ≤ maxCompressedSize ∧ snappy.uncompress data = some msg ∧
        msg.length ≤ maxMsgDecompressed
      else msg = data := by
  unfold receive processData
  by_cases compressed : flag = 1
  · simp only [compressed, decide_true, if_true, bind_eq_ok, guard_eq_ok, orFail_eq_ok, pure_eq_ok,
      not_lt, gt_iff_lt]
    constructor
    · rintro ⟨processed, ⟨small, decomp, inflated, bounded, rfl⟩, long, rfl⟩
      exact ⟨long, small, inflated, bounded⟩
    · rintro ⟨long, small, inflated, bounded⟩
      exact ⟨msg, ⟨small, msg, inflated, bounded, rfl⟩, long, rfl⟩
  · simp only [compressed, decide_false, Bool.false_eq_true, if_false, bind_eq_ok, pure_eq_ok,
      exists_eq_left', guard_eq_ok, not_lt]
    exact and_congr_right fun _ => eq_comm

private theorem settled_receive (snappy : Snappy) (flag : UInt8) (data : Bytes) :
    Settled (receive snappy flag data) := by
  rw [settled_iff]
  by_cases compressed : flag = 1 <;>
    simp [receive, processData, compressed, raises_bind, raises_ite, Fault.isCrash]

def unpack (snappy : Snappy) : Bytes → Option Bytes
  | [] => none
  | flag :: data => (receive snappy flag data).toOption

theorem frame_eq_some {msg frame : Bytes} :
    snappy.frame msg = some frame ↔
      if msg.length > 1024 then ∃ z, snappy.compress msg = some z ∧ frame = 1 :: z
      else frame = 0 :: msg := by
  unfold Snappy.frame
  split
  case isTrue =>
    rw [Option.map_eq_some_iff]
    exact exists_congr fun z => and_congr_right fun _ => eq_comm
  case isFalse =>
    rw [Option.some.injEq]
    exact eq_comm

theorem unpack_frame {msg frame : Bytes} (framed : snappy.frame msg = some frame)
    (sized : frame.length ≤ maxMessageSize) :
    unpack snappy frame = some msg ↔ 5 ≤ frame.length ∧ msg.length ≤ maxMsgDecompressed := by
  have limits : maxMessageSize = maxCompressedSize ∧ 1024 ≤ maxMsgDecompressed := by decide
  rw [frame_eq_some] at framed
  split at framed
  case isTrue =>
    obtain ⟨z, compressed, rfl⟩ := framed
    rw [unpack, toOption_eq_some, receive_eq_ok, if_pos rfl, snappy.lossless msg z compressed]
    simp only [List.length_cons, true_and] at sized ⊢
    omega
  case isFalse small =>
    subst framed
    rw [unpack, toOption_eq_some, receive_eq_ok, if_neg (by decide)]
    simp only [List.length_cons, and_true]
    omega

/-- A compressed string cannot be cut or continued to one of the same message. This holds of the
format, which states the length of the message at its front and has no empty elements. -/
def Snappy.Exact (snappy : Snappy) : Prop :=
  ∀ data rest msg, snappy.uncompress data = some msg → snappy.uncompress (data ++ rest) = some msg →
    rest = []

theorem exact_frame (exact : snappy.Exact) : Exact snappy.frame (unpack snappy) := by
  intro msg frame read framed received comparable
  rw [frame_eq_some] at framed
  cases read with
  | nil => exact absurd received (by simp [unpack])
  | cons flag data =>
      rw [unpack, toOption_eq_some, receive_eq_ok] at received
      obtain ⟨-, received⟩ := received
      split at framed
      case isTrue =>
        obtain ⟨z, compressed, rfl⟩ := framed
        have inflated := snappy.lossless msg z compressed
        simp only [List.cons_prefix_cons] at comparable
        rcases comparable with ⟨rfl, rest, rfl⟩ | ⟨rfl, rest, rfl⟩
        · rw [exact data rest msg received.2.1 inflated, List.append_nil]
        · rw [exact z rest msg inflated received.2.1, List.append_nil]
      case isFalse =>
        subst framed
        simp only [List.cons_prefix_cons] at comparable
        obtain rfl : flag = 0 := by
          rcases comparable with ⟨same, -⟩ | ⟨same, -⟩
          · exact same
          · exact same.symm
        rw [if_neg (by decide)] at received
        rw [received]

section Reading

variable {σ : Type} {handle : Bytes → σ → Option (Result Unit × σ)} {penalise close : σ → σ}

/-- The handler has come back, with `Ok` or with an error. -/
def Returns (answer : Option (Result Unit × σ)) : Prop :=
  ∃ s, answer = some (.ok (), s) ∨ ∃ e, answer = some (.error (.error e), s)

theorem run_stopped {r : Reader σ} (stopped : r.status ≠ .reading) (arrivals : List Arrival) :
    run (readerStep snappy handle penalise close) r arrivals = r := by
  induction arrivals with
  | nil => rfl
  | cons arrival arrivals ih =>
      have still : readerStep snappy handle penalise close r arrival = r := if_pos stopped
      rw [run_cons, still, ih]

theorem readerStep_of_unpacked {read msg : Bytes} (sized : read.length ≤ maxMessageSize)
    (unpacked : unpack snappy read = some msg) (log : List Bytes) (s : σ) :
    readerStep snappy handle penalise close ⟨.reading, log, s⟩ (.read read) =
      Reader.answered penalise ⟨.reading, log ++ [msg], s⟩ (handle msg s) := by
  cases read with
  | nil => exact absurd unpacked (by simp [unpack])
  | cons flag data =>
      rw [unpack, toOption_eq_some] at unpacked
      simp only [readerStep, ne_eq, not_true_eq_false, if_false, gt_iff_lt, not_lt.mpr sized,
        unpacked]

private theorem readerStep_of_refused {read : Bytes} (nonempty : read ≠ [])
    (sized : read.length ≤ maxMessageSize) (refused : unpack snappy read = none) (log : List Bytes)
    (s : σ) :
    ∃ e, readerStep snappy handle penalise close ⟨.reading, log, s⟩ (.read read) =
      ⟨.failed (.error e), log, s⟩ := by
  obtain ⟨flag, data, rfl⟩ := List.exists_cons_of_ne_nil nonempty
  rcases settled_receive snappy flag data with ⟨msg, received⟩ | ⟨e, received⟩
  · exact absurd refused (by simp [unpack, received, Except.toOption])
  · refine ⟨e, ?_⟩
    simp only [readerStep, ne_eq, not_true_eq_false, if_false, gt_iff_lt, not_lt.mpr sized,
      received, fail]

private theorem readerStep_oversized {read : Bytes} (big : maxMessageSize < read.length)
    (log : List Bytes) (s : σ) :
    readerStep snappy handle penalise close ⟨.reading, log, s⟩ (.read read) =
      ⟨.reading, log, penalise s⟩ := by
  cases read with
  | nil => exact absurd big (Nat.not_lt_zero _)
  | cons flag data =>
      simp only [readerStep, ne_eq, not_true_eq_false, if_false, gt_iff_lt, if_pos big]

def Leaves (snappy : Snappy) : Arrival → Prop
  | .read read => read.length ≤ maxMessageSize ∧ unpack snappy read = none
  | _ => True

variable (snappy handle penalise close) in
theorem readerStep_cases (log : List Bytes) (s : σ) (arrival : Arrival) :
    (Leaves snappy arrival ∧ ∃ status after,
        (status = .closed ∨ ∃ e, status = .failed (.error e)) ∧ (after = s ∨ after = close s) ∧
        readerStep snappy handle penalise close ⟨.reading, log, s⟩ arrival =
          ⟨status, log, after⟩) ∨
      (∃ read, arrival = .read read ∧ maxMessageSize < read.length ∧
        readerStep snappy handle penalise close ⟨.reading, log, s⟩ arrival =
          ⟨.reading, log, penalise s⟩) ∨
      ∃ read msg, arrival = .read read ∧ read.length ≤ maxMessageSize ∧
        unpack snappy read = some msg ∧
        readerStep snappy handle penalise close ⟨.reading, log, s⟩ arrival =
          Reader.answered penalise ⟨.reading, log ++ [msg], s⟩ (handle msg s) := by
  cases arrival with
  | shutdown => exact Or.inl ⟨trivial, .closed, close s, Or.inl rfl, Or.inr rfl, rfl⟩
  | lost => exact Or.inl ⟨trivial, .closed, close s, Or.inl rfl, Or.inr rfl, rfl⟩
  | read read =>
      rcases Nat.lt_or_ge maxMessageSize read.length with big | sized
      · exact Or.inr (Or.inl ⟨read, rfl, big, readerStep_oversized big log s⟩)
      · cases unpacked : unpack snappy read with
        | some msg =>
            refine Or.inr (Or.inr ⟨read, msg, rfl, sized, unpacked, ?_⟩)
            exact readerStep_of_unpacked sized unpacked log s
        | none =>
            refine Or.inl ⟨⟨sized, unpacked⟩, ?_⟩
            by_cases empty : read = []
            · subst empty
              exact ⟨.closed, close s, Or.inl rfl, Or.inr rfl, rfl⟩
            · obtain ⟨e, failed⟩ := readerStep_of_refused empty sized unpacked log s
              exact ⟨.failed (.error e), s, Or.inr ⟨e, rfl⟩, Or.inl rfl, failed⟩

variable (handle penalise) in
def nextState (msg : Bytes) (s : σ) : Option σ :=
  match handle msg s with
  | some (.ok (), s) => some s
  | some (.error (.error _), s) => some (penalise s)
  | _ => none

theorem nextState_isSome_iff (msg : Bytes) (s : σ) :
    (nextState handle penalise msg s).isSome ↔ Returns (handle msg s) := by
  rcases answer : handle msg s with _ | ⟨(e | place) | done, s'⟩ <;>
    simp [nextState, Returns, answer]

/-- The reader hands over what each read unpacks to, up to the first read that fails its checks and
the first message that the handler does not come back from. -/
theorem handed_eq_consumed {reads : List Bytes}
    (sized : ∀ read ∈ reads, read ≠ [] ∧ read.length ≤ maxMessageSize) (log : List Bytes) (s : σ) :
    (run (readerStep snappy handle penalise close) ⟨.reading, log, s⟩ (reads.map .read)).handed =
      log ++ consumed (unpack snappy) (nextState handle penalise) reads s := by
  induction reads generalizing log s with
  | nil => simp [run, consumed]
  | cons read reads ih =>
      obtain ⟨⟨nonempty, bounded⟩, later⟩ := List.forall_mem_cons.mp sized
      rw [List.map_cons, run_cons, consumed]
      cases unpacked : unpack snappy read with
      | none =>
          obtain ⟨e, failed⟩ := readerStep_of_refused nonempty bounded unpacked log s
          rw [failed, run_stopped (by simp), List.append_nil]
      | some msg =>
          rw [readerStep_of_unpacked bounded unpacked]
          simp only [nextState]
          rcases handle msg s with _ | ⟨(e | place) | done, s'⟩
          · rw [Reader.answered, run_stopped (by simp)]
          · rw [Reader.answered, ih later, List.append_assoc, List.singleton_append]
          · rw [run_stopped (by simp [Reader.answered])]
            rfl
          · rw [run_stopped (by simp [Reader.answered])]
            rfl
          · rw [Reader.answered, ih later, List.append_assoc, List.singleton_append]

end Reading

/-- Each read is the frame of one message, which is neither too short nor too long. -/
def OneFrameEach (snappy : Snappy) (messages reads : List Bytes) : Prop :=
  List.Forall₂ (fun msg read => snappy.frame msg = some read ∧ 5 ≤ read.length ∧
    msg.length ≤ maxMsgDecompressed) messages reads

theorem oneFrameEach_iff {messages reads : List Bytes}
    (sized : ∀ read ∈ reads, read.length ≤ maxMessageSize) :
    List.Forall₂ (fun msg read => snappy.frame msg = some read ∧
      unpack snappy read = some msg) messages reads ↔ OneFrameEach snappy messages reads := by
  simp only [OneFrameEach, List.forall₂_iff_zip]
  refine and_congr_right fun _ => forall_congr' fun msg => forall_congr' fun read => ?_
  refine forall_congr' fun paired => and_congr_right fun framed => ?_
  exact unpack_frame framed (sized read (List.of_mem_zip paired).2)

def sampleSnappy : Snappy := ⟨some, some, fun _ _ same => same.symm⟩

end Lyrion.Net
