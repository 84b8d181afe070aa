/- GID: Lyrion/Net/Bans
   digest: What a penalty costs a connection, when its address is banned, and what that stops. -/

import Lyrion.Net.Panics

set_option autoImplicit false
set_option relaxedAutoImplicit false

namespace Lyrion.Net

open Library.ByteCodec Library.KeyValue Library.Runs Data Utils Tx Node

variable {r : Reader PeerManager}

def reputationOf (peer : Peer) (s : PeerManager) : Int8 := (s.reputation.lookup peer.id).getD 0

def SameStanding (s t : PeerManager) : Prop := t.reputation = s.reputation ∧ t.bans = s.bans

private theorem SameStanding.refl (s : PeerManager) : SameStanding s s := ⟨rfl, rfl⟩

private theorem SameStanding.trans {s t u : PeerManager} (first : SameStanding s t)
    (second : SameStanding t u) : SameStanding s u :=
  ⟨second.1.trans first.1, second.2.trans first.2⟩

section Penalty

variable (around : Surroundings) (peer : Peer) (s : PeerManager)

private theorem reputationOf_decreaseReputation :
    reputationOf peer (decreaseReputation around peer s) = reputationOf peer s - 10 := by
  simp only [decreaseReputation]
  split
  · simp [banIp, reputationOf]
  · simp [reputationOf]

private theorem mem_bans_decreaseReputation :
    peer.ip ∈ (decreaseReputation around peer s).bans ↔
      peer.ip ∈ s.bans ∨ reputationOf peer s - 10 ≤ -50 := by
  simp only [decreaseReputation, reputationOf]
  split
  · rename_i low
    simp [banIp, low]
  · rename_i high
    simp [high]

private theorem pendingInv_decreaseReputation :
    (decreaseReputation around peer s).pendingInv = s.pendingInv := by
  simp only [decreaseReputation]
  split
  · rfl
  · rfl

private theorem sameStanding_removePeer : SameStanding s (removePeer peer s) := by
  unfold removePeer
  split
  · exact SameStanding.refl s
  · exact ⟨rfl, rfl⟩

end Penalty

section Handling

variable (around : Surroundings)

def KeepsStanding (s : PeerManager) (answer : Option (Result Unit × PeerManager)) : Prop :=
  ∀ result s', answer = some (result, s') → SameStanding s s'

private theorem keepsStanding_none (s : PeerManager) : KeepsStanding s none := by
  intro result s' answered
  exact absurd answered (by simp)

private theorem keepsStanding_some {s s' : PeerManager} {result : Result Unit}
    (same : SameStanding s s') :
    KeepsStanding s (some (result, s')) := by
  intro other t answered
  obtain ⟨-, rfl⟩ := Prod.mk.inj (Option.some.inj answered)
  exact same

private theorem keepsStanding_addHeaders (headers : List BlockHeader) (prevHash : Hash)
    (s : PeerManager) : KeepsStanding s (addHeaders around headers prevHash s) := by
  induction headers generalizing prevHash s with
  | nil => exact keepsStanding_some (SameStanding.refl s)
  | cons header rest ih =>
      rw [addHeaders_cons]
      split
      · exact keepsStanding_some (SameStanding.refl s)
      · split
        · exact keepsStanding_some (SameStanding.refl s)
        · simp only
          split
          · exact keepsStanding_some ⟨rfl, rfl⟩
          · intro result s' answered
            have later := ih _ _ result s' answered
            exact SameStanding.trans ⟨rfl, rfl⟩ later

private theorem keepsStanding_serve (choices : Choices) (peer : Peer) (s : PeerManager)
    (msg : Message) :
    KeepsStanding s (serve around choices peer s msg) := by
  cases msg with
  | inv kind hash => exact keepsStanding_some ⟨rfl, rfl⟩
  | getData kind hash =>
      simp only [serve]
      split
      · split
        · exact keepsStanding_some ⟨rfl, rfl⟩
        · exact keepsStanding_some ⟨rfl, rfl⟩
      · split
        · split
          · exact keepsStanding_some ⟨rfl, rfl⟩
          · split
            · exact keepsStanding_some ⟨rfl, rfl⟩
            · exact keepsStanding_some ⟨rfl, rfl⟩
        · exact keepsStanding_some ⟨rfl, rfl⟩
  | getHeaders locator stop =>
      simp only [serve]
      split
      · exact keepsStanding_some ⟨rfl, rfl⟩
      · exact keepsStanding_some ⟨rfl, rfl⟩
  | tx tx =>
      simp only [serve]
      split
      · exact keepsStanding_none s
      · exact keepsStanding_some ⟨rfl, rfl⟩
      · exact keepsStanding_some ⟨rfl, rfl⟩
  | block block =>
      simp only [serve]
      split
      · exact keepsStanding_none s
      · exact keepsStanding_some ⟨rfl, rfl⟩
      · exact keepsStanding_some ⟨rfl, rfl⟩
      · split
        · exact keepsStanding_some ⟨rfl, rfl⟩
        · exact keepsStanding_some ⟨rfl, rfl⟩
  | headers headers =>
      cases headers with
      | nil => exact keepsStanding_some ⟨rfl, rfl⟩
      | cons first rest =>
          exact keepsStanding_addHeaders around (first :: rest) first.prevHash s
  | getAddr => exact keepsStanding_some ⟨rfl, rfl⟩
  | addr addrs => exact keepsStanding_some ⟨rfl, rfl⟩
  | pong => exact keepsStanding_some ⟨rfl, rfl⟩

private theorem sameStanding_counted (peer : Peer) (data : Bytes) (s : PeerManager) :
    SameStanding s (counted peer data s) :=
  ⟨rfl, rfl⟩

private theorem handleMessage_standing {peer : Peer} {data : Bytes} {s s' : PeerManager}
    {result : Result Unit} (handled : handleMessage around peer data s = some (result, s')) :
    (Flooded peer data s ∧ result = .ok () ∧
        s' = decreaseReputation around peer (counted peer data s)) ∨
      ((Flooded peer data s → result ≠ .ok ()) ∧ SameStanding s s') := by
  rcases handleMessage_cases around peer data s with
    ⟨-, short⟩ | ⟨-, flooded, taken⟩ | ⟨reaches, ⟨fault, -, refused⟩ | ⟨msg, -, served⟩⟩
  · obtain ⟨rfl, rfl⟩ := Prod.mk.inj (Option.some.inj (short.symm.trans handled))
    exact Or.inr ⟨fun _ => by simp [fail], SameStanding.refl _⟩
  · obtain ⟨rfl, rfl⟩ := Prod.mk.inj (Option.some.inj (taken.symm.trans handled))
    exact Or.inl ⟨flooded, rfl, rfl⟩
  · obtain ⟨rfl, rfl⟩ := Prod.mk.inj (Option.some.inj (refused.symm.trans handled))
    exact Or.inr ⟨fun flooded => absurd flooded reaches.2, sameStanding_counted peer data s⟩
  · have kept : SameStanding (entered peer data s) s' :=
      keepsStanding_serve around _ peer _ msg result s' (served.symm.trans handled)
    exact Or.inr ⟨fun flooded => absurd flooded reaches.2, SameStanding.trans ⟨rfl, rfl⟩ kept⟩

end Handling

instance decidableFlooded (peer : Peer) (data : Bytes) (s : PeerManager) :
    Decidable (Flooded peer data s) :=
  inferInstanceAs (Decidable (_ ∧ _))

section Rounds

variable (around : Surroundings) (snappy : Snappy) (peer : Peer)

/-- The message is held against its sender: the guard takes it, or the handler answers with an
error. -/
def heldAgainst (data : Bytes) (s : PeerManager) : Bool :=
  match handleMessage around peer data s with
  | some (.ok (), _) => decide (Flooded peer data s)
  | some (.error (.error _), _) => true
  | _ => false

def offends (r : Reader PeerManager) : Arrival → Bool
  | .read buf =>
      decide (r.status = .reading) &&
        (decide (maxMessageSize < buf.length) ||
          (unpack snappy buf).any fun data => heldAgainst around peer data r.state)
  | _ => false

def peerRound : Reader PeerManager → Arrival → Reader PeerManager :=
  readerStep snappy (handleMessage around peer) (decreaseReputation around peer) (removePeer peer)

def offences (s : PeerManager) (arrivals : List Arrival) : Nat :=
  occurrences (peerRound around snappy peer) (offends around snappy peer) ⟨.reading, [], s⟩ arrivals

end Rounds

section Standing

variable {around : Surroundings} {snappy : Snappy} {peer : Peer}

variable (around snappy peer) in
private theorem peerRound_cases (log : List Bytes) (s : PeerManager) (arrival : Arrival) :
    (Leaves snappy arrival ∧ ∃ status after, status ≠ .reading ∧
        (after = s ∨ after = removePeer peer s) ∧
        peerRound around snappy peer ⟨.reading, log, s⟩ arrival = ⟨status, log, after⟩) ∨
      (∃ buf, arrival = .read buf ∧ maxMessageSize < buf.length ∧
        peerRound around snappy peer ⟨.reading, log, s⟩ arrival =
          ⟨.reading, log, decreaseReputation around peer s⟩) ∨
      ∃ buf data, arrival = .read buf ∧ buf.length ≤ maxMessageSize ∧
        unpack snappy buf = some data ∧
        peerRound around snappy peer ⟨.reading, log, s⟩ arrival =
          Reader.answered (decreaseReputation around peer) ⟨.reading, log ++ [data], s⟩
            (handleMessage around peer data s) := by
  refine (readerStep_cases snappy _ _ _ log s arrival).imp_left ?_
  rintro ⟨leaves, status, after, ended, left, step⟩
  refine ⟨leaves, status, after, ?_, left, step⟩
  rcases ended with rfl | ⟨e, rfl⟩
  · simp
  · simp

private theorem peerRound_stopped (stopped : r.status ≠ .reading) (arrival : Arrival) :
    peerRound around snappy peer r arrival = r :=
  if_pos stopped

private theorem peerRound_standing (r : Reader PeerManager) (arrival : Arrival) :
    (offends around snappy peer r arrival = true ∧ ∃ t, SameStanding r.state t ∧
        (peerRound around snappy peer r arrival).state = decreaseReputation around peer t) ∨
      (offends around snappy peer r arrival = false ∧
        SameStanding r.state (peerRound around snappy peer r arrival).state) := by
  by_cases reading : r.status = .reading
  case neg =>
    rw [peerRound_stopped reading]
    refine Or.inr ⟨?_, SameStanding.refl r.state⟩
    cases arrival <;> simp [offends, reading]
  obtain ⟨status, log, s⟩ := r
  obtain rfl : status = .reading := reading
  rcases peerRound_cases around snappy peer log s arrival with
    ⟨leaves, status, after, -, left, step⟩ | ⟨buf, rfl, big, step⟩ |
      ⟨buf, data, rfl, sized, unpacked, step⟩
  · refine Or.inr ⟨?_, ?_⟩
    · cases arrival with
      | read buf => simp [offends, not_lt.mpr leaves.1, leaves.2]
      | _ => rfl
    · rw [step]
      rcases left with rfl | rfl
      · exact SameStanding.refl _
      · exact sameStanding_removePeer peer s
  · rw [step]
    exact Or.inl ⟨by simp [offends, big], s, SameStanding.refl s, rfl⟩
  · have verdict : offends around snappy peer ⟨.reading, log, s⟩ (.read buf) =
        heldAgainst around peer data s := by
      simp [offends, not_lt.mpr sized, unpacked]
    rw [step, verdict]
    unfold heldAgainst
    cases handled : handleMessage around peer data s with
    | none => exact Or.inr ⟨rfl, SameStanding.refl s⟩
    | some answer =>
        obtain ⟨result, s'⟩ := answer
        rcases handleMessage_standing around handled with
          ⟨flooded, rfl, rfl⟩ | ⟨passed, kept⟩
        · exact Or.inl ⟨by simp [flooded], _, sameStanding_counted peer data s, rfl⟩
        · rcases result with (e | place) | done
          · exact Or.inl ⟨rfl, s', kept, rfl⟩
          · exact Or.inr ⟨rfl, kept⟩
          · exact Or.inr ⟨rfl, kept⟩
          · exact Or.inr ⟨by simpa using fun flooded => passed flooded rfl, kept⟩

/-! The reputation after a number of penalties, counted from zero. -/

private theorem level_succ (n : Nat) :
    Int8.ofInt (-(10 * n)) - 10 = Int8.ofInt (-(10 * (n + 1 : Nat))) := by
  have split : (-(10 * (n + 1 : Nat)) : Int) = -(10 * n) - 10 := by
    push_cast
    ring
  rw [split, Int8.ofInt_sub]
  rfl

private theorem level_le_iff {n : Nat} (few : n ≤ 4) :
    Int8.ofInt (-(10 * (n + 1 : Nat))) ≤ -50 ↔ 5 ≤ n + 1 := by
  interval_cases n <;> decide

private theorem toInt_level {n : Nat} (few : n ≤ 12) : (Int8.ofInt (-(10 * n))).toInt = -(10 * n) :=
  Int8.toInt_ofInt_of_le (by omega) (by omega)

private theorem readerTask_standing {s : PeerManager} (fresh : reputationOf peer s = 0)
    (arrivals : List Arrival) :
    reputationOf peer (readerTask around snappy peer s arrivals).state =
        Int8.ofInt (-(10 * offences around snappy peer s arrivals)) ∧
      (peer.ip ∈ (readerTask around snappy peer s arrivals).state.bans ↔
        peer.ip ∈ s.bans ∨ 5 ≤ offences around snappy peer s arrivals) := by
  induction arrivals using List.reverseRecOn with
  | nil =>
      refine ⟨fresh, ?_⟩
      simp [readerTask, run, offences, occurrences]
  | append_singleton arrivals arrival ih =>
      obtain ⟨level, banned⟩ := ih
      have last : readerTask around snappy peer s (arrivals ++ [arrival]) =
          peerRound around snappy peer (readerTask around snappy peer s arrivals) arrival :=
        run_concat _ _ _ _
      have count : offences around snappy peer s (arrivals ++ [arrival]) =
          offences around snappy peer s arrivals +
            if offends around snappy peer (readerTask around snappy peer s arrivals) arrival
            then 1 else 0 :=
        occurrences_concat _ _ _ _ _
      rw [last, count]
      rcases peerRound_standing (readerTask around snappy peer s arrivals) arrival with
        ⟨offending, t, kept, after⟩ | ⟨harmless, kept⟩
      · have before : reputationOf peer t =
            Int8.ofInt (-(10 * offences around snappy peer s arrivals)) := by
          rw [← level, reputationOf, kept.1, reputationOf]
        rw [after, offending, if_pos rfl, reputationOf_decreaseReputation,
          mem_bans_decreaseReputation, before, level_succ, kept.2, banned]
        refine ⟨rfl, ?_⟩
        rcases Nat.lt_or_ge 4 (offences around snappy peer s arrivals) with many | few
        · have enough : 5 ≤ offences around snappy peer s arrivals + 1 := by omega
          simp [enough, show 5 ≤ offences around snappy peer s arrivals from many]
        · rw [level_le_iff few]
          have below : ¬ 5 ≤ offences around snappy peer s arrivals := by omega
          simp [below]
      · rw [harmless]
        simp only [Bool.false_eq_true, if_false, Nat.add_zero]
        rw [reputationOf, kept.1, kept.2]
        exact ⟨level, banned⟩

end Standing

/-! What a ban is for, and what there is instead. -/

section Ban

variable (around : Surroundings) (snappy : Snappy) (peer : Peer)

/-- The subtraction in `decrease_reputation` leaves the range of an `i8`. -/
def Overflows (r : Reader PeerManager) (arrival : Arrival) : Prop :=
  offends around snappy peer r arrival = true ∧ (reputationOf peer r.state).toInt - 10 < -128

def Dispatches (r : Reader PeerManager) : Arrival → Prop
  | .read buf => r.status = .reading ∧ ∃ data, Dispatched snappy peer r.state buf data
  | _ => False

/-- Bans take effect over some arrivals: no subtraction overflows, and once the address is banned,
no message is dispatched. -/
structure BansHold (s : PeerManager) (arrivals : List Arrival) : Prop where
  inRange : ∀ before arrival after, arrivals = before ++ arrival :: after →
    ¬ Overflows around snappy peer (readerTask around snappy peer s before) arrival
  obeyed : ∀ before arrival after, arrivals = before ++ arrival :: after →
    peer.ip ∈ (readerTask around snappy peer s before).state.bans →
    ¬ Dispatches snappy peer (readerTask around snappy peer s before) arrival

/-- The arrivals that the reader goes on after, with a penalty and without the arms: a read that is
too long, or a message that is too short or that the guard takes. -/
def Muted (s : PeerManager) : Arrival → Prop
  | .read buf => maxMessageSize < buf.length ∨
      ∃ data, unpack snappy buf = some data ∧ ¬ Reaches peer data s
  | _ => False

def Silent (s : PeerManager) : List Arrival → Prop
  | [] => True
  | arrival :: arrivals => Leaves snappy arrival ∨ Muted snappy peer s arrival ∧ Silent s arrivals

end Ban

section Silence

variable (around : Surroundings) {snappy : Snappy} {peer : Peer} {s t : PeerManager}

private theorem reaches_congr (same : 1000 ≤ pendingCount peer s ↔ 1000 ≤ pendingCount peer t)
    (data : Bytes) : Reaches peer data s ↔ Reaches peer data t := by
  simp only [pendingCount] at same
  simp only [Reaches, Flooded, gt_iff_lt, Nat.lt_add_one_iff, same]

private theorem silent_congr (same : ∀ data, Reaches peer data s ↔ Reaches peer data t)
    (arrivals : List Arrival) : Silent snappy peer s arrivals ↔ Silent snappy peer t arrivals := by
  induction arrivals with
  | nil => exact Iff.rfl
  | cons arrival arrivals ih =>
      have muted : Muted snappy peer s arrival ↔ Muted snappy peer t arrival := by
        cases arrival <;> simp [Muted, same]
      rw [Silent, Silent, muted, ih]

private theorem not_dispatches_of_stopped (stopped : r.status ≠ .reading) (arrival : Arrival) :
    ¬ Dispatches snappy peer r arrival := by
  cases arrival with
  | read buf => exact fun dispatches => stopped dispatches.1
  | _ => exact id

private theorem not_dispatches_iff (reading : r.status = .reading) (arrival : Arrival) :
    ¬ Dispatches snappy peer r arrival ↔
      Leaves snappy arrival ∨ Muted snappy peer r.state arrival := by
  cases arrival with
  | shutdown => simp [Dispatches, Leaves]
  | lost => simp [Dispatches, Leaves]
  | read buf =>
      rcases Nat.lt_or_ge maxMessageSize buf.length with big | sized
      · simp [Dispatches, Dispatched, Muted, big]
      · cases unpacked : unpack snappy buf with
        | none => simp [Dispatches, Dispatched, Leaves, sized, unpacked]
        | some data =>
            simp [Dispatches, Dispatched, Leaves, Muted, reading, sized, unpacked,
              not_lt.mpr sized]

private theorem peerRound_of_leaves (log : List Bytes) {arrival : Arrival}
    (leaves : Leaves snappy arrival) :
    (peerRound around snappy peer ⟨.reading, log, s⟩ arrival).status ≠ .reading := by
  rcases peerRound_cases around snappy peer log s arrival with
    ⟨-, status, after, stopped, -, step⟩ | ⟨buf, rfl, big, -⟩ | ⟨buf, data, rfl, -, unpacked, -⟩
  · rw [step]
    exact stopped
  · exact absurd leaves.1 (not_le.mpr big)
  · exact absurd leaves.2 (by simp [unpacked])

private theorem handleMessage_of_muted {data : Bytes} (stopped : ¬ Reaches peer data s)
    (log : List Bytes) :
    ∃ t, Reader.answered (decreaseReputation around peer) ⟨.reading, log, s⟩
        (handleMessage around peer data s) = ⟨.reading, log, decreaseReputation around peer t⟩ ∧
      (1000 ≤ pendingCount peer t ↔ 1000 ≤ pendingCount peer s) := by
  rcases handleMessage_cases around peer data s with
    ⟨-, handled⟩ | ⟨-, flooded, handled⟩ | ⟨reaches, -⟩
  · rw [handled]
    exact ⟨s, rfl, Iff.rfl⟩
  · rw [handled]
    refine ⟨counted peer data s, rfl, ?_⟩
    obtain ⟨inventory, many⟩ := flooded
    have next : pendingCount peer (counted peer data s) = pendingCount peer s + 1 := by
      simp [pendingCount, counted, inventory]
    have limit : 1000 ≤ pendingCount peer s := Nat.lt_add_one_iff.mp many
    rw [next]
    omega
  · exact absurd reaches stopped

private theorem peerRound_of_muted (log : List Bytes) {arrival : Arrival}
    (muted : Muted snappy peer s arrival) :
    (peerRound around snappy peer ⟨.reading, log, s⟩ arrival).status = .reading ∧
      ∀ data, Reaches peer data (peerRound around snappy peer ⟨.reading, log, s⟩ arrival).state ↔
        Reaches peer data s := by
  rcases peerRound_cases around snappy peer log s arrival with
    ⟨leaves, -⟩ | ⟨buf, rfl, -, step⟩ | ⟨buf, data, rfl, sized, unpacked, step⟩
  · cases arrival with
    | read buf =>
        rcases muted with big | ⟨data, unpacked, -⟩
        · exact absurd leaves.1 (not_le.mpr big)
        · exact absurd leaves.2 (by simp [unpacked])
    | _ => exact absurd muted id
  · rw [step]
    refine ⟨rfl, reaches_congr ?_⟩
    rw [pendingCount, pendingInv_decreaseReputation, pendingCount]
  · have stopped : ¬ Reaches peer data s := by
      rcases muted with big | ⟨other, again, stopped⟩
      · exact absurd sized (not_le.mpr big)
      · obtain rfl := Option.some.inj (unpacked.symm.trans again)
        exact stopped
    obtain ⟨t, answered, guarded⟩ := handleMessage_of_muted around stopped (log ++ [data])
    rw [step, answered]
    refine ⟨rfl, reaches_congr ?_⟩
    rw [← guarded, pendingCount, pendingInv_decreaseReputation, pendingCount]

private theorem never_dispatches_iff (reading : r.status = .reading) (arrivals : List Arrival) :
    (∀ before arrival after, arrivals = before ++ arrival :: after →
        ¬ Dispatches snappy peer (run (peerRound around snappy peer) r before) arrival) ↔
      Silent snappy peer r.state arrivals := by
  induction arrivals generalizing r with
  | nil => simp [Silent]
  | cons first arrivals ih =>
      obtain ⟨status, log, s⟩ := r
      obtain rfl : status = .reading := reading
      constructor
      · intro never
        have now := (not_dispatches_iff rfl first).mp (never [] first arrivals rfl)
        refine now.imp_right fun muted => ⟨muted, ?_⟩
        obtain ⟨still, guarded⟩ := peerRound_of_muted around log muted
        rw [← silent_congr guarded, ← ih still]
        intro before arrival after split
        exact never (first :: before) arrival after (by rw [split, List.cons_append])
      · intro silent before arrival after split
        cases before with
        | nil =>
            obtain ⟨rfl, rfl⟩ := List.cons.inj split
            exact (not_dispatches_iff rfl first).mpr (silent.imp_right And.left)
        | cons earliest before =>
            obtain ⟨rfl, rest⟩ := List.cons.inj split
            rw [run_cons]
            rcases silent with leaves | ⟨muted, silent⟩
            · have stopped : (peerRound around snappy peer ⟨.reading, log, s⟩ first).status ≠
                  .reading := peerRound_of_leaves around log leaves
              have ended : run (peerRound around snappy peer)
                  (peerRound around snappy peer ⟨.reading, log, s⟩ first) before =
                    peerRound around snappy peer ⟨.reading, log, s⟩ first :=
                run_stopped stopped before
              rw [ended]
              exact not_dispatches_of_stopped stopped arrival
            · obtain ⟨still, guarded⟩ := peerRound_of_muted around log muted
              exact (ih still).mpr ((silent_congr guarded _).mpr silent) before arrival after rest

end Silence

section Effect

variable {around : Surroundings} {snappy : Snappy} {peer : Peer} {s : PeerManager}

private theorem offences_append (before after : List Arrival) :
    offences around snappy peer s (before ++ after) = offences around snappy peer s before +
      occurrences (peerRound around snappy peer) (offends around snappy peer)
        (readerTask around snappy peer s before) after :=
  occurrences_append _ _ _ _ _

private theorem inRange_iff (fresh : reputationOf peer s = 0) (arrivals : List Arrival) :
    (∀ before arrival after, arrivals = before ++ arrival :: after →
        ¬ Overflows around snappy peer (readerTask around snappy peer s before) arrival) ↔
      offences around snappy peer s arrivals ≤ 12 := by
  constructor
  · intro fits
    by_contra many
    obtain ⟨before, arrival, after, split, count, offending⟩ :=
      exists_of_lt_occurrences _ _ (not_le.mp many)
    refine fits before arrival after split ⟨offending, ?_⟩
    have twelve : offences around snappy peer s before = 12 := count
    rw [(readerTask_standing fresh before).1, toInt_level twelve.le, twelve]
    decide
  · rintro few before arrival after rfl ⟨offending, low⟩
    rw [offences_append, occurrences, if_pos offending] at few
    rw [(readerTask_standing fresh before).1, toInt_level (by omega)] at low
    omega

private theorem obeyed_iff (fresh : reputationOf peer s = 0) (arrivals : List Arrival) :
    (∀ before arrival after, arrivals = before ++ arrival :: after →
        peer.ip ∈ (readerTask around snappy peer s before).state.bans →
        ¬ Dispatches snappy peer (readerTask around snappy peer s before) arrival) ↔
      ∀ before after, arrivals = before ++ after →
        peer.ip ∈ s.bans ∨ 5 ≤ offences around snappy peer s before →
        (readerTask around snappy peer s before).status = .reading →
        Silent snappy peer (readerTask around snappy peer s before).state after := by
  simp only [(readerTask_standing fresh _).2]
  constructor
  · intro obeyed before after split banned reading
    refine (never_dispatches_iff around reading after).mp ?_
    intro between arrival later rest
    have joined : run (peerRound around snappy peer) (readerTask around snappy peer s before)
        between = readerTask around snappy peer s (before ++ between) :=
      (List.foldl_append ..).symm
    rw [joined]
    refine obeyed (before ++ between) arrival later (by rw [split, rest, List.append_assoc]) ?_
    refine banned.imp_right fun enough => ?_
    rw [offences_append]
    omega
  · intro silent before arrival after split banned
    by_cases reading : (readerTask around snappy peer s before).status = .reading
    · have quiet := silent before (arrival :: after) split banned reading
      exact (never_dispatches_iff around reading _).mpr quiet [] arrival after rfl
    · exact not_dispatches_of_stopped reading arrival

end Effect

/-- Over the arrivals of a new connection, bans take effect exactly if there are at most twelve
penalties, and if from the fifth on, or from the start where the address is banned already, the peer
sends nothing that the handler could act on. -/
theorem bansHold_iff (around : Surroundings) (snappy : Snappy) (peer : Peer) (s : PeerManager)
    (fresh : reputationOf peer s = 0) (arrivals : List Arrival) :
    BansHold around snappy peer s arrivals ↔
      offences around snappy peer s arrivals ≤ 12 ∧
        ∀ before after, arrivals = before ++ after →
          peer.ip ∈ s.bans ∨ 5 ≤ offences around snappy peer s before →
          (readerTask around snappy peer s before).status = .reading →
          Silent snappy peer (readerTask around snappy peer s before).state after := by
  rw [← inRange_iff fresh, ← obeyed_iff fresh]
  exact ⟨fun hold => ⟨hold.inRange, hold.obeyed⟩, fun both => ⟨both.1, both.2⟩⟩

def sampleJunk : Arrival := .read [0, 7, 0, 0, 0]

def sampleHeard (count : Nat) : Reader PeerManager :=
  readerTask sampleAround sampleSnappy samplePeer (sampleManager 0)
    (List.replicate count sampleJunk)

/-- The fifth invalid message bans the address, and the sixth is dispatched all the same. The
thirteenth takes the reputation out of its range, to 126. -/
theorem banned_peer_still_heard :
    (samplePeer.ip ∈ (sampleHeard 5).state.bans ∧
        Dispatches sampleSnappy samplePeer (sampleHeard 5) sampleJunk) ∧
      Overflows sampleAround sampleSnappy samplePeer (sampleHeard 12) sampleJunk ∧
      reputationOf samplePeer (sampleHeard 13).state = 126 := by
  refine ⟨⟨by decide +kernel, ?_⟩, by unfold Overflows; decide +kernel, by decide +kernel⟩
  refine ⟨by decide +kernel, [7, 0, 0, 0], ⟨by decide, rfl⟩, by decide, ?_⟩
  decide +kernel

def sampleParting : List Arrival := List.replicate 5 sampleJunk ++ [.lost]

theorem banned_peer_gone :
    BansHold sampleAround sampleSnappy samplePeer (sampleManager 0) sampleParting := by
  refine (bansHold_iff _ _ _ _ (by decide +kernel) _).mpr ⟨by decide +kernel, ?_⟩
  intro before after split banned reading
  have length : before.length ≤ 6 := by
    have whole := congrArg List.length split
    simp only [sampleParting, List.length_append, List.length_replicate, List.length_singleton]
      at whole
    omega
  obtain ⟨n, short, rfl, rfl⟩ : ∃ n ≤ 6, before = sampleParting.take n ∧
      after = sampleParting.drop n :=
    ⟨before.length, length, by simp [split], by simp [split]⟩
  have early : ∀ n ≤ 4, ¬ (samplePeer.ip ∈ (sampleManager 0).bans ∨
      5 ≤ offences sampleAround sampleSnappy samplePeer (sampleManager 0)
        (sampleParting.take n)) := by
    decide +kernel
  rcases (by omega : n ≤ 4 ∨ n = 5 ∨ n = 6) with few | rfl | rfl
  · exact absurd banned (early n few)
  · exact Or.inl trivial
  · exact absurd reading (by decide +kernel)

end Lyrion.Net
