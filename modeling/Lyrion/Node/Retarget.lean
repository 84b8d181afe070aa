/- GID: Lyrion/Node/Retarget
   digest: The subtraction and the rounding of a retarget: when the period is not negative, and how
     far the new target is from the computed one. -/

import Lyrion.Node.BlockRules
import Lyrion.Node.Difficulty

set_option autoImplicit false
set_option relaxedAutoImplicit false

namespace Lyrion.Node

open Library.ByteCodec Library.KeyValue Library.LeadingDigits Library.OrderStatistics Data Utils Tx

section Times

/-- Headers accepted one after the other: each is later than the median of the up to eleven before
it, and at most two hours ahead of a clock that does not go back. -/
structure Timely (time : Nat → UInt32) (clock : Nat → Nat) (length : Nat) : Prop where
  steady : Monotone clock
  late : ∀ i, 0 < i → i < length → medianAt time (i - 1) < time i
  early : ∀ i, 0 < i → i < length → (time i).toNat ≤ clock i + 7200

theorem timely_of_validateBlock {env : Env} {db : Db} {block : Nat → Block}
    {bestHeight height now : Nat} (positive : 0 < height) (stored : StoredChain db block height)
    (valid : validateBlock env db bestHeight (some now) (block height) height = .ok ()) :
    medianAt (timeOf block) (height - 1) < timeOf block height ∧
      (timeOf block height).toNat ≤ now / 1000 + 7200 := by
  obtain ⟨_, _, _, rules⟩ := validateBlock_eq_ok.mp valid
  obtain ⟨hash, _, context⟩ := rules.header
  have parent : usizeSub height 1 = height - 1 := usizeSub_of_le positive
  simp only [checkContext, parent, bind_eq_ok, orFail_eq_ok, fail_bind, guard_eq_ok, not_or, not_le,
    not_lt] at context
  obtain ⟨median, found, reading, same, ⟨late, early⟩, _⟩ := context
  obtain rfl := Option.some.inj same
  have here := getMedianTimestamp_of_stored stored (Nat.sub_lt positive one_pos)
  obtain rfl := Except.ok.inj (here.symm.trans found)
  refine ⟨late, ?_⟩
  have words := UInt32.le_iff_toNat_le.mp early
  rw [UInt32.toNat_add, UInt32.toNat_ofNat'] at words
  calc (timeOf block height).toNat ≤ (now / 1000 % 2 ^ 32 + 7200) % 2 ^ 32 := words
    _ ≤ now / 1000 % 2 ^ 32 + 7200 := Nat.mod_le _ _
    _ ≤ now / 1000 + 7200 := Nat.add_le_add_right (Nat.mod_le _ _) _

variable {time : Nat → UInt32} {clock : Nat → Nat}

private theorem medianAt_congr {other : Nat → UInt32} {height : Nat}
    (same : ∀ j ≤ height, time j = other j) : medianAt time height = medianAt other height := by
  have window : windowTimes time height = windowTimes other height := by
    apply List.map_congr_left
    intro j member
    have below := lt_of_mem_medianWindow (Nat.succ_pos height) (List.mem_reverse.mp member)
    exact same j (by omega)
  rw [medianAt, medianAt, window]

private theorem medianAt_zero : medianAt time 0 = time 0 := by
  simp [medianAt, windowTimes, medianWindow, middle, nth]

private theorem medianAt_lt_of_few {height few : Nat} {bound : UInt32}
    (reached : (medianWindow height).countP (fun j => bound ≤ time j) ≤ few)
    (room : (height - (height - 10) + 1) / 2 + few < height - (height - 10) + 1) :
    medianAt time height < bound := by
  have whole := (medianWindow height).length_eq_countP_add_countP (fun j => bound ≤ time j)
  simp only [decide_eq_true_eq, not_le] at whole
  rw [show (medianWindow height).length = height - (height - 10) + 1 by simp [medianWindow]]
    at whole
  rw [medianAt, middle_lt_iff (windowTimes_ne_nil time height), length_windowTimes, windowTimes,
    List.countP_map, List.countP_reverse]
  change _ < (medianWindow height).countP fun j => time j < bound
  omega

private theorem medianAt_lt_of_below {height : Nat} {bound : UInt32}
    (below : ∀ j ≤ height, time j < bound) :
    medianAt time height < bound := by
  have none_reached : (medianWindow height).countP (fun j => bound ≤ time j) = 0 := by
    rw [List.countP_eq_zero]
    intro j member
    have inside := lt_of_mem_medianWindow (Nat.succ_pos height) member
    simpa using below j (by omega)
  exact medianAt_lt_of_few none_reached.le (by omega)

private theorem medianAt_lt_of_spike (spike : Nat) {height : Nat} {bound : UInt32}
    (deep : 2 ≤ height) (below : ∀ j ≤ height, j ≠ spike → time j < bound) : medianAt time height <
    bound := by
  have once : (medianWindow height).countP (fun j => bound ≤ time j) ≤ 1 := by
    calc (medianWindow height).countP (fun j => bound ≤ time j)
        ≤ (medianWindow height).count spike := by
          apply List.countP_mono_left
          intro j member high
          have inside := lt_of_mem_medianWindow (Nat.succ_pos height) member
          by_contra other
          have low := below j (by omega) (by simpa using other)
          exact absurd (of_decide_eq_true high) (not_le.mpr low)
      _ ≤ 1 := List.nodup_iff_count_le_one.mp List.nodup_range' spike
  exact medianAt_lt_of_few once (by omega)

end Times

section Subtraction

variable {time : Nat → UInt32} {clock : Nat → Nat} {height : Nat}

private theorem Timely.start_le_last (chain : Timely time clock height) (long : 2 ≤ height)
    {start : UInt32} (reached : start.toNat ≤ (medianAt time (height - 2)).toNat + 1) :
    start ≤ time (height - 1) := by
  have late := chain.late (height - 1) (by omega) (by omega)
  rw [UInt32.lt_iff_toNat_lt, show height - 1 - 1 = height - 2 by omega] at late
  rw [UInt32.le_iff_toNat_le]
  omega

private theorem Timely.genesis_le_median (chain : Timely time clock height) (later : Nat)
    (inside : later < height) : time 0 ≤ medianAt time later := by
  calc time 0 = medianAt time 0 := medianAt_zero.symm
    _ ≤ medianAt time later := medianAt_mono chain.late (Nat.zero_le later) inside

private theorem Timely.exists_last (chain : Timely time clock height) {start : Nat}
    (positive : 0 < start) (inside : start < height - 1)
    (ahead : (medianAt time (height - 2)).toNat + 1 < (time start).toNat) :
    ∃ other, Timely (Function.update time (height - 1) other) clock height ∧
      other < time start := by
  have bound := (time start).toNat_lt
  have next : (medianAt time (height - 2) + 1).toNat = (medianAt time (height - 2)).toNat + 1 := by
    rw [UInt32.toNat_add]
    exact Nat.mod_eq_of_lt (by simpa using (by omega))
  refine ⟨medianAt time (height - 2) + 1, ⟨chain.steady, ?_, ?_⟩, ?_⟩
  · intro i hi below
    have unchanged : medianAt (Function.update time (height - 1) (medianAt time (height - 2) + 1))
        (i - 1) = medianAt time (i - 1) := by
      apply medianAt_congr
      intro j inside
      exact Function.update_of_ne (by omega) _ _
    rw [unchanged]
    rcases Nat.lt_or_eq_of_le (Nat.le_sub_one_of_lt below) with earlier | rfl
    · rw [Function.update_of_ne earlier.ne]
      exact chain.late i hi below
    · rw [Function.update_self, UInt32.lt_iff_toNat_lt, next,
        show height - 1 - 1 = height - 2 by omega]
      exact Nat.lt_succ_self _
  · intro i hi below
    rcases Nat.lt_or_eq_of_le (Nat.le_sub_one_of_lt below) with earlier | rfl
    · rw [Function.update_of_ne earlier.ne]
      exact chain.early i hi below
    · have steady := chain.steady inside.le
      have early := chain.early start positive (by omega)
      rw [Function.update_self, next]
      omega
  · rw [UInt32.lt_iff_toNat_lt, next]
    exact ahead

private theorem headerAt_of_stored {db : Db} {block : Nat → Block} {length i : Nat}
    (stored : StoredChain db block length) (inside : i < length) :
    headerAt db i = .ok (block i).header := by
  rw [headerAt, stored.headers i inside]

/-- The subtraction at a retarget: it does not underflow where the first header of the period is at
most a second later than the median time before the last one, which is always so in the first
period. Anywhere else another last header is allowed with which it does. -/
theorem retarget_subtraction (db : Db) (block : Nat → Block) (clock : Nat → Nat) (height : Nat)
    (positive : 0 < height) (period : height % difficultyAdjustInterval = 0)
    (stored : StoredChain db block height) (chain : Timely (timeOf block) clock height) :
    ∃ first last median, headerAt db (usizeSub height difficultyAdjustInterval) = .ok first ∧
      headerAt db (usizeSub height 1) = .ok last ∧
      getMedianTimestamp db (height - 2) = .ok median ∧
      (first.timestamp.toNat ≤ median.toNat + 1 → first.timestamp ≤ last.timestamp) ∧
      (¬ first.timestamp.toNat ≤ median.toNat + 1 → ∃ other,
        Timely (Function.update (timeOf block) (height - 1) other) clock height ∧
          other < first.timestamp) ∧
      (height = difficultyAdjustInterval → first.timestamp.toNat ≤ median.toNat + 1) := by
  have long : difficultyAdjustInterval ≤ height :=
    Nat.le_of_dvd positive (Nat.dvd_of_mod_eq_zero period)
  have many : 2 < difficultyAdjustInterval := by decide
  have genesis := chain.genesis_le_median (height - 2) (by omega)
  rw [usizeSub_of_le long, usizeSub_of_le (by omega)]
  refine ⟨_, _, _, headerAt_of_stored stored (by omega), headerAt_of_stored stored (by omega),
    getMedianTimestamp_of_stored stored (by omega), ?_, ?_, ?_⟩
  · exact chain.start_le_last (by omega)
  · intro ahead
    rcases Nat.eq_or_lt_of_le long with rfl | later
    · rw [Nat.sub_self] at ahead
      rw [UInt32.le_iff_toNat_le] at genesis
      exact absurd (genesis.trans (Nat.le_succ _)) ahead
    · exact chain.exists_last (by omega) (by omega) (Nat.not_le.mp ahead)
  · rintro rfl
    rw [Nat.sub_self]
    rw [UInt32.le_iff_toNat_le] at genesis
    exact genesis.trans (Nat.le_succ _)

end Subtraction

section Samples

def sampleTimed (bits : UInt32) (time : Nat → UInt32) (height : Nat) : Block :=
  ⟨{ genesisHeader sampleEnv [7] 0 with bits := bits, timestamp := time height }, []⟩

private theorem sampleTimed_stored (bits : UInt32) (time : Nat → UInt32) {length : Nat}
    (bounded : length ≤ 2 ^ 64) :
    StoredChain (chainDb (sampleTimed bits time) length) (sampleTimed bits time) length := by
  apply chainDb_stored _ bounded
  intro i _
  rw [Block.size_eq]
  exact Nat.lt_of_le_of_lt (by rfl) (show 92 < 2 ^ 64 by decide)

def steadyTime (step height : Nat) : UInt32 := UInt32.ofNat (genesisTimestamp.toNat + step * height)

private theorem toNat_steadyTime {step height : Nat}
    (fits : genesisTimestamp.toNat + step * height < 2 ^ 32) :
    (steadyTime step height).toNat = genesisTimestamp.toNat + step * height := by
  rw [steadyTime, UInt32.toNat_ofNat', Nat.mod_eq_of_lt fits]

private theorem steadyTime_lt {step earlier later : Nat} (positive : 0 < step)
    (ordered : earlier < later) (fits : genesisTimestamp.toNat + step * later < 2 ^ 32) :
    steadyTime step earlier < steadyTime step later := by
  have scaled : step * earlier < step * later := Nat.mul_lt_mul_of_pos_left ordered positive
  rw [UInt32.lt_iff_toNat_lt, toNat_steadyTime fits, toNat_steadyTime (by omega)]
  omega

private theorem timely_of_spike {step spike length : Nat} {ahead : UInt32} {clock : Nat → Nat}
    (positive : 0 < step) (deep : 2 ≤ spike)
    (fits : genesisTimestamp.toNat + step * length < 2 ^ 32)
    (later : genesisTimestamp.toNat + step * spike ≤ ahead.toNat) (steady : Monotone clock)
    (slow : ∀ i, genesisTimestamp.toNat + step * i ≤ clock i + 7200)
    (early : ahead.toNat ≤ clock spike + 7200) :
    Timely (Function.update (steadyTime step) spike ahead) clock length := by
  have small : ∀ i < length, genesisTimestamp.toNat + step * i < 2 ^ 32 := by
    intro i inside
    have scaled : step * i ≤ step * length := Nat.mul_le_mul_left step inside.le
    omega
  have ordered : ∀ i j, j < i → i < length → steadyTime step j < steadyTime step i := by
    intro i j below inside
    exact steadyTime_lt positive below (small i inside)
  refine ⟨steady, ?_, ?_⟩
  · intro i hi inside
    rcases lt_trichotomy i spike with before | rfl | after
    · rw [Function.update_of_ne before.ne]
      apply medianAt_lt_of_below
      intro j below
      rw [Function.update_of_ne (by omega)]
      exact ordered i j (by omega) inside
    · rw [Function.update_self]
      apply medianAt_lt_of_below
      intro j below
      rw [Function.update_of_ne (by omega)]
      have first := ordered i j (by omega) inside
      rw [UInt32.lt_iff_toNat_lt, toNat_steadyTime (small i inside)] at first
      exact UInt32.lt_iff_toNat_lt.mpr (first.trans_le later)
    · rw [Function.update_of_ne after.ne']
      apply medianAt_lt_of_spike spike (by omega)
      intro j below other
      rw [Function.update_of_ne other]
      exact ordered i j (by omega) inside
  · intro i hi inside
    rcases eq_or_ne i spike with rfl | other
    · rw [Function.update_self]
      exact early
    · rw [Function.update_of_ne other, toNat_steadyTime (small i inside)]
      exact slow i

/-- A block a second, but the first one of the second period is two hours ahead of the clock. -/
def hastyTime : Nat → UInt32 := Function.update (steadyTime 1) 2016 (steadyTime 1 9216)

private theorem hastyTime_timely : Timely hastyTime (fun i => genesisTimestamp.toNat + i) 4032 := by
  refine timely_of_spike (by omega) (by omega) (by decide) (by decide) ?_ ?_ (by decide)
  · intro i j ordered
    exact Nat.add_le_add_left ordered _
  · intro i
    omega

/-- Two periods of accepted headers after which the subtraction underflows, and the wrapped
difference is beyond the upper clamp. -/
theorem retarget_underflows :
    ∃ (db : Db) (block : Nat → Block) (clock : Nat → Nat), StoredChain db block 4032 ∧
      Timely (timeOf block) clock 4032 ∧
      ∃ first last, headerAt db (usizeSub 4032 difficultyAdjustInterval) = .ok first ∧
        headerAt db (usizeSub 4032 1) = .ok last ∧ last.timestamp < first.timestamp ∧
        expectedTime * 4 < (last.timestamp - first.timestamp).toNat := by
  have stored := sampleTimed_stored 0x1d00ffff hastyTime (show 4032 ≤ 2 ^ 64 by decide)
  refine ⟨_, sampleTimed 0x1d00ffff hastyTime, _, stored, hastyTime_timely, _, _,
    headerAt_of_stored stored (by decide), headerAt_of_stored stored (by decide), ?_, ?_⟩
  · decide +kernel
  · decide +kernel

/-- A block a minute, and the last one of the first period a minute late: the period is exactly the
expected one. -/
def punctualTime : Nat → UInt32 := Function.update (steadyTime 60) 2015 (steadyTime 60 2016)

private theorem punctualTime_timely :
    Timely punctualTime (fun i => genesisTimestamp.toNat + 60 * (i + 1)) 2016 := by
  refine timely_of_spike (by omega) (by omega) (by decide) (by decide) ?_ ?_ (by decide)
  · intro i j ordered
    exact Nat.add_le_add_left (Nat.mul_le_mul_left 60 (Nat.succ_le_succ ordered)) _
  · intro i
    omega

private theorem punctualTime_late : medianAt punctualTime 2015 < punctualTime 2015 := by
  apply medianAt_lt_of_spike 2015 (by omega)
  intro j below other
  rw [punctualTime, Function.update_of_ne other, Function.update_self]
  exact steadyTime_lt (by omega) (by omega) (by decide)

theorem first_retarget_subtraction :
    ∃ db first last median, headerAt db (usizeSub 2016 difficultyAdjustInterval) = .ok first ∧
      headerAt db (usizeSub 2016 1) = .ok last ∧ getMedianTimestamp db (2016 - 2) = .ok median ∧
      first.timestamp.toNat ≤ median.toNat + 1 ∧ first.timestamp ≤ last.timestamp := by
  obtain ⟨first, last, median, start, final, times, ordered, _, reached⟩ :=
    retarget_subtraction _ (sampleTimed 0x1d00ffff punctualTime) _ 2016 (by decide) (by decide)
      (sampleTimed_stored 0x1d00ffff punctualTime (by decide)) punctualTime_timely
  exact ⟨_, first, last, median, start, final, times, reached rfl, ordered (reached rfl)⟩

end Samples

section Accuracy

private theorem retarget_eq (oldTarget actualTime genesisTarget : Nat) :
    retarget oldTarget actualTime genesisTarget =
      min (oldTarget * max (expectedTime / 4) (min actualTime (expectedTime * 4)) / expectedTime)
        genesisTarget := by
  have clamped : expectedTime / 4 ≤ max (expectedTime / 4) (min actualTime (expectedTime * 4)) ∧
      max (expectedTime / 4) (min actualTime (expectedTime * 4)) ≤ expectedTime * 4 := by
    unfold expectedTime targetBlockTime difficultyAdjustInterval
    omega
  rw [retarget]
  generalize max (expectedTime / 4) (min actualTime (expectedTime * 4)) = period at clamped ⊢
  obtain ⟨least, most⟩ := clamped
  have quarter : oldTarget / 4 ≤ oldTarget * period / expectedTime := by
    rw [Nat.le_div_iff_mul_le (by decide)]
    calc oldTarget / 4 * expectedTime = oldTarget / 4 * 4 * (expectedTime / 4) := by
          rw [mul_assoc]
          rfl
      _ ≤ oldTarget * (expectedTime / 4) := Nat.mul_le_mul_right _ (Nat.div_mul_le_self _ _)
      _ ≤ oldTarget * period := Nat.mul_le_mul_left _ least
  have fourfold : oldTarget * period / expectedTime ≤ oldTarget * 4 := by
    apply Nat.div_le_of_le_mul
    calc oldTarget * period ≤ oldTarget * (expectedTime * 4) := Nat.mul_le_mul_left _ most
      _ = expectedTime * (oldTarget * 4) := by ring
  simp only [min_eq_left fourfold, max_eq_left quarter]

private theorem round_accurate_iff {target : Nat} (positive : 0 < target) :
    target * (2 ^ 15 - 1) < 2 ^ 15 * compactFormat.round target ↔
      target * (2 ^ 15 - 1) < 2 ^ 15 * (0x7fffff * compactFormat.unit target) := by
  constructor
  · intro accurate
    exact accurate.trans_le
      (Nat.mul_le_mul_left _ (Nat.mul_le_mul_right _ (compactFormat.leading_le_limit target)))
  · intro room
    rcases Nat.le_total (target / compactFormat.unit target) compactFormat.limit with
      within | beyond
    · have lost := compactFormat.round_error positive within
      have least := compactFormat.round_le target
      have weight : compactFormat.base ^ (compactFormat.precision - 1) = 65536 := rfl
      rw [weight] at lost
      generalize compactFormat.round target = rounded at lost least ⊢
      obtain ⟨difference, rfl⟩ := Nat.exists_eq_add_of_le least
      rw [Nat.add_sub_cancel_left] at lost
      simp only [Nat.reducePow, Nat.reduceSub]
      linarith only [lost]
    · have clamped : compactFormat.leading target = 0x7fffff := min_eq_right beyond
      rw [Format.round, clamped]
      exact room

private theorem calculateNextBits_retarget {db : Db} {height : Nat} {first last : BlockHeader}
    {median : UInt32} {oldTarget limit : Nat} (positive : 0 < height)
    (period : height % difficultyAdjustInterval = 0)
    (start : loadHeader db (height - difficultyAdjustInterval) = .ok first)
    (final : loadHeader db (height - 1) = .ok last)
    (times : getMedianTimestamp db (height - 1) = .ok median) (late : median < last.timestamp)
    (old : compactToTarget last.bits = .ok oldTarget)
    (genesis : compactToTarget 0x1d00ffff = .ok limit) :
    calculateNextBits db height =
      .ok (targetToCompact
        (retarget oldTarget (last.timestamp - first.timestamp).toNat limit)) := by
  have long : difficultyAdjustInterval ≤ height :=
    Nat.le_of_dvd positive (Nat.dvd_of_mod_eq_zero period)
  have both : headerAt db (height - difficultyAdjustInterval) = .ok first ∧
      headerAt db (height - 1) = .ok last := by
    rw [headerAt, headerAt, start, final]
    exact ⟨rfl, rfl⟩
  rw [calculateNextBits, if_neg (not_not.mpr period), usizeSub_of_le long,
    usizeSub_of_le positive, both.1, both.2]
  simp only [bind_eq_ok]
  refine ⟨_, rfl, _, rfl, _, old, _, genesis, _, times, ?_⟩
  rw [if_neg (UInt32.not_le.mpr late)]
  rfl

/-- The bits of a retarget decode to at most the computed target, and to more than all but one part
in 32768 of it exactly where the clamp on the three leading bytes allows it. -/
theorem retarget_accuracy (db : Db) (height : Nat) (positive : 0 < height)
    (period : height % difficultyAdjustInterval = 0) (first last : BlockHeader) (median : UInt32)
    (oldTarget limit : Nat)
    (start : loadHeader db (height - difficultyAdjustInterval) = .ok first)
    (final : loadHeader db (height - 1) = .ok last)
    (times : getMedianTimestamp db (height - 1) = .ok median) (late : median < last.timestamp)
    (old : compactToTarget last.bits = .ok oldTarget)
    (genesis : compactToTarget 0x1d00ffff = .ok limit) (clamped computed : Nat)
    (clamp : clamped = max (expectedTime / 4)
      (min (last.timestamp - first.timestamp).toNat (expectedTime * 4)))
    (compute : computed = min (oldTarget * clamped / expectedTime) limit)
    (nonzero : computed ≠ 0) :
    ∃ bits target, calculateNextBits db height = .ok bits ∧ compactToTarget bits = .ok target ∧
      target ≤ computed ∧
      (computed * (2 ^ 15 - 1) < 2 ^ 15 * target ↔
        computed * (2 ^ 15 - 1) < 2 ^ 15 * (0x7fffff * 256 ^ ((computed.size + 7) / 8 - 3))) := by
  have some_left := Nat.pos_of_ne_zero nonzero
  have small : computed < 2 ^ 640 := by
    obtain rfl := Except.ok.inj (compactToTarget_genesis.symm.trans genesis)
    have least : computed ≤ 0xffff * 2 ^ 208 := compute ▸ Nat.min_le_right _ _
    exact least.trans_lt (by decide +kernel)
  have required := calculateNextBits_retarget positive period start final times late old genesis
  rw [retarget_eq, ← clamp, ← compute] at required
  refine ⟨_, _, required, compactToTarget_targetToCompact some_left small,
    compactFormat.round_le computed, ?_⟩
  rw [size_bytes]
  exact round_accurate_iff some_left

section Punctual

variable (bits : UInt32)

private theorem punctual_first :
    loadHeader (chainDb (sampleTimed bits punctualTime) 2016) (2016 - difficultyAdjustInterval) =
      .ok (sampleTimed bits punctualTime 0).header :=
  (sampleTimed_stored bits punctualTime (by decide)).headers 0 (by decide)

private theorem punctual_last :
    loadHeader (chainDb (sampleTimed bits punctualTime) 2016) (2016 - 1) =
      .ok (sampleTimed bits punctualTime 2015).header :=
  (sampleTimed_stored bits punctualTime (by decide)).headers 2015 (by decide)

private theorem punctual_times :
    getMedianTimestamp (chainDb (sampleTimed bits punctualTime) 2016) (2016 - 1) =
      .ok (medianAt punctualTime 2015) :=
  getMedianTimestamp_of_stored (sampleTimed_stored bits punctualTime (by decide)) (by decide)

end Punctual

/-- A first period of exactly the expected length, with the bits of genesis throughout, after which
the target is about half of what it was. -/
theorem punctual_period_halves_target :
    ∃ (db : Db) (block : Nat → Block) (clock : Nat → Nat), StoredChain db block 2016 ∧
      Timely (timeOf block) clock 2016 ∧ RequiredBits (fun i => (block i).header) 2015 ∧
      (timeOf block 2015 - timeOf block 0).toNat = expectedTime ∧
      ∃ computed target, compactToTarget (block 2015).header.bits = .ok computed ∧
        calculateNextBits db 2016 = .ok 0x1c7fffff ∧ compactToTarget 0x1c7fffff = .ok target ∧
        ¬ computed * (2 ^ 15 - 1) < 2 ^ 15 * target := by
  have stored := sampleTimed_stored 0x1d00ffff punctualTime (show 2016 ≤ 2 ^ 64 by decide)
  have required := calculateNextBits_retarget (by decide) (by decide) (punctual_first 0x1d00ffff)
    (punctual_last 0x1d00ffff) (punctual_times 0x1d00ffff) punctualTime_late
    compactToTarget_genesis compactToTarget_genesis
  have same : retarget (0xffff * 2 ^ 208) (timeOf (sampleTimed 0x1d00ffff punctualTime) 2015 -
      timeOf (sampleTimed 0x1d00ffff punctualTime) 0).toNat (0xffff * 2 ^ 208) =
      0xffff * 2 ^ 208 := by
    decide +kernel
  refine ⟨_, sampleTimed 0x1d00ffff punctualTime, _, stored, punctualTime_timely, ⟨rfl, ?_⟩,
    by decide +kernel, _, _, compactToTarget_genesis, ?_, rfl, by decide +kernel⟩
  · intro height positive inside
    have plain : height % difficultyAdjustInterval ≠ 0 := by
      rw [Nat.mod_eq_of_lt (Nat.lt_of_le_of_lt inside (by decide))]
      exact positive.ne'
    refine ⟨chainDb (sampleTimed 0x1d00ffff punctualTime) 2016, ?_, ?_⟩
    · intro i below
      exact stored.headers i (by omega)
    · rw [calculateNextBits, if_pos plain, usizeSub_of_le positive,
        headerAt_of_stored stored (by omega)]
      rfl
  · rw [required, ← targetToCompact_genesis]
    exact congrArg (fun target => Except.ok (targetToCompact target)) same

theorem punctual_period_keeps_target :
    ∃ bits target,
      calculateNextBits (chainDb (sampleTimed 0x1c7fffff punctualTime) 2016) 2016 = .ok bits ∧
      compactToTarget bits = .ok target ∧ target ≤ 0x7fffff * 2 ^ 200 ∧
      0x7fffff * 2 ^ 200 * (2 ^ 15 - 1) < 2 ^ 15 * target := by
  have old : compactToTarget 0x1c7fffff = .ok (0x7fffff * 2 ^ 200) := rfl
  obtain ⟨bits, target, required, decoded, least, accurate⟩ :=
    retarget_accuracy _ 2016 (by decide) (by decide) _ _ _ _ _ (punctual_first 0x1c7fffff)
      (punctual_last 0x1c7fffff) (punctual_times 0x1c7fffff) punctualTime_late old
      compactToTarget_genesis expectedTime (0x7fffff * 2 ^ 200) (by decide +kernel)
      (by decide +kernel) (by decide +kernel)
  exact ⟨bits, target, required, decoded, least, accurate.mpr (by decide +kernel)⟩

end Accuracy

end Lyrion.Node
