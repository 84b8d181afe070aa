/- GID: Lyrion/Utils/Compact
   digest: The compact encoding of targets as a rounding to three leading bytes, and where it gives
     a compact word back. -/

import Lyrion.Library.LeadingDigits
import Lyrion.Utils

set_option autoImplicit false
set_option relaxedAutoImplicit false

namespace Lyrion.Utils

open Library.LeadingDigits Data

/-- Three bytes are kept, and the clamp of the encoder keeps their top bit clear. -/
def compactFormat : Format where
  base := 256
  precision := 3
  limit := 0x007fffff
  one_lt_base := by decide
  precision_pos := by decide
  pow_le_limit := by decide

private theorem pow_base (k : Nat) : compactFormat.base ^ k = 2 ^ (8 * k) := (pow_mul 2 8 k).symm

theorem size_bytes (target : Nat) : (target.size + 7) / 8 = compactFormat.width target := by
  have same : ∀ k, (target.size + 7) / 8 ≤ k ↔ compactFormat.width target ≤ k := by
    intro k
    rw [Format.width_le_iff, pow_base, ← Nat.size_le]
    omega
  exact le_antisymm ((same _).mpr le_rfl) ((same _).mp le_rfl)

section Decoding

def scaled (exponent mantissa : Nat) : Nat :=
  if exponent > 3 then mantissa * 2 ^ (8 * (exponent - 3))
  else mantissa / 2 ^ (8 * (3 - exponent))

private theorem and_signBit_ne_zero (n : Nat) : n &&& 0x00800000 ≠ 0 ↔ n / 2 ^ 23 % 2 = 1 := by
  rw [show 0x00800000 = 2 ^ 23 from rfl, Nat.and_two_pow, Nat.testBit_eq_decide_div_mod_eq]
  simp

private theorem compactToTarget_of_parts {bits : UInt32} {exponent mantissa : Nat}
    (parts : bits.toNat = exponent * 2 ^ 24 + mantissa) (unsigned : mantissa < 2 ^ 23)
    (positive : 0 < exponent) (bounded : exponent ≤ 80) :
    compactToTarget bits = .ok (scaled exponent mantissa) := by
  have nonzero : bits ≠ 0 := by
    rintro rfl
    simp at parts
    omega
  have high : bits.toNat >>> 24 = exponent := by
    rw [Nat.shiftRight_eq_div_pow]
    omega
  have low : bits.toNat &&& 0x007fffff = mantissa := by
    rw [show 0x007fffff = 2 ^ 23 - 1 from rfl, Nat.and_two_pow_sub_one_eq_mod]
    omega
  have clear : ¬ bits.toNat &&& 0x00800000 ≠ 0 := by
    rw [and_signBit_ne_zero]
    omega
  simp only [compactToTarget, if_neg nonzero, high, low, if_neg clear, Nat.shiftLeft_eq,
    Nat.shiftRight_eq_div_pow, scaled]
  rw [if_neg (by omega)]
  split
  · rfl
  · split
    · rfl
    · simp [show exponent = 3 by omega]

end Decoding

section Packing

private theorem toNat_or_exponent {mantissa : UInt32} {exponent : Nat}
    (small : mantissa.toNat < 2 ^ 24) (byte : exponent < 256) :
    (mantissa ||| (UInt32.ofNat exponent <<< 24)).toNat = exponent * 2 ^ 24 + mantissa.toNat := by
  have shifted : (UInt32.ofNat exponent <<< 24).toNat = exponent <<< 24 := by
    simp only [UInt32.toNat_shiftLeft, UInt32.toNat_ofNat', UInt32.reduceToNat, Nat.shiftLeft_eq,
      Nat.reduceMod]
    omega
  rw [UInt32.toNat_or, shifted, Nat.or_comm, ← Nat.shiftLeft_add_eq_or_of_lt small,
    Nat.shiftLeft_eq]

def aligned (size leading : Nat) : UInt32 :=
  if size ≤ 3 then UInt32.ofNat leading <<< UInt32.ofNat (8 * (3 - size))
  else UInt32.ofNat leading

/-- The end of the encoder: a mantissa whose top bit is set moves down by a byte. -/
def pack (compact : UInt32) (size : Nat) : UInt32 :=
  if compact &&& 0x00800000 ≠ 0 then (compact >>> 8) ||| (UInt32.ofNat (size + 1) <<< 24)
  else compact ||| (UInt32.ofNat size <<< 24)

private theorem and_signBit_word {compact : UInt32} (small : compact.toNat < 2 ^ 24) :
    compact &&& 0x00800000 ≠ 0 ↔ 2 ^ 23 ≤ compact.toNat := by
  rw [ne_eq, ← UInt32.toNat_inj, UInt32.toNat_and]
  change compact.toNat &&& 0x00800000 ≠ 0 ↔ _
  rw [and_signBit_ne_zero]
  omega

private theorem toNat_pack_low {compact : UInt32} {size : Nat} (small : compact.toNat < 2 ^ 23)
    (bounded : size ≤ 80) : (pack compact size).toNat = size * 2 ^ 24 + compact.toNat := by
  have clear : ¬ compact &&& 0x00800000 ≠ 0 := by
    rw [and_signBit_word (by omega)]
    omega
  rw [pack, if_neg clear]
  exact toNat_or_exponent (by omega) (by omega)

private theorem toNat_pack_high {compact : UInt32} {size : Nat} (small : compact.toNat < 2 ^ 24)
    (large : 2 ^ 23 ≤ compact.toNat) (bounded : size ≤ 80) :
    (pack compact size).toNat = (size + 1) * 2 ^ 24 + compact.toNat / 2 ^ 8 := by
  have moved : (compact >>> 8).toNat = compact.toNat / 2 ^ 8 := by
    simp [UInt32.toNat_shiftRight, Nat.shiftRight_eq_div_pow]
  rw [pack, if_pos ((and_signBit_word small).mpr large), ← moved]
  exact toNat_or_exponent (by omega) (by omega)

private theorem toNat_aligned {size leading : Nat} (counted : leading < 2 ^ (8 * size))
    (limited : leading ≤ 0x007fffff) :
    (aligned size leading).toNat = leading * 2 ^ (8 * (3 - size)) ∧
      leading * 2 ^ (8 * (3 - size)) < 2 ^ 24 := by
  -- What is shifted has no more bytes than it was counted with.
  rw [aligned]
  split
  case isTrue narrow =>
    interval_cases size
    · simp [Nat.lt_one_iff.mp counted]
    all_goals
      simp [Nat.shiftLeft_eq]
      omega
  case isFalse wide =>
    simp [Nat.sub_eq_zero_of_le (Nat.not_le.mp wide).le]
    omega

private theorem compactToTarget_pack {size leading : Nat} (counted : leading < 2 ^ (8 * size))
    (limited : leading ≤ 0x007fffff) (positive : 0 < size) (bounded : size ≤ 80) :
    compactToTarget (pack (aligned size leading) size) =
      .ok (leading * 2 ^ (8 * (size - 3))) := by
  obtain ⟨word, small⟩ := toNat_aligned counted limited
  rcases Nat.lt_or_ge (leading * 2 ^ (8 * (3 - size))) (2 ^ 23) with low | high
  · rw [compactToTarget_of_parts (toNat_pack_low (word ▸ low) bounded) (word ▸ low) positive
      bounded, word, scaled]
    split
    case isTrue wide => rw [show 3 - size = 0 by omega, Nat.mul_zero, pow_zero, mul_one]
    case isFalse narrow =>
      rw [show size - 3 = 0 by omega, Nat.mul_div_cancel _ (Nat.two_pow_pos _), Nat.mul_zero,
        pow_zero, mul_one]
  · have short : size < 3 := by
      by_contra long
      rw [show 3 - size = 0 by omega, Nat.mul_zero, pow_zero, mul_one] at high
      omega
    have below : (aligned size leading).toNat / 2 ^ 8 < 2 ^ 23 := by omega
    have back : leading * 2 ^ (8 * (3 - size)) / 2 ^ 8 / 2 ^ (8 * (3 - (size + 1))) = leading := by
      rw [Nat.div_div_eq_div_mul, ← pow_add,
        show 8 + 8 * (3 - (size + 1)) = 8 * (3 - size) by omega,
        Nat.mul_div_cancel _ (Nat.two_pow_pos _)]
    rw [compactToTarget_of_parts
      (toNat_pack_high (word ▸ small) (word ▸ high) bounded) below (Nat.succ_pos size)
      (by omega), word, scaled, if_neg (by omega), back, show size - 3 = 0 by omega, Nat.mul_zero,
      pow_zero, mul_one]

end Packing

section Encoding

variable {target : Nat}

private theorem width_le_of_lt (bounded : target < 2 ^ 640) : compactFormat.width target ≤ 80 := by
  simpa only [Format.width_le_iff, pow_base, Nat.reduceMul] using bounded

private theorem unit_eq_pow (target : Nat) :
    compactFormat.unit target = 2 ^ (8 * (compactFormat.width target - 3)) := pow_base _

private theorem unit_of_narrow (narrow : compactFormat.width target ≤ 3) :
    compactFormat.unit target = 1 := by
  rw [unit_eq_pow, Nat.sub_eq_zero_of_le narrow, Nat.mul_zero, pow_zero]

private theorem lt_pow_width (target : Nat) : target < 2 ^ (8 * compactFormat.width target) := by
  rw [← pow_base, ← Format.width_le_iff]

private theorem leading_lt_pow (target : Nat) :
    compactFormat.leading target < 2 ^ (8 * compactFormat.width target) :=
  ((Nat.min_le_left _ _).trans (Nat.div_le_self _ _)).trans_lt (lt_pow_width target)

private theorem targetToCompact_eq_pack (positive : 0 < target) (bounded : target < 2 ^ 640) :
    targetToCompact target =
      pack (aligned (compactFormat.width target) (compactFormat.leading target))
        (compactFormat.width target) := by
  have few := width_le_of_lt bounded
  have leading : target / compactFormat.unit target < 2 ^ 24 := by
    rw [Nat.div_lt_iff_lt_mul (compactFormat.unit_pos target), unit_eq_pow, ← pow_add]
    apply (lt_pow_width target).trans_le
    exact Nat.pow_le_pow_right (by omega) (by omega)
  have word : (if compactFormat.width target ≤ 3 then
        UInt32.ofNat (min (target % 2 ^ 32) 0x007fffff) <<<
          UInt32.ofNat (8 * (3 - compactFormat.width target))
      else
        UInt32.ofNat (min ((target >>> (8 * (compactFormat.width target - 3))) % 2 ^ 32)
          0x007fffff)) =
      aligned (compactFormat.width target) (compactFormat.leading target) := by
    rw [aligned, Format.leading]
    split
    case isTrue narrow =>
      rw [unit_of_narrow narrow, Nat.div_one] at leading ⊢
      rw [Nat.mod_eq_of_lt (by omega)]
      rfl
    case isFalse wide =>
      rw [Nat.shiftRight_eq_div_pow, ← unit_eq_pow, Nat.mod_eq_of_lt (by omega)]
      rfl
  simp only [targetToCompact, if_neg positive.ne', size_bytes, if_neg (Nat.not_lt.mpr few), word]
  rfl

theorem compactToTarget_targetToCompact (positive : 0 < target) (bounded : target < 2 ^ 640) :
    compactToTarget (targetToCompact target) = .ok (compactFormat.round target) := by
  rw [targetToCompact_eq_pack positive bounded,
    compactToTarget_pack (leading_lt_pow target) (compactFormat.leading_le_limit target)
      (compactFormat.width_pos positive) (width_le_of_lt bounded), Format.round, unit_eq_pow]

private theorem toNat_targetToCompact_low (positive : 0 < target) (bounded : target < 2 ^ 640)
    (low : compactFormat.leading target * 2 ^ (8 * (3 - compactFormat.width target)) < 2 ^ 23) :
    (targetToCompact target).toNat = compactFormat.width target * 2 ^ 24 +
      compactFormat.leading target * 2 ^ (8 * (3 - compactFormat.width target)) := by
  obtain ⟨word, small⟩ := toNat_aligned (leading_lt_pow target)
    (compactFormat.leading_le_limit target)
  rw [targetToCompact_eq_pack positive bounded,
    toNat_pack_low (word ▸ low) (width_le_of_lt bounded), word]

private theorem toNat_targetToCompact_high (positive : 0 < target) (bounded : target < 2 ^ 640)
    (high : 2 ^ 23 ≤ compactFormat.leading target * 2 ^ (8 * (3 - compactFormat.width target))) :
    (targetToCompact target).toNat = (compactFormat.width target + 1) * 2 ^ 24 +
      compactFormat.leading target * 2 ^ (8 * (3 - compactFormat.width target)) / 2 ^ 8 := by
  obtain ⟨word, small⟩ := toNat_aligned (leading_lt_pow target)
    (compactFormat.leading_le_limit target)
  rw [targetToCompact_eq_pack positive bounded,
    toNat_pack_high (word ▸ small) (word ▸ high) (width_le_of_lt bounded), word]

/-- The encoding of targets rounds down: it never fails, never gives zero, never raises a target,
keeps the order of targets, and is settled after one round. -/
theorem compact_rounds_down (s t : Nat) (positive : 0 < s) (ordered : s ≤ t)
    (bounded : t < 2 ^ 640) :
    ∃ roundedS roundedT, compactToTarget (targetToCompact s) = .ok roundedS ∧
      compactToTarget (targetToCompact t) = .ok roundedT ∧ 0 < roundedT ∧ roundedT ≤ t ∧
      roundedS ≤ roundedT ∧ targetToCompact roundedT = targetToCompact t := by
  have later := positive.trans_le ordered
  have least := compactFormat.round_pos later
  have most := compactFormat.round_le t
  refine ⟨compactFormat.round s, compactFormat.round t,
    compactToTarget_targetToCompact positive (ordered.trans_lt bounded),
    compactToTarget_targetToCompact later bounded, least, most,
    compactFormat.round_mono ordered, ?_⟩
  -- both sides pack the same leading bytes with the same count
  rw [targetToCompact_eq_pack least (most.trans_lt bounded), targetToCompact_eq_pack later bounded,
    Format.width_round, Format.leading_round]

theorem clamped_target_rounds_down :
    ∃ roundedS roundedT, compactToTarget (targetToCompact 0xffff) = .ok roundedS ∧
      compactToTarget (targetToCompact (0xffff * 2 ^ 208)) = .ok roundedT ∧ 0 < roundedT ∧
      roundedT ≤ 0xffff * 2 ^ 208 ∧ roundedS ≤ roundedT ∧
      targetToCompact roundedT = targetToCompact (0xffff * 2 ^ 208) :=
  compact_rounds_down 0xffff (0xffff * 2 ^ 208) (by decide) (by decide) (by decide +kernel)

end Encoding

section RoundTrip

variable {exponent mantissa : Nat}

private theorem scaled_of_three_le (wide : 3 ≤ exponent) :
    scaled exponent mantissa = mantissa * 2 ^ (8 * (exponent - 3)) := by
  rw [scaled]
  split
  case isTrue => rfl
  case isFalse narrow =>
    obtain rfl : exponent = 3 := by omega
    simp

private theorem scaled_lt (bounded : exponent ≤ 80) (unsigned : mantissa ≤ 0x7fffff) :
    mantissa * 2 ^ (8 * (exponent - 3)) < 2 ^ 640 := by
  have room : mantissa * 2 ^ (8 * (exponent - 3)) < 2 ^ (24 + 8 * (exponent - 3)) := by
    rw [pow_add]
    exact Nat.mul_lt_mul_of_pos_right (by omega) (Nat.two_pow_pos _)
  have fits : 24 + 8 * (exponent - 3) ≤ 640 := by omega
  refine room.trans_le ?_
  gcongr
  exact one_le_two

private theorem width_shifted (bytes shift : Nat) (positive : 0 < bytes)
    (least : 2 ^ (8 * (bytes - 1)) ≤ mantissa) (most : mantissa < 2 ^ (8 * bytes)) :
    compactFormat.width (mantissa * 2 ^ (8 * shift)) = bytes + shift := by
  rw [Format.width_eq_iff _ (by omega), pow_base, pow_base]
  constructor
  · rw [show 8 * (bytes + shift - 1) = 8 * (bytes - 1) + 8 * shift by omega, pow_add]
    exact Nat.mul_le_mul_right _ least
  · rw [Nat.mul_add, pow_add]
    exact Nat.mul_lt_mul_of_pos_right most (Nat.two_pow_pos _)

private theorem toNat_targetToCompact_long (wide : 3 ≤ exponent) (bounded : exponent ≤ 80)
    (long : 0x010000 ≤ mantissa) (unsigned : mantissa ≤ 0x7fffff) :
    (targetToCompact (mantissa * 2 ^ (8 * (exponent - 3)))).toNat =
      exponent * 2 ^ 24 + mantissa := by
  have positive : 0 < mantissa * 2 ^ (8 * (exponent - 3)) :=
    Nat.mul_pos (by omega) (Nat.two_pow_pos _)
  have width : compactFormat.width (mantissa * 2 ^ (8 * (exponent - 3))) = exponent := by
    rw [width_shifted 3 (exponent - 3) (by omega) (by omega) (by omega)]
    omega
  have leading : compactFormat.leading (mantissa * 2 ^ (8 * (exponent - 3))) = mantissa := by
    rw [Format.leading, unit_eq_pow, width, Nat.mul_div_cancel _ (Nat.two_pow_pos _)]
    exact min_eq_left unsigned
  have still : mantissa * 2 ^ (8 * (3 - exponent)) = mantissa := by
    rw [Nat.sub_eq_zero_of_le wide, Nat.mul_zero, pow_zero, mul_one]
  rw [toNat_targetToCompact_low positive (scaled_lt bounded unsigned), width, leading, still]
  rw [width, leading, still]
  omega

private theorem toNat_targetToCompact_short (least : 0x008000 ≤ mantissa)
    (short : mantissa < 0x010000) :
    (targetToCompact mantissa).toNat = 3 * 2 ^ 24 + mantissa := by
  have width : compactFormat.width mantissa = 2 := by
    have counted : compactFormat.width (mantissa * 2 ^ (8 * 0)) = 2 + 0 :=
      width_shifted 2 0 (by omega) (by omega) (by omega)
    simpa using counted
  have leading : compactFormat.leading mantissa = mantissa := by
    rw [Format.leading, unit_of_narrow (by omega), Nat.div_one]
    exact min_eq_left (by change mantissa ≤ 0x007fffff; omega)
  rw [toNat_targetToCompact_high (by omega) (short.trans (by decide +kernel)), width, leading]
  · omega
  · rw [width, leading]
    omega

private theorem toNat_targetToCompact_clamped (wide : 3 < exponent) (bounded : exponent ≤ 80)
    (least : 0x008000 ≤ mantissa) (short : mantissa < 0x010000) :
    (targetToCompact (mantissa * 2 ^ (8 * (exponent - 3)))).toNat =
      (exponent - 1) * 2 ^ 24 + 0x7fffff := by
  have positive : 0 < mantissa * 2 ^ (8 * (exponent - 3)) :=
    Nat.mul_pos (by omega) (Nat.two_pow_pos _)
  have width : compactFormat.width (mantissa * 2 ^ (8 * (exponent - 3))) = exponent - 1 := by
    rw [width_shifted 2 (exponent - 3) (by omega) (by omega) (by omega)]
    omega
  have leading : compactFormat.leading (mantissa * 2 ^ (8 * (exponent - 3))) = 0x7fffff := by
    have byte : mantissa * 2 ^ (8 * (exponent - 3)) =
        mantissa * 2 ^ 8 * 2 ^ (8 * (exponent - 1 - 3)) := by
      rw [mul_assoc, ← pow_add]
      congr 2
      omega
    rw [Format.leading, unit_eq_pow, width, byte, Nat.mul_div_cancel _ (Nat.two_pow_pos _)]
    exact min_eq_right (by change 0x007fffff ≤ _; omega)
  have still : 0x7fffff * 2 ^ (8 * (3 - (exponent - 1))) = 0x7fffff := by
    rw [show 3 - (exponent - 1) = 0 by omega, Nat.mul_zero, pow_zero, mul_one]
  rw [toNat_targetToCompact_low positive (scaled_lt bounded (by omega)), width, leading, still]
  rw [width, leading, still]
  omega

end RoundTrip

/-- A canonical compact word survives decoding and encoding exactly when its mantissa has three
bytes or its exponent is three. -/
theorem compact_round_trip_iff (bits : UInt32) (least : 3 ≤ bits.toNat >>> 24)
    (most : bits.toNat >>> 24 ≤ 80) (normal : 0x008000 ≤ bits.toNat &&& 0xffffff)
    (unsigned : bits.toNat &&& 0xffffff ≤ 0x7fffff) :
    (∃ target, compactToTarget bits = .ok target ∧ targetToCompact target = bits) ↔
      0x010000 ≤ bits.toNat &&& 0xffffff ∨ bits.toNat >>> 24 = 3 := by
  have low : bits.toNat &&& 0xffffff = bits.toNat % 2 ^ 24 := Nat.and_two_pow_sub_one_eq_mod _ 24
  have parts : bits.toNat = bits.toNat / 2 ^ 24 * 2 ^ 24 + bits.toNat % 2 ^ 24 := by omega
  rw [low] at normal unsigned ⊢
  rw [Nat.shiftRight_eq_div_pow] at least most ⊢
  generalize bits.toNat / 2 ^ 24 = exponent at *
  generalize bits.toNat % 2 ^ 24 = mantissa at *
  have decoded := compactToTarget_of_parts parts (by omega) (by omega) most
  rw [scaled_of_three_le least] at decoded
  have unique : (∃ target, compactToTarget bits = .ok target ∧ targetToCompact target = bits) ↔
      targetToCompact (mantissa * 2 ^ (8 * (exponent - 3))) = bits := by
    simp [decoded]
  rw [unique, ← UInt32.toNat_inj, parts]
  rcases Nat.lt_or_ge mantissa 0x010000 with short | long
  · rcases Nat.eq_or_lt_of_le least with rfl | wide
    · simp [toNat_targetToCompact_short normal short]
    · rw [toNat_targetToCompact_clamped wide most normal short]
      omega
  · simp [toNat_targetToCompact_long least most long unsigned, long]

theorem compactToTarget_genesis : compactToTarget 0x1d00ffff = .ok (0xffff * 2 ^ 208) := rfl

theorem targetToCompact_genesis : targetToCompact (0xffff * 2 ^ 208) = 0x1c7fffff := by
  have clamped : (targetToCompact (0xffff * 2 ^ (8 * (0x1d - 3)))).toNat =
      (0x1d - 1) * 2 ^ 24 + 0x7fffff :=
    toNat_targetToCompact_clamped (by decide) (by decide) (by decide) (by decide)
  exact UInt32.toNat_inj.mp clamped

/-- The bits of genesis are canonical, and their target is encoded as one of about half its size. -/
theorem genesis_bits_change :
    (0x1d00ffff : UInt32).toNat >>> 24 = 0x1d ∧
      (0x1d00ffff : UInt32).toNat &&& 0xffffff = 0x00ffff ∧
      ∃ target, compactToTarget 0x1d00ffff = .ok target ∧ targetToCompact target = 0x1c7fffff :=
  ⟨rfl, rfl, 0xffff * 2 ^ 208, compactToTarget_genesis, targetToCompact_genesis⟩

theorem long_mantissa_round_trip :
    ∃ target, compactToTarget 0x1b0404cb = .ok target ∧ targetToCompact target = 0x1b0404cb :=
  (compact_round_trip_iff 0x1b0404cb (by decide) (by decide) (by decide) (by decide)).mpr
    (.inl (by decide))

end Lyrion.Utils
