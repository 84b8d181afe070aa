/- GID: Lyrion/Library/LeadingDigits
   digest: Numbers rounded down to their leading digits, under a limit on what is kept. -/

import Mathlib

set_option autoImplicit false
set_option relaxedAutoImplicit false

namespace Lyrion.Library.LeadingDigits

/-- A number of leading digits that is kept, and the greatest value they may have. The limit leaves
every position of the first digit possible. -/
structure Format where
  base : Nat
  precision : Nat
  limit : Nat
  one_lt_base : 1 < base
  precision_pos : 0 < precision
  pow_le_limit : base ^ (precision - 1) ≤ limit

namespace Format

variable {n k : Nat}

variable (format : Format)

def width (n : Nat) : Nat := (Nat.digits format.base n).length

def unit (n : Nat) : Nat := format.base ^ (format.width n - format.precision)

def leading (n : Nat) : Nat := min (n / format.unit n) format.limit

def round (n : Nat) : Nat := format.leading n * format.unit n

theorem base_pos : 0 < format.base := Nat.zero_lt_of_lt format.one_lt_base

theorem width_le_iff : format.width n ≤ k ↔ n < format.base ^ k :=
  Nat.digits_length_le_iff format.one_lt_base n

theorem lt_width_iff : k < format.width n ↔ format.base ^ k ≤ n :=
  Nat.lt_digits_length_iff format.one_lt_base n

theorem width_pos (positive : 0 < n) : 0 < format.width n := by
  rw [lt_width_iff, pow_zero]
  exact positive

theorem pow_width_le (positive : 0 < n) : format.base ^ (format.width n - 1) ≤ n := by
  rw [← lt_width_iff]
  exact Nat.sub_lt (format.width_pos positive) one_pos

theorem width_eq_iff (positive : 0 < k) :
    format.width n = k ↔ format.base ^ (k - 1) ≤ n ∧ n < format.base ^ k := by
  rw [← lt_width_iff, ← width_le_iff]
  omega

theorem unit_pos (n : Nat) : 0 < format.unit n := Nat.pow_pos format.base_pos

theorem leading_le_limit (n : Nat) : format.leading n ≤ format.limit := Nat.min_le_right _ _

theorem round_le (n : Nat) : format.round n ≤ n :=
  (Nat.mul_le_mul_right _ (Nat.min_le_left _ _)).trans (Nat.div_mul_le_self _ _)

theorem pow_width_le_round (positive : 0 < n) :
    format.base ^ (format.width n - 1) ≤ format.round n := by
  have whole := format.pow_width_le positive
  have kept := format.precision_pos
  have few : format.base ^ (format.width n - 1) ≤
      format.base ^ (format.precision - 1) * format.unit n := by
    rw [unit, ← pow_add]
    exact Nat.pow_le_pow_right format.base_pos (by omega)
  rcases Nat.lt_or_ge (format.width n) format.precision with short | long
  · have plain : format.unit n = 1 := by rw [unit, Nat.sub_eq_zero_of_le short.le, pow_zero]
    rw [plain, mul_one] at few
    rw [round, leading, plain, Nat.div_one, mul_one]
    exact le_min whole (few.trans format.pow_le_limit)
  · have same : format.base ^ (format.precision - 1) * format.unit n =
        format.base ^ (format.width n - 1) := by
      rw [unit, ← pow_add]
      congr 1
      omega
    have quotient : format.base ^ (format.precision - 1) ≤ n / format.unit n := by
      rw [Nat.le_div_iff_mul_le (format.unit_pos n), same]
      exact whole
    exact few.trans (Nat.mul_le_mul_right _ (le_min quotient format.pow_le_limit))

theorem round_pos (positive : 0 < n) : 0 < format.round n := by
  exact (Nat.pow_pos format.base_pos).trans_le (format.pow_width_le_round positive)

@[simp] theorem width_round (n : Nat) : format.width (format.round n) = format.width n := by
  rcases Nat.eq_zero_or_pos n with rfl | positive
  · simp [round, leading]
  · rw [width_eq_iff _ (format.width_pos positive)]
    constructor
    · exact format.pow_width_le_round positive
    · exact (format.round_le n).trans_lt (format.width_le_iff.mp le_rfl)

@[simp] theorem unit_round (n : Nat) : format.unit (format.round n) = format.unit n := by
  rw [unit, width_round, unit]

@[simp] theorem leading_round (n : Nat) : format.leading (format.round n) = format.leading n := by
  rw [leading, unit_round, round, Nat.mul_div_cancel _ (format.unit_pos n)]
  exact min_eq_left (format.leading_le_limit n)

theorem round_mono {s t : Nat} (ordered : s ≤ t) : format.round s ≤ format.round t := by
  have widths : format.width s ≤ format.width t :=
    format.width_le_iff.mpr (ordered.trans_lt (format.width_le_iff.mp le_rfl))
  rcases Nat.eq_or_lt_of_le widths with same | shorter
  · have units : format.unit s = format.unit t := by rw [unit, unit, same]
    rw [round, round, leading, leading, units]
    exact Nat.mul_le_mul_right _ (min_le_min_right _ (Nat.div_le_div_right ordered))
  · have positive : 0 < t := by
      rcases Nat.eq_zero_or_pos t with rfl | positive
      · simp [width] at shorter
      · exact positive
    calc format.round s ≤ s := format.round_le s
      _ ≤ format.base ^ format.width s := (format.width_le_iff.mp le_rfl).le
      _ ≤ format.base ^ (format.width t - 1) := Nat.pow_le_pow_right format.base_pos (by omega)
      _ ≤ format.round t := format.pow_width_le_round positive

theorem round_error (positive : 0 < n) (within : n / format.unit n ≤ format.limit) :
    (n - format.round n) * format.base ^ (format.precision - 1) < n := by
  have cut := Nat.lt_div_mul_add (a := n) (format.unit_pos n)
  have whole : format.round n = n / format.unit n * format.unit n := by
    rw [round, leading, min_eq_left within]
  rcases Nat.lt_or_ge (format.width n) format.precision with short | long
  · have plain : format.unit n = 1 := by rw [unit, Nat.sub_eq_zero_of_le short.le, pow_zero]
    rw [whole, plain, Nat.div_one, mul_one, Nat.sub_self, zero_mul]
    exact positive
  · have kept := format.precision_pos
    have lost : n - format.round n < format.unit n := by
      have step := format.unit_pos n
      omega
    calc (n - format.round n) * format.base ^ (format.precision - 1)
        < format.unit n * format.base ^ (format.precision - 1) :=
          Nat.mul_lt_mul_of_pos_right lost (Nat.pow_pos format.base_pos)
      _ = format.base ^ (format.width n - 1) := by
          rw [unit, ← pow_add]
          congr 1
          omega
      _ ≤ n := format.pow_width_le positive

end Format

end Lyrion.Library.LeadingDigits
