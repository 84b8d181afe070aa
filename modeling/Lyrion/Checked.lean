/- GID: Lyrion/Checked
   digest: The operations on 64-bit words in builds with and without overflow checks. -/

import Lyrion.Utils

set_option autoImplicit false
set_option relaxedAutoImplicit false

namespace Lyrion.Checked

open Data Utils

def add (a b : UInt64) : Result UInt64 :=
  orPanic "attempt to add with overflow" (checkedAdd a b)

def sub (a b : UInt64) : Result UInt64 :=
  orPanic "attempt to subtract with overflow" (checkedSub a b)

def mul (a b : UInt64) : Result UInt64 :=
  orPanic "attempt to multiply with overflow"
    (if a.toNat * b.toNat < 2 ^ 64 then some (a * b) else none)

def div (a b : UInt64) : Result UInt64 :=
  orPanic "attempt to divide by zero" (if b = 0 then none else some (a / b))

variable {a b c : UInt64}

theorem toNat_word {n : Nat} (small : n < 2 ^ 64) : (UInt64.ofNat n).toNat = n :=
  UInt64.toNat_ofNat_of_lt' small

theorem add_eq_ok : add a b = .ok c ↔ a.toNat + b.toNat = c.toNat := by
  rw [add, orPanic_eq_ok, checkedAdd_eq_some]

theorem sub_eq_ok : sub a b = .ok c ↔ a.toNat = c.toNat + b.toNat := by
  rw [sub, orPanic_eq_ok, checkedSub_eq_some]

theorem mul_eq_ok : mul a b = .ok c ↔ a.toNat * b.toNat = c.toNat := by
  rw [mul, orPanic_eq_ok]
  constructor
  · intro h
    split at h
    case isTrue small =>
      obtain rfl := Option.some.inj h
      rw [UInt64.toNat_mul, Nat.mod_eq_of_lt small]
    case isFalse => exact absurd h (by simp)
  · intro h
    have small : a.toNat * b.toNat < 2 ^ 64 := h ▸ c.toNat_lt
    rw [if_pos small, Option.some.injEq]
    apply UInt64.toNat_inj.mp
    rw [UInt64.toNat_mul, Nat.mod_eq_of_lt small, h]

theorem div_eq_ok : div a b = .ok c ↔ 0 < b.toNat ∧ a.toNat / b.toNat = c.toNat := by
  rw [div, orPanic_eq_ok]
  have zero : b = 0 ↔ b.toNat = 0 := UInt64.toNat_inj.symm
  by_cases h : b = 0
  · simp [h]
  · have positive : 0 < b.toNat := Nat.pos_of_ne_zero (mt zero.mpr h)
    rw [if_neg h, Option.some.injEq, ← UInt64.toNat_inj, UInt64.toNat_div]
    simp [positive]

/-! Within range an operation gives the word it gives without checks; out of range it panics. -/

theorem add_of_lt (fits : a.toNat + b.toNat < 2 ^ 64) : add a b = .ok (a + b) := by
  rw [add_eq_ok, UInt64.toNat_add, Nat.mod_eq_of_lt fits]

theorem sub_of_le (covers : b.toNat ≤ a.toNat) : sub a b = .ok (a - b) := by
  rw [sub_eq_ok, UInt64.toNat_sub_of_le _ _ (UInt64.le_iff_toNat_le.mpr covers)]
  omega

theorem mul_of_lt (fits : a.toNat * b.toNat < 2 ^ 64) : mul a b = .ok (a * b) := by
  rw [mul_eq_ok, UInt64.toNat_mul, Nat.mod_eq_of_lt fits]

theorem raises_add (beyond : 2 ^ 64 ≤ a.toNat + b.toNat) : Raises Fault.isCrash (add a b) :=
  raises_orPanic.mpr ⟨checkedAdd_eq_none.mpr beyond, rfl⟩

theorem raises_sub (short : a.toNat < b.toNat) : Raises Fault.isCrash (sub a b) :=
  raises_orPanic.mpr ⟨checkedSub_eq_none.mpr short, rfl⟩

end Lyrion.Checked

namespace Lyrion

open Data

/-- A build checks sums, differences and products of words, or lets them wrap. A quotient is checked
in both, `Checked.div`. -/
inductive Build
  | checked
  | release

namespace Build

def add : Build → UInt64 → UInt64 → Result UInt64
  | checked, a, b => Checked.add a b
  | release, a, b => .ok (a + b)

def sub : Build → UInt64 → UInt64 → Result UInt64
  | checked, a, b => Checked.sub a b
  | release, a, b => .ok (a - b)

def mul : Build → UInt64 → UInt64 → Result UInt64
  | checked, a, b => Checked.mul a b
  | release, a, b => .ok (a * b)

end Build

end Lyrion
