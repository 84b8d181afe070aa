/- GID: Lyrion/Library/Hex
   digest: Bytes as hexadecimal text. -/

import Mathlib

set_option autoImplicit false
set_option relaxedAutoImplicit false

namespace Lyrion.Library.Hex

def digit (n : Nat) : Char := if n < 10 then Char.ofNat (48 + n) else Char.ofNat (87 + n)

def value (c : Char) : Option Nat :=
  if 48 ≤ c.toNat ∧ c.toNat ≤ 57 then some (c.toNat - 48)
  else if 97 ≤ c.toNat ∧ c.toNat ≤ 102 then some (c.toNat - 87)
  else if 65 ≤ c.toNat ∧ c.toNat ≤ 70 then some (c.toNat - 55)
  else none

def encodeChars (bytes : List UInt8) : List Char :=
  bytes.flatMap fun byte => [digit (byte.toNat / 16), digit (byte.toNat % 16)]

/-- Pairs of digits; an odd number of them, or anything else, is no text of bytes. -/
def decodeChars : List Char → Option (List UInt8)
  | [] => some []
  | [_] => none
  | a :: b :: rest => do
      let high ← value a
      let low ← value b
      let bytes ← decodeChars rest
      pure (UInt8.ofNat (16 * high + low) :: bytes)

def encode (bytes : List UInt8) : String := String.ofList (encodeChars bytes)

def decode (text : String) : Option (List UInt8) := decodeChars text.toList

theorem value_digit {n : Nat} (small : n < 16) : value (digit n) = some n := by
  interval_cases n <;> decide

theorem decodeChars_encodeChars (bytes : List UInt8) :
    decodeChars (encodeChars bytes) = some bytes := by
  induction bytes with
  | nil => rfl
  | cons byte bytes ih =>
      have bound := byte.toNat_lt
      have high : value (digit (byte.toNat / 16)) = some (byte.toNat / 16) :=
        value_digit (by omega)
      have low : value (digit (byte.toNat % 16)) = some (byte.toNat % 16) :=
        value_digit (by omega)
      have whole : UInt8.ofNat (16 * (byte.toNat / 16) + byte.toNat % 16) = byte := by
        rw [Nat.div_add_mod, UInt8.ofNat_toNat]
      have step : encodeChars (byte :: bytes) =
          digit (byte.toNat / 16) :: digit (byte.toNat % 16) :: encodeChars bytes := rfl
      rw [step, decodeChars, high, low, ih]
      simp only [Option.bind_eq_bind, Option.bind_some, Option.pure_def, whole]

theorem decode_encode (bytes : List UInt8) : decode (encode bytes) = some bytes := by
  rw [decode, encode, String.toList_ofList]
  exact decodeChars_encodeChars bytes

end Lyrion.Library.Hex
