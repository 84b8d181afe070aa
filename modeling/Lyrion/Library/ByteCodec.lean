/- GID: Lyrion/Library/ByteCodec
   digest: Self-delimiting byte codecs that carry their own round trip. -/

import Mathlib

set_option autoImplicit false
set_option relaxedAutoImplicit false

namespace Lyrion.Library.ByteCodec

abbrev Bytes := List UInt8

/-- The `count` low bytes of a natural number, least significant first. -/
def leBytes : Nat → Nat → Bytes
  | 0, _ => []
  | count + 1, value => UInt8.ofNat value :: leBytes count (value / 256)

/-- The `count` low bytes of a natural number, most significant first. -/
def beBytes (count value : Nat) : Bytes := (leBytes count value).reverse

def ofLeBytes : Bytes → Nat
  | [] => 0
  | b :: bs => b.toNat + 256 * ofLeBytes bs

def ofBeBytes (bs : Bytes) : Nat := ofLeBytes bs.reverse

@[simp] theorem length_leBytes (count value : Nat) : (leBytes count value).length = count := by
  induction count generalizing value with
  | zero => rfl
  | succ count ih => simp [leBytes, ih]

@[simp] theorem length_beBytes (count value : Nat) : (beBytes count value).length = count := by
  simp [beBytes]

theorem ofLeBytes_leBytes (count value : Nat) (bounded : value < 256 ^ count) :
    ofLeBytes (leBytes count value) = value := by
  induction count generalizing value with
  | zero => simp only [leBytes, ofLeBytes]; omega
  | succ count ih =>
      have quotient : value / 256 < 256 ^ count := by
        rw [Nat.div_lt_iff_lt_mul (by decide)]
        simpa only [Nat.pow_succ] using bounded
      have digit : (UInt8.ofNat value).toNat = value % 256 := by simp
      simp only [leBytes, ofLeBytes, ih _ quotient, digit]
      omega

theorem ofBeBytes_beBytes (count value : Nat) (bounded : value < 256 ^ count) :
    ofBeBytes (beBytes count value) = value := by
  simp only [ofBeBytes, beBytes, List.reverse_reverse]
  exact ofLeBytes_leBytes count value bounded

theorem beBytes_injective {count v w : Nat} (hv : v < 256 ^ count) (hw : w < 256 ^ count)
    (same : beBytes count v = beBytes count w) : v = w := by
  rw [← ofBeBytes_beBytes count v hv, ← ofBeBytes_beBytes count w hw, same]

theorem ofLeBytes_injective {bs cs : Bytes} (lengths : bs.length = cs.length)
    (same : ofLeBytes bs = ofLeBytes cs) : bs = cs := by
  induction bs generalizing cs with
  | nil => exact (List.length_eq_zero_iff.mp lengths.symm).symm
  | cons b bs ih =>
      cases cs with
      | nil => exact absurd lengths (by simp)
      | cons c cs =>
          simp only [ofLeBytes] at same
          have low := b.toNat_lt
          have high := c.toNat_lt
          have heads : b = c := UInt8.toNat_inj.mp (by omega)
          have tails : bs = cs := ih (by simpa using lengths) (by omega)
          rw [heads, tails]

theorem ofBeBytes_injective {bs cs : Bytes} (lengths : bs.length = cs.length)
    (same : ofBeBytes bs = ofBeBytes cs) : bs = cs :=
  List.reverse_injective (ofLeBytes_injective (by simpa using lengths) same)

theorem ofLeBytes_lt (bs : Bytes) : ofLeBytes bs < 256 ^ bs.length := by
  induction bs with
  | nil => simp [ofLeBytes]
  | cons b bs ih =>
      have digit := b.toNat_lt
      rw [ofLeBytes, List.length_cons, Nat.pow_succ]
      omega

theorem ofBeBytes_lt (bs : Bytes) : ofBeBytes bs < 256 ^ bs.length := by
  rw [← List.length_reverse]
  exact ofLeBytes_lt bs.reverse

theorem leBytes_mod (count value : Nat) :
    leBytes count (value % 256 ^ count) = leBytes count value := by
  induction count generalizing value with
  | zero => rfl
  | succ count ih =>
      have low : UInt8.ofNat (value % 256 ^ (count + 1)) = UInt8.ofNat value := by
        apply UInt8.toNat_inj.mp
        rw [UInt8.toNat_ofNat', UInt8.toNat_ofNat', Nat.pow_succ']
        exact Nat.mod_mul_right_mod value 256 (256 ^ count)
      have high : value % 256 ^ (count + 1) / 256 = value / 256 % 256 ^ count := by
        rw [Nat.pow_succ', Nat.mod_mul_right_div_self]
      simp only [leBytes, low, high, ih]

theorem leBytes_add (low high value : Nat) :
    leBytes (low + high) value = leBytes low value ++ leBytes high (value / 256 ^ low) := by
  induction low generalizing value with
  | zero => simp [leBytes]
  | succ low ih =>
      rw [Nat.succ_add, leBytes, ih, leBytes, List.cons_append, Nat.pow_succ',
        Nat.div_div_eq_div_mul]

theorem beBytes_mod (count value : Nat) :
    beBytes count (value % 256 ^ count) = beBytes count value := by
  simp only [beBytes, leBytes_mod]

def splitExact (count : Nat) (bs : Bytes) : Option (Bytes × Bytes) :=
  if count ≤ bs.length then some (bs.take count, bs.drop count) else none

theorem splitExact_append (front rest : Bytes) :
    splitExact front.length (front ++ rest) = some (front, rest) := by
  simp [splitExact]

/-- An encoder, a decoder that returns what it leaves unread, and the round trip.
The round trip is stated below `2 ^ 64` bytes, where 64-bit length prefixes are exact. -/
structure Codec (α : Type) where
  encode : α → Bytes
  decode : Bytes → Option (α × Bytes)
  encode_ne_nil : ∀ a, encode a ≠ []
  decode_encode : ∀ a rest, (encode a).length < 2 ^ 64 →
    decode (encode a ++ rest) = some (a, rest)

namespace Codec

variable {α β : Type}

def read (c : Codec α) (bs : Bytes) : Option α := (c.decode bs).map Prod.fst

theorem read_encode (c : Codec α) (a : α) (short : (c.encode a).length < 2 ^ 64) :
    c.read (c.encode a) = some a := by
  have exact_read := c.decode_encode a [] short
  rw [List.append_nil] at exact_read
  simp [read, exact_read]

theorem encode_append_inj (c : Codec α) {a b : α} {rest more : Bytes}
    (short : (c.encode a).length < 2 ^ 64) (small : (c.encode b).length < 2 ^ 64)
    (same : c.encode a ++ rest = c.encode b ++ more) : a = b ∧ rest = more := by
  have first := c.decode_encode a rest short
  rw [same, c.decode_encode b more small] at first
  obtain ⟨rfl, rfl⟩ := Prod.mk.inj (Option.some.inj first)
  exact ⟨rfl, rfl⟩

theorem encode_injective (c : Codec α) {a b : α} (short : (c.encode a).length < 2 ^ 64)
    (small : (c.encode b).length < 2 ^ 64) (same : c.encode a = c.encode b) : a = b := by
  have front : c.encode a ++ [] = c.encode b ++ [] := by rw [same]
  exact (c.encode_append_inj short small front).1

def word (count : Nat) (positive : 0 < count) (toNat : α → Nat) (ofNat : Nat → α)
    (bounded : ∀ a, toNat a < 256 ^ count) (back : ∀ a, ofNat (toNat a) = a) : Codec α where
  encode a := leBytes count (toNat a)
  decode bs := (splitExact count bs).map fun p => (ofNat (ofLeBytes p.1), p.2)
  encode_ne_nil a := by
    intro empty
    have := congrArg List.length empty
    simp only [length_leBytes, List.length_nil] at this
    omega
  decode_encode a rest _ := by
    have split := splitExact_append (leBytes count (toNat a)) rest
    rw [length_leBytes] at split
    simp only [split, Option.map_some, ofLeBytes_leBytes count _ (bounded a), back]

def u32 : Codec UInt32 :=
  word 4 (by decide) UInt32.toNat UInt32.ofNat (fun a => by simpa using a.toNat_lt)
    (fun a => by simp)

def u64 : Codec UInt64 :=
  word 8 (by decide) UInt64.toNat UInt64.ofNat (fun a => by simpa using a.toNat_lt)
    (fun a => by simp)

def bool : Codec Bool where
  encode b := [if b then 1 else 0]
  decode
    | [] => none
    | b :: bs => if b = 0 then some (false, bs) else if b = 1 then some (true, bs) else none
  encode_ne_nil _ := by simp
  decode_encode b rest _ := by cases b <;> simp

def array (count : Nat) (positive : 0 < count) : Codec (Vector UInt8 count) where
  encode v := v.toList
  decode bs :=
    if h : count ≤ bs.length then
      some (⟨(bs.take count).toArray, by simp [h]⟩, bs.drop count)
    else none
  encode_ne_nil v := by
    intro empty
    have := congrArg List.length empty
    simp only [Vector.length_toList, List.length_nil] at this
    omega
  decode_encode v rest _ := by
    have len : v.toList.length = count := Vector.length_toList
    have fits : count ≤ (v.toList ++ rest).length := by
      rw [List.length_append, len]
      omega
    have back : (v.toList ++ rest).drop count = rest := by
      rw [List.drop_append_of_le_length (by omega), List.drop_of_length_le (by omega),
        List.nil_append]
    simp only [dif_pos fits, Option.some.injEq, Prod.mk.injEq, back, and_true]
    apply Vector.toList_inj.mp
    simp [Vector.toList]

def pair (c : Codec α) (d : Codec β) : Codec (α × β) where
  encode p := c.encode p.1 ++ d.encode p.2
  decode bs := (c.decode bs).bind fun p => (d.decode p.2).map fun q => ((p.1, q.1), q.2)
  encode_ne_nil p := by
    intro empty
    exact c.encode_ne_nil p.1 (List.append_eq_nil_iff.mp empty).1
  decode_encode p rest short := by
    rw [List.length_append] at short
    rw [List.append_assoc, c.decode_encode _ _ (by omega), Option.bind_some,
      d.decode_encode _ _ (by omega), Option.map_some]

def iso (c : Codec α) (f : α → β) (g : β → α) (back : ∀ b, f (g b) = b) : Codec β where
  encode b := c.encode (g b)
  decode bs := (c.decode bs).map fun p => (f p.1, p.2)
  encode_ne_nil b := c.encode_ne_nil (g b)
  decode_encode b rest short := by
    rw [c.decode_encode _ _ short, Option.map_some, back]

/-- The same bytes, of which only some stand for a value of the other type. -/
def refine (c : Codec α) (f : α → Option β) (g : β → α) (back : ∀ b, f (g b) = some b) :
    Codec β where
  encode b := c.encode (g b)
  decode bs := (c.decode bs).bind fun p => (f p.1).map fun b => (b, p.2)
  encode_ne_nil b := c.encode_ne_nil (g b)
  decode_encode b rest short := by
    rw [c.decode_encode _ _ short, Option.bind_some, back, Option.map_some]

def option (c : Codec α) : Codec (Option α) where
  encode
    | none => [0]
    | some a => 1 :: c.encode a
  decode
    | [] => none
    | b :: bs =>
        if b = 0 then some (none, bs)
        else if b = 1 then (c.decode bs).map fun p => (some p.1, p.2)
        else none
  encode_ne_nil o := by cases o <;> simp
  decode_encode o rest short := by
    cases o with
    | none => simp
    | some a =>
        have inner : (c.encode a).length < 2 ^ 64 := by
          simp only [List.length_cons] at short
          omega
        simp [c.decode_encode a rest inner]

def decodeMany (c : Codec α) : Nat → Bytes → Option (List α × Bytes)
  | 0, bs => some ([], bs)
  | count + 1, bs =>
      (c.decode bs).bind fun p => (decodeMany c count p.2).map fun q => (p.1 :: q.1, q.2)

theorem decodeMany_succ_eq_some {c : Codec α} {count : Nat} {bs rest : Bytes} {as : List α} :
    c.decodeMany (count + 1) bs = some (as, rest) ↔
      ∃ a later others, c.decode bs = some (a, later) ∧
        c.decodeMany count later = some (others, rest) ∧ as = a :: others := by
  simp only [decodeMany, Option.bind_eq_some_iff, Option.map_eq_some_iff, Prod.exists,
    Prod.mk.injEq]
  constructor
  · rintro ⟨a, later, first, others, unread, more, rfl, rfl⟩
    exact ⟨a, later, others, first, more, rfl⟩
  · rintro ⟨a, later, others, first, more, rfl⟩
    exact ⟨a, later, first, others, rest, more, rfl, rfl⟩

theorem decodeMany_flatMap (c : Codec α) (as : List α) (rest : Bytes)
    (short : (as.flatMap c.encode).length < 2 ^ 64) :
    c.decodeMany as.length (as.flatMap c.encode ++ rest) = some (as, rest) := by
  induction as with
  | nil => simp [decodeMany]
  | cons a as ih =>
      rw [List.flatMap_cons, List.length_append] at short
      rw [List.flatMap_cons, List.append_assoc, List.length_cons, decodeMany,
        c.decode_encode _ _ (by omega), Option.bind_some, ih (by omega), Option.map_some]

theorem length_le_length_flatMap (c : Codec α) (as : List α) :
    as.length ≤ (as.flatMap c.encode).length := by
  induction as with
  | nil => simp
  | cons a as ih =>
      have positive := List.length_pos_of_ne_nil (c.encode_ne_nil a)
      rw [List.flatMap_cons, List.length_append, List.length_cons]
      omega

def list (c : Codec α) : Codec (List α) where
  encode as := leBytes 8 as.length ++ as.flatMap c.encode
  decode bs := (splitExact 8 bs).bind fun p => c.decodeMany (ofLeBytes p.1) p.2
  encode_ne_nil as := by
    intro empty
    have := congrArg List.length empty
    simp at this
  decode_encode as rest short := by
    rw [List.length_append, length_leBytes] at short
    have count := c.length_le_length_flatMap as
    have split := splitExact_append (leBytes 8 as.length) (as.flatMap c.encode ++ rest)
    rw [length_leBytes] at split
    have exact_count : ofLeBytes (leBytes 8 as.length) = as.length :=
      ofLeBytes_leBytes 8 _ (by omega)
    rw [List.append_assoc, split, Option.bind_some, exact_count]
    exact c.decodeMany_flatMap as rest (by omega)

def bytes : Codec Bytes where
  encode bs := leBytes 8 bs.length ++ bs
  decode bs := (splitExact 8 bs).bind fun p => splitExact (ofLeBytes p.1) p.2
  encode_ne_nil bs := by
    intro empty
    have := congrArg List.length empty
    simp at this
  decode_encode bs rest short := by
    rw [List.length_append, length_leBytes] at short
    have split := splitExact_append (leBytes 8 bs.length) (bs ++ rest)
    rw [length_leBytes] at split
    have exact_count : ofLeBytes (leBytes 8 bs.length) = bs.length :=
      ofLeBytes_leBytes 8 _ (by omega)
    rw [List.append_assoc, split, Option.bind_some, exact_count]
    exact splitExact_append bs rest

def utf8 (text : String) : Bytes := text.toByteArray.data.toList

/-- A text behind its 64-bit length in bytes; bytes that are not UTF-8 are refused. -/
def string : Codec String :=
  bytes.refine (fun bs => String.fromUTF8? ⟨bs.toArray⟩) utf8 (fun text => by
    simp [String.fromUTF8?, utf8, text.isValidUTF8, String.fromUTF8])

/-! The layouts, for the sizes of what is written. -/

section Layout

variable (c : Codec α) (d : Codec β)

theorem encode_pair (p : α × β) : (c.pair d).encode p = c.encode p.1 ++ d.encode p.2 := rfl

theorem encode_iso (f : α → β) (g : β → α) (back : ∀ b, f (g b) = b) (b : β) :
    (c.iso f g back).encode b = c.encode (g b) :=
  rfl

theorem encode_list (as : List α) :
    c.list.encode as = leBytes 8 as.length ++ as.flatMap c.encode :=
  rfl

theorem encode_string (text : String) :
    string.encode text = leBytes 8 (utf8 text).length ++ utf8 text :=
  rfl

theorem length_encode_u32 (a : UInt32) : (u32.encode a).length = 4 := length_leBytes 4 a.toNat

theorem length_encode_u64 (a : UInt64) : (u64.encode a).length = 8 := length_leBytes 8 a.toNat

theorem length_encode_bool (b : Bool) : (bool.encode b).length = 1 := rfl

theorem length_encode_none : (c.option.encode none).length = 1 := rfl

theorem length_encode_bytes (bs : Bytes) : (bytes.encode bs).length = 8 + bs.length := by
  simp [bytes]

theorem length_encode_list (as : List α) :
    (c.list.encode as).length = 8 + (as.flatMap c.encode).length := by
  simp [encode_list]

end Layout

theorem utf8_of_fromUTF8 {bs : Bytes} {text : String}
    (valid : String.fromUTF8? ⟨bs.toArray⟩ = some text) : utf8 text = bs := by
  rw [String.fromUTF8?] at valid
  split at valid
  case isTrue =>
    obtain rfl := Option.some.inj valid
    simp [utf8, String.fromUTF8]
  case isFalse => exact absurd valid (by simp)

end Codec

end Lyrion.Library.ByteCodec
