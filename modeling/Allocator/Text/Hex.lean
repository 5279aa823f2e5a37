/-! Byte strings as lowercase hexadecimal text, two digits per byte and no separators.
Reading cuts the text's UTF-8 bytes into pairs and reads each pair as a number in base 16:
digits of either case, optionally after a plus sign, so `+f` is 15. A text of an odd
number of bytes is refused before any pair is read; otherwise the pairs are read from the
left and the first that fails decides: a pair that ends inside a character of several
bytes cuts that character, and a pair that is not a number is a bad digit. Reading the
digits written for a list of bytes gives the bytes back. -/
namespace Allocator

namespace Hex

/-- Why a text is not a byte string. -/
inductive HexError where
  /-- The text has an odd number of bytes. -/
  | oddLength
  /-- A pair of bytes is not a number in base 16. -/
  | badDigit
  /-- A pair of bytes ends inside a character, so it is not text at all. -/
  | splitChar
deriving Repr, DecidableEq

/-- The message of a refused text. -/
def HexError.message : HexError → String
  | .oddLength => "odd-length hex"
  | .badDigit => "bad hex"
  | .splitChar => "hex digit pair cuts a character"

/-- The lowercase digit of a value below 16. -/
def digit (d : Nat) : Char :=
  if d < 10 then Char.ofNat (48 + d) else Char.ofNat (87 + d)

/-- The value of a hexadecimal digit of either case. -/
def digitValue (c : Char) : Option Nat :=
  if '0' ≤ c ∧ c ≤ '9' then some (c.toNat - 48)
  else if 'a' ≤ c ∧ c ≤ 'f' then some (c.toNat - 87)
  else if 'A' ≤ c ∧ c ≤ 'F' then some (c.toNat - 55)
  else none

/-- The two digits of one byte. -/
def byteChars (b : UInt8) : List Char := [digit (b.toNat / 16), digit (b.toNat % 16)]

/-- The digits of a list of bytes. -/
def encodeList : List UInt8 → List Char
  | [] => []
  | b :: bs => byteChars b ++ encodeList bs

/-- The text of a byte string. -/
def encode (b : ByteArray) : String := String.ofList (encodeList b.toList)

/-- The number that two one-byte characters spell: two digits, or a plus sign and one
digit. -/
def pairValue (a b : Char) : Option Nat :=
  if a = '+' then digitValue b
  else match digitValue a, digitValue b with
    | some x, some y => some (16 * x + y)
    | _, _ => none

/-- Read the byte pairs of a text that starts on an even byte into bytes. A character of
one byte pairs with the next one; a character of two bytes is a pair of its own, and no
digit; a pair that ends inside a character of more bytes cuts it. -/
def decodeChars : List Char → Except HexError (List UInt8)
  | [] => .ok []
  | a :: rest =>
    if a.utf8Size = 1 then
      match rest with
      | b :: rest =>
        if b.utf8Size = 1 then
          match pairValue a b with
          | some v => (decodeChars rest).map fun t => v.toUInt8 :: t
          | none => .error .badDigit
        else .error .splitChar
      | [] => .error .oddLength
    else if a.utf8Size = 2 then .error .badDigit
    else .error .splitChar

theorem digitValue_digit : ∀ d, d < 16 → digitValue (digit d) = some d := by
  decide

theorem utf8Size_digit : ∀ d, d < 16 → (digit d).utf8Size = 1 ∧ digit d ≠ '+' := by
  decide

/-- Reading the digits of a list of bytes gives the bytes back. -/
theorem decodeChars_encodeList (bs : List UInt8) : decodeChars (encodeList bs) = .ok bs := by
  induction bs with
  | nil => rfl
  | cons b bs ih =>
    have hb : b.toNat / 16 < 16 := by have := b.toNat_lt; omega
    have h1 := digitValue_digit (b.toNat / 16) hb
    have h2 := digitValue_digit (b.toNat % 16) (Nat.mod_lt _ (by decide))
    obtain ⟨s1, p1⟩ := utf8Size_digit (b.toNat / 16) hb
    obtain ⟨s2, -⟩ := utf8Size_digit (b.toNat % 16) (Nat.mod_lt _ (by decide))
    simp only [encodeList, byteChars, List.cons_append, List.nil_append, decodeChars, s1, s2,
      pairValue, p1, h1, h2, ih, if_true, if_false]
    show Except.ok (_ :: bs) = Except.ok (b :: bs)
    congr 2
    apply UInt8.toNat_inj.mp
    simp only [Nat.toUInt8, UInt8.toNat_ofNat']
    have := b.toNat_lt
    omega

/-- The byte string of a text. -/
def decode (s : String) : Except HexError ByteArray :=
  if s.utf8ByteSize % 2 ≠ 0 then .error .oddLength
  else (decodeChars s.toList).map List.toByteArray

end Hex

end Allocator
