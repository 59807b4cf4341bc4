import Teal.Text.Numeral
/-!
# Bytes in hexadecimal

Every byte is two digits, the high one first. Writing uses small letters, reading takes both cases.
-/

namespace Teal.Text.Hex

/-- The two digits of a byte. -/
def encodeByte (b : UInt8) : List Char :=
  [Nat.digitChar (b.toNat / 16), Nat.digitChar (b.toNat % 16)]

/-- The digits of a byte string. -/
def encode (bytes : List UInt8) : List Char :=
  bytes.flatMap encodeByte

/-- The bytes written by pairs of digits; nothing if a digit is wrong or one is left over. -/
def decode? : List Char → Option (List UInt8)
  | [] => some []
  | hi :: lo :: cs => do
    let h ← Numeral.digit? 16 hi
    let l ← Numeral.digit? 16 lo
    let bytes ← decode? cs
    some (UInt8.ofNat (16 * h + l) :: bytes)
  | [_] => none

end Teal.Text.Hex
