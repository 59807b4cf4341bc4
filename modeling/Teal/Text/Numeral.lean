/-!
# Numerals

Reading numbers in a base. A numeral is one optional `+` and at least one digit; leading zeros are
fine, and a value at or above the given bound is refused. A signed numeral may have a `-` instead.
-/

namespace Teal.Text.Numeral

/-- The value of a digit: `0` to `9`, then the letters in either case from ten upward. -/
def digitValue? (c : Char) : Option Nat :=
  if '0' ≤ c && c ≤ '9' then some (c.toNat - '0'.toNat)
  else if 'a' ≤ c && c ≤ 'z' then some (c.toNat - 'a'.toNat + 10)
  else if 'A' ≤ c && c ≤ 'Z' then some (c.toNat - 'A'.toNat + 10)
  else none

/-- The value of a digit of the given base. -/
def digit? (base : Nat) (c : Char) : Option Nat :=
  (digitValue? c).filter (· < base)

/-- The positional value of digits that follow digits worth `acc`. -/
def digits? (base acc : Nat) : List Char → Option Nat
  | [] => some acc
  | c :: cs =>
    match digit? base c with
    | some d => digits? base (base * acc + d) cs
    | none => none

/-- The value of a non-empty string of digits, if it is below `bound`. -/
def magnitude? (base bound : Nat) (cs : List Char) : Option Nat :=
  if cs.isEmpty then none else (digits? base 0 cs).filter (· < bound)

/-- The value of a numeral, if it is below `bound`. -/
def read? (base bound : Nat) : List Char → Option Nat
  | '+' :: cs => magnitude? base bound cs
  | cs => magnitude? base bound cs

/-- A decimal numeral for a byte. -/
def byte? (cs : List Char) : Option UInt8 :=
  (read? 10 256 cs).map UInt8.ofNat

/-- A decimal numeral for a 64-bit word. -/
def word? (cs : List Char) : Option UInt64 :=
  (read? 10 UInt64.size cs).map UInt64.ofNat

/-- A signed decimal numeral between -128 and 127. -/
def offset? : List Char → Option Int8
  | '-' :: cs => (magnitude? 10 129 cs).map fun n => Int8.ofInt (-n)
  | cs => (read? 10 128 cs).map Int8.ofNat

end Teal.Text.Numeral
