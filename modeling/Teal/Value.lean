import Teal.Catalog
import Teal.Text.Blank
import Teal.Text.Hex
/-!
# Values

What a program computes with: numbers, byte strings, and values that are not known before the
program runs for real. A `Cell` is a value together with the instruction it came from.
-/

namespace Teal

/-- A value on the stack or in a scratch slot. -/
inductive Value where
  /-- No value. -/
  | absent
  /-- A value that an opcode produced but that cannot be known here. -/
  | unknown
  /-- A number. -/
  | uint (n : UInt64)
  /-- A byte string. -/
  | bytes (b : List UInt8)
deriving DecidableEq, Repr

namespace Value

/-- The type of a value. -/
def type : Value → StackType
  | .absent => .absent
  | .unknown => .any
  | .uint _ => .uint64
  | .bytes _ => .bytes

/-- A byte string as text in quotes, if it is not empty, is UTF-8 and has no control character. -/
def quoted? (b : List UInt8) : Option String :=
  match String.fromUTF8? b.toByteArray with
  | some text =>
    if !text.isEmpty && text.toList.all (!Text.isControl ·) then some ("\"" ++ text ++ "\"")
    else none
  | none => none

/-- The value as text. A byte string is quoted where it can be read, else hexadecimal. -/
def render : Value → String
  | .absent => "none"
  | .unknown => "any"
  | .uint n => toString n.toNat
  | .bytes b => (quoted? b).getD ("0x" ++ String.ofList (Text.Hex.encode b))

/-- A truth value as a number. -/
def ofBool (b : Bool) : Value :=
  .uint (if b then 1 else 0)

end Value

/-- Where a value came from: the line that produced it and the text of that line. -/
structure Origin where
  pc : Nat
  source : String
deriving DecidableEq, Repr

/-- A value and where it came from. -/
structure Cell where
  value : Value
  origin : Option Origin := none
deriving DecidableEq, Repr

namespace Cell

/-- Whether the value cannot be known here. -/
def isUnknown (c : Cell) : Bool :=
  c.value == .unknown

/-- The value as text, with its origin if it has one. -/
def render (c : Cell) : String :=
  match c.origin with
  | some o => s!"{c.value.render} ({o.source} @{o.pc})"
  | none => c.value.render

/-- The value as short text: an unknown value is told by the line that produced it. -/
def brief (c : Cell) : String :=
  match c.value, c.origin with
  | .unknown, some o => s!"any <{o.source}>"
  | v, _ => v.render

end Cell

end Teal
