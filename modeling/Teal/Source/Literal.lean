import Teal.Source.Error
import Teal.Text.Blank
import Teal.Text.Hex
/-!
# Operands of an instruction

Numbers, byte constants and label names as they are written in source.
-/

namespace Teal.Source

/-- The value of an integer text: hexadecimal after `0x` or `0X`, octal after `0o`, else decimal.
Underscores are dropped first, wherever they stand. -/
def integer? (cs : List Char) : Option Nat :=
  match cs.filter (· != '_') with
  | '0' :: 'x' :: ds => Text.Numeral.read? 16 UInt64.size ds
  | '0' :: 'X' :: ds => Text.Numeral.read? 16 UInt64.size ds
  | '0' :: 'o' :: ds => Text.Numeral.read? 8 UInt64.size ds
  | ds => Text.Numeral.read? 10 UInt64.size ds

/-- An integer of at most 64 bits. -/
def integer (raw : String) : Except SourceError UInt64 :=
  match integer? raw.toList with
  | some n => .ok (UInt64.ofNat n)
  | none => .error (.badInteger raw)

/-- The transaction types and completion actions that stand for numbers. -/
def integerNames : List (String × UInt64) :=
  [("unknown", 0), ("pay", 1), ("keyreg", 2), ("acfg", 3), ("axfer", 4), ("afrz", 5), ("appl", 6),
    ("NoOp", 0), ("OptIn", 1), ("CloseOut", 2), ("ClearState", 3), ("UpdateApplication", 4),
    ("DeleteApplication", 5)]

/-- The number a name stands for. -/
def namedInteger? (name : String) : Option UInt64 :=
  integerNames.lookup name

/-- A decimal byte. -/
def byte (raw : String) : Except SourceError UInt8 :=
  match Text.Numeral.byte? raw.toList with
  | some n => .ok n
  | none => .error (.badInteger raw)

/-- A signed decimal byte. -/
def offset (raw : String) : Except SourceError Int8 :=
  match Text.Numeral.offset? raw.toList with
  | some n => .ok n
  | none => .error (.badInteger raw)

/-- The bytes of a quoted body. A character stands for its UTF-8 form; a backslash starts one of the
escapes `\n`, `\t`, `\r`, `\\`, `\"` and `\x` with the numeral of a byte in the two characters after
it. -/
def quotedBytes? : List Char → Option (List UInt8)
  | [] => some []
  | '\\' :: 'n' :: cs => (quotedBytes? cs).map (10 :: ·)
  | '\\' :: 't' :: cs => (quotedBytes? cs).map (9 :: ·)
  | '\\' :: 'r' :: cs => (quotedBytes? cs).map (13 :: ·)
  | '\\' :: '\\' :: cs => (quotedBytes? cs).map (92 :: ·)
  | '\\' :: '"' :: cs => (quotedBytes? cs).map (34 :: ·)
  | '\\' :: 'x' :: a :: b :: cs =>
    match Text.Numeral.read? 16 256 [a, b] with
    | some n => (quotedBytes? cs).map (UInt8.ofNat n :: ·)
    | none => none
  | '\\' :: 'x' :: cs => (Text.Numeral.read? 16 256 cs).map fun n => [UInt8.ofNat n]
  | '\\' :: _ => none
  | c :: cs => (quotedBytes? cs).map (String.utf8EncodeChar c ++ ·)

/-- The bytes of a byte constant: hexadecimal after `0x`, or a body in double quotes. -/
def bytes? : List Char → Option (List UInt8)
  | '0' :: 'x' :: ds => Text.Hex.decode? ds
  | '"' :: cs => if cs.getLast? = some '"' then quotedBytes? cs.dropLast else none
  | _ => none

/-- A byte constant. -/
def bytes (raw : String) : Except SourceError (List UInt8) :=
  match bytes? raw.toList with
  | some b => .ok b
  | none => .error (.badBytes raw)

/-- Whether a label may have this name: not empty, no opening quote, and no white space, colon or
control character in it. -/
def isLabelName (cs : List Char) : Bool :=
  !cs.isEmpty && cs.head? != some '"' &&
    cs.all fun c => !Text.isSpace c && c != ':' && !Text.isControl c

/-- The name of a label. -/
def labelName (name : String) : Except SourceError String :=
  if isLabelName name.toList then .ok name else .error (.badLabel name)

end Teal.Source
