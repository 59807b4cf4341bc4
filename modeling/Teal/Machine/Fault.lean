import Teal.Catalog
/-!
# Faults

Why an instruction fails. A fault stops the branch that executed the instruction and no other.
-/

namespace Teal

/-- Why an instruction failed. -/
inductive Fault where
  /-- There are too few values on the stack. -/
  | stackUnderflow (op : String)
  /-- A popped value has the wrong type. -/
  | typeMismatch (op : String) (expected got : StackType)
  /-- A result does not fit into 64 bits. -/
  | overflow (op : String)
  /-- The divisor is zero. -/
  | divideByZero (op : String)
  /-- `err` was executed. -/
  | errOpcode
  /-- `assert` popped zero. -/
  | assertFailed
  /-- `retsub` was executed outside every subroutine. -/
  | retsubWithoutFrame
  /-- `proto` was executed anywhere but right after a call. -/
  | protoWithoutCallsub
  /-- The running subroutine has no `proto`. -/
  | noFrame (op : String)
  /-- An index is outside what it indexes. -/
  | outOfRange (op : String) (index : Int)
  /-- A label is declared nowhere. -/
  | missingLabel (name : String)
  /-- An opcode is not in the catalog. -/
  | unknownOpcode (name : String)
  /-- An operand is missing or malformed. -/
  | badImmediate (op : String)
  /-- `btoi` popped more than eight bytes. -/
  | tooLongForInteger (length : Nat)
  /-- A byte string is longer than a program may make one. -/
  | tooLong (op : String) (length : Nat)
deriving DecidableEq, Repr

/-- The longest byte string a program may make. -/
def maxBytesLength : Nat := 4096

/-- The wording of a fault. -/
def Fault.message : Fault → String
  | .stackUnderflow op => s!"stack underflow in {op}"
  | .typeMismatch op expected got => s!"{op} expected {expected.render}, got {got.render}"
  | .overflow op => s!"{op} overflowed"
  | .divideByZero op => s!"{op} by zero"
  | .errOpcode => "err opcode executed"
  | .assertFailed => "assert failed"
  | .retsubWithoutFrame => "retsub without a call frame"
  | .protoWithoutCallsub => "proto must immediately follow callsub"
  | .noFrame op => s!"{op} requires a frame prepared by proto"
  | .outOfRange op index => s!"{op} index {index} out of range"
  | .missingLabel name => s!"jump to undeclared label {name}"
  | .unknownOpcode name => s!"unknown opcode {name}"
  | .badImmediate op => s!"bad immediate for {op}"
  | .tooLongForInteger length => s!"btoi arg too long, got {length} bytes"
  | .tooLong op length => s!"{op} produced {length} bytes, limit is {maxBytesLength}"

end Teal
