/-!
# Opcode catalog

What is known of an opcode before any program runs: since which language version it exists, in which
kind of program it may stand, what it costs and what it does to the stack.
-/

namespace Teal

/-- The type of a value on the stack. -/
inductive StackType where
  /-- No value. -/
  | absent
  /-- A number or a byte string, which of the two is only known when the program runs. -/
  | any
  | uint64
  | bytes
deriving DecidableEq, Repr

namespace StackType

/-- The name of a type. -/
def render : StackType → String
  | .absent => "none"
  | .any => "any"
  | .uint64 => "uint64"
  | .bytes => "[]byte"

/-- Whether a value of one type may stand where the other is expected. -/
def isCompatible (a expected : StackType) : Bool :=
  a == .any || expected == .any || a == expected

end StackType

/-- The kind of program an opcode may stand in. -/
inductive Mode where
  /-- Stateless signatures. -/
  | signature
  /-- Stateful applications. -/
  | application
  /-- Both. -/
  | any
deriving DecidableEq, Repr

namespace Mode

/-- The name of a mode. -/
def render : Mode → String
  | .signature => "signature"
  | .application => "application"
  | .any => "any"

/-- Whether an opcode of mode `m` may stand in a program of mode `requested`. -/
def allows (m requested : Mode) : Bool :=
  m == .any || requested == .any || m == requested

end Mode

/-- The catalog entry of an opcode. Every opcode costs something. -/
structure OpSpec where
  name : String
  minVersion : UInt8
  mode : Mode
  cost : Nat
  /-- What it pops, the top of the stack last. -/
  pops : List StackType
  /-- What it pushes, the top of the stack last. -/
  pushes : List StackType
  /-- How many operands it takes; none if that varies. -/
  immediates : Option Nat
  cost_pos : 0 < cost := by decide
deriving Repr

/-- The known opcodes. -/
structure Catalog where
  specs : List OpSpec

namespace Catalog

/-- The entry of an opcode. -/
def find? (c : Catalog) (name : String) : Option OpSpec :=
  c.specs.find? (·.name == name)

/-- Whether an opcode is known. -/
def contains (c : Catalog) (name : String) : Bool :=
  (c.find? name).isSome

/-- The entry of an opcode that exists in a language version. -/
def available? (c : Catalog) (name : String) (version : UInt8) : Option OpSpec :=
  (c.find? name).filter (·.minVersion ≤ version)

/-- The cost of an opcode; an unknown one costs 1. -/
def cost (c : Catalog) (name : String) : Nat :=
  match c.find? name with
  | some spec => spec.cost
  | none => 1

theorem cost_pos (c : Catalog) (name : String) : 0 < c.cost name := by
  unfold cost
  split
  · exact OpSpec.cost_pos _
  · decide

/-- The number of known opcodes. -/
def size (c : Catalog) : Nat :=
  c.specs.length

/-- The highest language version an entry may ask for. -/
def maxVersion : UInt8 := 10

/-- The language version of a program that does not give one. -/
def defaultVersion : UInt8 := 1

end Catalog

end Teal
