import Teal.Machine.Fault
import Teal.Scratch
/-!
# What an instruction acts on

An instruction acts on the stack and the call frames of its branch and on scratch space. `Exec` is
the monad of such actions: an action either gives a result or a fault, and in both cases a new
state, since what an instruction popped before it failed stays popped.
-/

namespace Teal

/-- What is remembered of a call until it returns. -/
structure Frame where
  /-- Where control goes on after the return. -/
  returnPc : Nat
  /-- The height of the stack at the call. -/
  sp : Nat
  /-- How many values below that height the subroutine takes. -/
  args : Nat := 0
  /-- How many values it gives back. -/
  results : Nat := 0
  /-- Whether `proto` has declared `args` and `results`. -/
  declared : Bool := false
deriving DecidableEq, Repr

/-- The part of a branch that instructions change. -/
structure Thread where
  /-- The values, the top first. -/
  stack : List Cell := []
  /-- The calls that have not returned, the innermost first. -/
  frames : List Frame := []
  /-- Whether the instruction before was a call. -/
  afterCall : Bool := false
deriving DecidableEq, Repr

/-- What an instruction acts on. -/
structure State where
  thread : Thread := {}
  scratch : Scratch := .fresh
deriving DecidableEq

/-- An action of an instruction. -/
abbrev Exec (α : Type) := EStateM Fault State α

/-- Where control goes after an instruction. -/
inductive Effect where
  /-- On at one line. -/
  | goto (pc : Nat)
  /-- On at one of several lines, which of them is not known. -/
  | fork (pc : Nat) (others : List Nat)
  /-- Nowhere: the program ends, with a verdict if it is known. -/
  | halt (approved : Option Bool)
deriving DecidableEq, Repr

/-- The instruction being executed: its line, the text of that line and its opcode name. -/
structure Site where
  pc : Nat
  source : String
  name : String

namespace Exec

/-- The values on the stack, the top first. -/
def stack : Exec (List Cell) := do
  return (← get).thread.stack

/-- Replaces the stack. -/
def setStack (cells : List Cell) : Exec Unit :=
  modify fun s => { s with thread := { s.thread with stack := cells } }

/-- Replaces the call frames. -/
def setFrames (frames : List Frame) : Exec Unit :=
  modify fun s => { s with thread := { s.thread with frames } }

/-- Puts a value with its origin on the stack. -/
def pushCell (c : Cell) : Exec Unit := do
  setStack (c :: (← stack))

/-- Takes the top of the stack. -/
def pop (name : String) : Exec Cell := do
  match ← stack with
  | [] => throw (.stackUnderflow name)
  | c :: rest =>
    setStack rest
    return c

/-- Takes the given number of values, the first one taken first. -/
def popMany (name : String) : Nat → Exec (List Cell)
  | 0 => return []
  | n + 1 => do
    let c ← pop name
    let cs ← popMany name n
    return c :: cs

/-- Takes a number; none if it is not known. -/
def popUint (name : String) : Exec (Option UInt64) := do
  let c ← pop name
  match c.value with
  | .uint n => return some n
  | .unknown => return none
  | v => throw (.typeMismatch name .uint64 v.type)

/-- Takes a byte string; none if it is not known. -/
def popBytes (name : String) : Exec (Option (List UInt8)) := do
  let c ← pop name
  match c.value with
  | .bytes b => return some b
  | .unknown => return none
  | v => throw (.typeMismatch name .bytes v.type)

/-- Puts a value on the stack that the instruction at `site` produced. -/
def push (site : Site) (value : Value) : Exec Unit :=
  pushCell { value, origin := some { pc := site.pc, source := site.source } }

end Exec

end Teal
