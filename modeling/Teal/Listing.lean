import Teal.Label
import Teal.Op
/-!
# Listings

A listing is a program as the machine runs it: its lines in order and the table of their labels. The
index of a line is the line number of its text.
-/

namespace Teal

/-- A program: its lines and the names of its labels. -/
structure Listing where
  ops : List (Op LabelId) := []
  labels : LabelTable := .empty
deriving DecidableEq

namespace Listing

/-- The number of lines. -/
def size (l : Listing) : Nat :=
  l.ops.length

/-- The first line at or after `i` that satisfies `p`. -/
def nextWhere (p : Op LabelId → Bool) (l : Listing) (i : Nat) : Option Nat :=
  ((l.ops.drop i).findIdx? p).map (i + ·)

/-- The first line at or after `i` that is neither a comment nor blank. -/
def nextNonNop : Listing → Nat → Option Nat :=
  nextWhere (!·.isNop)

/-- The first line at or after `i` that executes. -/
def nextExecutable : Listing → Nat → Option Nat :=
  nextWhere Op.isExecutable

/-- The instruction that control at `i` comes to, with its line. -/
def fetch? (l : Listing) (i : Nat) : Option (Nat × Op LabelId) := do
  let pc ← l.nextExecutable i
  let op ← l.ops[pc]?
  some (pc, op)

/-- The lines that declare a label. -/
def declarations (l : Listing) (id : LabelId) : List Nat :=
  l.ops.zipIdx.filterMap fun (op, i) => if op.declared? = some id then some i else none

/-- Where a jump to a label goes: the first line that declares it. -/
def target? (l : Listing) (id : LabelId) : Option Nat :=
  l.ops.findIdx? (·.declared? = some id)

/-- How many references to a label the listing holds. -/
def references (l : Listing) (id : LabelId) : Nat :=
  (l.ops.flatMap Op.targets).count id

/-- The language version the first pragma gives. -/
def version? (l : Listing) : Option UInt8 :=
  l.ops.findSome? fun
    | .pragma version => some version
    | _ => none

/-- The text of one line; empty outside the listing. -/
def renderLine (l : Listing) (i : Nat) : String :=
  match l.ops[i]? with
  | some op => (op.map l.labels.name).render
  | none => ""

/-- The texts of all lines. -/
def renderLines (l : Listing) : List String :=
  l.ops.map fun op => (op.map l.labels.name).render

/-- The text of the listing, every line ended by a newline. -/
def render (l : Listing) : String :=
  String.join (l.renderLines.map (· ++ "\n"))

/-- The listing of lines whose labels are named by text. -/
def ofLines (lines : List (Op String)) : Listing :=
  let labels := LabelTable.ofList (lines.flatMap Op.mentions)
  { ops := lines.map (·.map labels.idOf), labels }

end Listing

end Teal
