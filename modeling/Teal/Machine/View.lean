import Teal.Machine.Basic
/-!
# Looking at a machine

Names, histories and call stacks of branches, in words.
-/

namespace Teal

/-- One branch as it is shown. -/
structure BranchView where
  id : BranchId
  line : Option Nat
  name : Option String
  live : Bool
  /-- The values on the stack, the bottom first. -/
  stack : List String
  error : Option String
deriving DecidableEq, Repr

namespace Machine

/-- The name of the label that a line stands under: the last one declared at or before it. -/
def labelAt? (l : Listing) (line : Nat) : Option String :=
  ((l.ops.take (line + 1)).reverse.findSome? Op.declared?).map l.labels.name

/-- The name of a branch: the label it stands under, or stood under when it last executed a line. -/
def nameOf? (m : Machine) (b : Branch) : Option String :=
  match b.line?.filter (· < m.listing.size) with
  | some line => labelAt? m.listing line
  | none => b.trace.head?.bind (labelAt? m.listing)

/-- The name of the branch with a given number. -/
def branchName? (m : Machine) (id : BranchId) : Option String :=
  (m.branch? id).bind m.nameOf?

/-- The executed lines of a branch in order, each with its number. -/
def history (m : Machine) (id : BranchId) : Except MachineError (List String) :=
  match m.branch? id with
  | some b => .ok (b.trace.reverse.map fun pc => s!"{pc}: {m.listing.renderLine pc}")
  | none => .error (.unknownBranch id)

/-- Every declared label with the line a jump to it goes to. -/
def symbols (m : Machine) : List (String × Nat) :=
  m.listing.labels.names.zipIdx.filterMap fun (name, id) =>
    (m.listing.target? id).map fun line => (name, line)

/-- Where a branch stands and the calls that led there, one line each, the innermost first. Nothing
for a branch that does not exist. -/
def backtrace (m : Machine) (id : BranchId) : String :=
  match m.branch? id with
  | none => ""
  | some b =>
    let here := match b.line?.bind m.listing.nextExecutable with
      | some line => s!"line {line}"
      | none => "exit"
    let name := (m.nameOf? b).getD "main"
    let calls := (b.thread.frames.zip (List.range b.depth).reverse).map fun (frame, depth) =>
      s!"  #{depth} at {m.listing.renderLine (frame.returnPc - 1)}"
    "\n".intercalate (s!"  #{b.depth} at {here} ({name})" :: calls)

/-- One branch as it is shown. -/
def view (m : Machine) (b : Branch) : BranchView where
  id := b.id
  line := b.line?
  name := m.nameOf? b
  live := b.isRunning
  stack := b.thread.stack.reverse.map Cell.brief
  error := b.fault?.map Fault.message

/-- Every branch as it is shown, the live ones first. -/
def inspect (m : Machine) : List BranchView :=
  (m.live ++ m.retired).map m.view

/-- The scratch slots that something was stored in. -/
def inspectScratch (m : Machine) : List (Nat × String) :=
  m.scratch.touched.map fun (slot, c) => (slot, c.brief)

end Machine

end Teal
