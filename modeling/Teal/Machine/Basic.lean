import Teal.LineSet
import Teal.Machine.Branch
/-!
# The machine

A machine runs a listing along every way its control may go. Each way is a branch with a stack and
call frames of its own; scratch space is shared. A branch runs until it stops, and is then kept
among the retired ones.

`Machine.step` gives the current branch one turn; `Machine.fork` copies it; `Machine.switch` makes
another branch the current one. Each of them gives the machine afterwards, also where it refuses.
-/

namespace Teal

/-- The limits of a run. -/
structure Machine.Config where
  /-- What a program may spend. -/
  budget : Nat := 700
  /-- How many branches there may be in all, the root included. -/
  maxBranches : Nat := 64
  /-- Whether the executed lines are recorded. -/
  trace : Bool := true
deriving DecidableEq, Repr

/-- Why a command to the machine is refused. -/
inductive MachineError where
  /-- Every branch has stopped. -/
  | noLiveBranches
  /-- There are as many branches as there may be. -/
  | branchLimit (limit : Nat)
  /-- There is no such branch. -/
  | unknownBranch (id : BranchId)
  /-- The branch has stopped. -/
  | notRunning (id : BranchId)
deriving DecidableEq, Repr

/-- The wording of a refused command. -/
def MachineError.message : MachineError → String
  | .noLiveBranches => "No live branches"
  | .branchLimit limit => s!"Branch limit of {limit} reached"
  | .unknownBranch id => s!"Unknown branch #{id}"
  | .notRunning id => s!"Branch #{id} is not running"

/-- A listing being run. -/
structure Machine where
  listing : Listing
  catalog : Catalog
  config : Machine.Config
  scratch : Scratch
  /-- The running branches, in the order of their numbers. -/
  live : List Branch
  /-- The stopped branches, in the order in which they stopped. -/
  retired : List Branch
  /-- The branch that commands act on. -/
  current : Option BranchId
  /-- The number the next branch gets. -/
  nextId : BranchId
  /-- The lines a run stops before. -/
  breakpoints : LineSet
  /-- The branch and line of the last breakpoint stop, until that branch goes on. -/
  paused : Option (BranchId × Nat)

/-- What one step did. -/
structure Report where
  /-- The branch that had its turn. -/
  branch : BranchId
  /-- The executed line; none if the branch stopped without executing one. -/
  executed : Option Nat
  /-- The branches that were forked off. -/
  forked : List BranchId
  /-- Why the branch stopped, if it did. -/
  halted : Option Halt
deriving DecidableEq, Repr

namespace Machine

/-- A machine about to run a listing: the root branch stands before the first line. -/
def start (listing : Listing) (catalog : Catalog) (config : Config) : Machine where
  listing := listing
  catalog := catalog
  config := config
  scratch := .fresh
  live := [{ budget := config.budget }]
  retired := []
  current := some 0
  nextId := 1
  breakpoints := .empty
  paused := none

/-- The branch with a given number. -/
def branch? (m : Machine) (id : BranchId) : Option Branch :=
  (m.live ++ m.retired).find? (·.id == id)

/-- The place of a live branch. -/
def indexOf? (m : Machine) (id : BranchId) : Option (Fin m.live.length) :=
  m.live.findFinIdx? (·.id == id)

/-- Whether every branch has stopped. -/
def isFinished (m : Machine) : Bool :=
  m.live.isEmpty

/-- Replaces the breakpoints. -/
def setBreakpoints (m : Machine) (lines : LineSet) : Machine :=
  { m with breakpoints := lines }

/-- Makes a live branch the current one. -/
def switch (m : Machine) (id : BranchId) : Machine × Except MachineError Unit :=
  if m.live.any (·.id == id) then ({ m with current := some id }, .ok ())
  else if m.retired.any (·.id == id) then (m, .error (.notRunning id))
  else (m, .error (.unknownBranch id))

/-- The place of the current branch, or of the first live one. -/
def focus? (m : Machine) : Option (Fin m.live.length) :=
  match m.current.bind m.indexOf? with
  | some i => some i
  | none => if h : 0 < m.live.length then some ⟨0, h⟩ else none

/-- Copies of a branch that go on at the given lines, numbered in order, as many as the limit
allows. -/
def children (m : Machine) (b : Branch) (pcs : List Nat) : List Branch :=
  ((pcs.take (m.config.maxBranches - m.nextId)).zipIdx m.nextId).map
    fun (pc, id) => b.child id pc

/-- Copies the current branch, or the first live one, which then becomes the current one. -/
def fork (m : Machine) : Machine × Except MachineError BranchId :=
  match m.focus? with
  | none => (m, .error .noLiveBranches)
  | some i =>
    let b := m.live.get i
    if m.nextId < m.config.maxBranches then
      ({ m with
        live := m.live ++ [b.child m.nextId b.pc]
        current := some b.id
        nextId := m.nextId + 1 }, .ok m.nextId)
    else ({ m with current := some b.id }, .error (.branchLimit m.config.maxBranches))

/-- Gives the live branch at a place one turn. If it stops it is retired; branches that it forks off
come last. -/
def stepAt (m : Machine) (i : Fin m.live.length) : Machine × Report :=
  let b := m.live.get i
  let t := b.turn m.listing m.catalog m.config.trace m.scratch
  let forked := m.children t.branch t.others
  let (kept, stopped) := match t.halt with
    | none => (m.live.set i t.branch, [])
    | some h => (m.live.eraseIdx i, [t.branch.retire h])
  ({ m with
      scratch := t.scratch
      live := kept ++ forked
      retired := m.retired ++ stopped
      nextId := m.nextId + forked.length
      paused := m.paused.filter (·.1 != b.id) },
    { branch := b.id, executed := t.executed, forked := forked.map (·.id), halted := t.halt })

/-- Gives the current branch one turn. If it stops, the first live branch becomes the current
one. -/
def step (m : Machine) : Machine × Except MachineError Report :=
  match m.focus? with
  | none => (m, .error .noLiveBranches)
  | some i =>
    let (next, report) := m.stepAt i
    let current := if report.halted.isSome then next.live.head?.map (·.id) else some report.branch
    ({ next with current }, .ok report)

end Machine

end Teal
