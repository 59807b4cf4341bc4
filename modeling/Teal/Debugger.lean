import Teal.Machine.Run
/-!
# Debugging sessions

A session is a machine with breakpoints of its own and a way of stepping. Stepping moves the current
branch only: into, over or out of a subroutine; `resume` runs all branches to the next breakpoint.
Each command gives the session afterwards, also where it refuses.
-/

namespace Teal

/-- How far a stepping command goes. -/
inductive StepMode where
  /-- To the next breakpoint. -/
  | resume
  /-- One instruction; a call counts as one. -/
  | over
  /-- One instruction. -/
  | into
  /-- Until the running subroutine returns. -/
  | out
deriving DecidableEq, Repr

/-- Where a command left the session. -/
inductive Stop where
  /-- A branch is about to execute a line. -/
  | paused (branch : BranchId) (line : Nat)
  /-- The branch stopped for good. -/
  | halted (branch : BranchId) (halt : Halt)
  /-- There is nothing left to step. -/
  | finished
deriving DecidableEq, Repr

/-- What a session remembers besides its machine. -/
structure Stepping where
  breakpoints : LineSet := .empty
  mode : StepMode := .into
  /-- The line the session last stopped at. -/
  lastLine : Option Nat := none
  /-- The call depth at which the last stepping command began. -/
  depth : Nat := 0
deriving DecidableEq

namespace Stepping

/-- Sets a breakpoint. -/
def addBreakpoint (s : Stepping) (line : Nat) : Stepping :=
  { s with breakpoints := s.breakpoints.insert line }

/-- Clears a breakpoint. -/
def removeBreakpoint (s : Stepping) (line : Nat) : Stepping :=
  { s with breakpoints := s.breakpoints.erase line }

/-- Sets a breakpoint that is clear and clears one that is set; tells whether it is set now. -/
def toggleBreakpoint (s : Stepping) (line : Nat) : Stepping × Bool :=
  if s.breakpoints.contains line then (s.removeBreakpoint line, false)
  else (s.addBreakpoint line, true)

/-- Whether to stop before a line that is reached at a call depth. -/
def shouldBreak (s : Stepping) (line depth : Nat) : Bool :=
  s.breakpoints.contains line ||
    match s.mode with
    | .resume => false
    | .into => true
    | .over => depth ≤ s.depth
    | .out => depth < s.depth

end Stepping

/-- A debugging session. -/
structure Session where
  machine : Machine
  stepping : Stepping := {}

namespace Machine

theorem step_effort_lt {m next : Machine} {report : Report} (h : m.step = (next, .ok report)) :
    next.effort < m.effort := by
  unfold step at h
  split at h
  · cases h
  · rename_i i _
    cases h
    exact m.stepAt_effort_lt i

/-- The current branch and the line it is about to execute. -/
def position? (m : Machine) : Option (BranchId × Nat) := do
  let id ← m.current
  let b ← m.branch? id
  let pc ← b.line?
  let line ← m.listing.nextExecutable pc
  some (id, line)

/-- The call depth of a branch. -/
def depthOf (m : Machine) (id : BranchId) : Nat :=
  match m.branch? id with
  | some b => b.depth
  | none => 0

end Machine

namespace Session

/-- A session over a machine. -/
def start (m : Machine) : Session :=
  { machine := m }

/-- Runs every branch to the next breakpoint of the session. -/
def resume (s : Session) : Session × Stop :=
  let (machine, outcome) := (s.machine.setBreakpoints s.stepping.breakpoints).run
  let stepping := { s.stepping with mode := .resume }
  match outcome with
  | .finished => ({ machine, stepping }, .finished)
  | .breakpoint id line =>
    ({ machine, stepping := { stepping with lastLine := some line } }, .paused id line)

/-- Stops stepping and tells where the current branch stands. -/
def pause (s : Session) : Session × Stop :=
  let stepping := { s.stepping with mode := .into }
  match s.machine.position? with
  | some (id, line) =>
    ({ s with stepping := { stepping with lastLine := some line } }, .paused id line)
  | none => ({ s with stepping }, .finished)

/-- Steps the branch `id`, which is the current one, until it stops or the mode or a breakpoint says
so. At least one step is made. -/
def drive (m : Machine) (stepping : Stepping) (id : BranchId) :
    Session × Except MachineError Stop :=
  match h : m.step with
  | (machine, .error e) => ({ machine, stepping }, .error e)
  | (machine, .ok report) =>
    match report.halted with
    | some halt =>
      ({ machine, stepping := { stepping with lastLine := report.executed } },
        .ok (.halted id halt))
    | none =>
      match machine.position? with
      | none => ({ machine, stepping }, .ok .finished)
      | some (_, line) =>
        if stepping.shouldBreak line (machine.depthOf id) then
          ({ machine, stepping := { stepping with lastLine := some line } },
            .ok (.paused id line))
        else
          have := Machine.step_effort_lt h
          drive machine stepping id
termination_by m.effort

/-- Steps the current branch, or the first live one, in a mode. -/
def stepBy (s : Session) (mode : StepMode) : Session × Except MachineError Stop :=
  match s.machine.current.or (s.machine.live.head?.map (·.id)) with
  | none => (s, .error .noLiveBranches)
  | some id =>
    match s.machine.switch id with
    | (machine, .error e) => ({ s with machine }, .error e)
    | (machine, .ok ()) => drive machine { s.stepping with mode, depth := machine.depthOf id } id

end Session

end Teal
