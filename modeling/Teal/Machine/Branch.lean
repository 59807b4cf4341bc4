import Teal.Machine.Instruction
/-!
# Branches

A branch is one way a program may go. `Branch.turn` gives a branch one turn: it executes one
instruction, or finds that there is none left to execute or no budget to pay for it.
-/

namespace Teal

/-- The number of a branch; the root is number 0. Numbers are not bounded here: fewer than `2 ^ 32`
branches are assumed. -/
abbrev BranchId := Nat

/-- Why a branch stopped. -/
inductive Halt where
  /-- Its budget is used up. -/
  | exhausted
  /-- An instruction failed. -/
  | faulted (fault : Fault)
  /-- It left the listing or returned, with a verdict if that is known. -/
  | terminated (approved : Option Bool)
deriving DecidableEq, Repr

/-- One way a program may go. -/
structure Branch where
  id : BranchId := 0
  /-- The branch it was forked from. -/
  parent : Option BranchId := none
  /-- The line control is at, or was at before it came to the exit. -/
  pc : Nat := 0
  /-- Whether control is at the exit, which is no line. -/
  atExit : Bool := false
  thread : Thread := {}
  /-- What may still be spent. -/
  budget : Nat
  /-- The executed lines, the last one first. -/
  trace : List Nat := []
  /-- Why it stopped; none while it runs. -/
  halt : Option Halt := none
deriving DecidableEq, Repr

/-- What one turn of a branch came to. -/
structure Turn where
  /-- The branch after the turn. -/
  branch : Branch
  /-- Scratch space after the turn. -/
  scratch : Scratch
  /-- The executed line. -/
  executed : Option Nat := none
  /-- The other lines control may go on at. -/
  others : List Nat := []
  /-- Why the branch stopped, if it did. -/
  halt : Option Halt := none

namespace Branch

/-- Whether the branch has not stopped. -/
def isRunning (b : Branch) : Bool :=
  b.halt.isNone

/-- The line control is at; none at the exit. -/
def line? (b : Branch) : Option Nat :=
  if b.atExit then none else some b.pc

theorem line?_eq_some_iff {b : Branch} : b.line? = some b.pc ↔ b.atExit = false := by
  cases hexit : b.atExit <;> simp [line?, hexit]

/-- What keeps `atExit` keeps a branch off the exit. -/
theorem line?_of_same {b b' : Branch} (hsame : b'.atExit = b.atExit) (h : b.line? = some b.pc) :
    b'.line? = some b'.pc :=
  line?_eq_some_iff.2 (hsame.trans (line?_eq_some_iff.1 h))

/-- The number of calls that have not returned. -/
def depth (b : Branch) : Nat :=
  b.thread.frames.length

/-- The fault that stopped the branch. -/
def fault? (b : Branch) : Option Fault :=
  match b.halt with
  | some (.faulted f) => some f
  | _ => none

/-- The branch once it has stopped: it comes to the exit, unless it failed, and then it stays where
that was. -/
def retire (b : Branch) (halt : Halt) : Branch :=
  { b with
    halt := some halt
    atExit := match halt with
      | .faulted _ => b.atExit
      | .exhausted | .terminated _ => true }

/-- A branch that has failed stands where it failed. -/
theorem line?_retire_faulted (b : Branch) (fault : Fault) :
    (b.retire (.faulted fault)).line? = b.line? := rfl

/-- A branch that has stopped for any other reason is at the exit. -/
theorem line?_retire {b : Branch} (halt : Halt) (h : (b.retire halt).fault? = none) :
    (b.retire halt).line? = none := by
  cases halt with
  | faulted => cases h
  | exhausted | terminated => rfl

/-- A copy under another number that goes on elsewhere. -/
def child (b : Branch) (id : BranchId) (pc : Nat) : Branch :=
  { b with id, parent := some b.id, pc }

theorem line?_child {b : Branch} (h : b.line? = some b.pc) (id : BranchId) (pc : Nat) :
    (b.child id pc).line? = some pc :=
  line?_of_same (b := b) rfl h

/-- The branch after it executed the line at `pc`, which left it with `thread`: it has paid for the
line and recorded it. -/
def charge (b : Branch) (catalog : Catalog) (traced : Bool) (pc : Nat) (op : Op LabelId)
    (thread : Thread) : Branch :=
  { b with
    pc
    thread := { thread with afterCall := op.isCall }
    budget := b.budget - catalog.cost (op.mnemonic?.getD "")
    trace := if traced then pc :: b.trace else b.trace }

/-- The turn of a branch that executed a line and goes on at `pc`, and perhaps elsewhere: without
budget it stops. -/
def goOn (b : Branch) (scratch : Scratch) (executed pc : Nat) (others : List Nat) : Turn :=
  { branch := { b with pc }
    scratch, others
    executed := some executed
    halt := if b.budget = 0 then some .exhausted else none }

/-- One turn of a branch. -/
def turn (l : Listing) (catalog : Catalog) (traced : Bool) (scratch : Scratch) (b : Branch) :
    Turn :=
  if b.budget = 0 then { branch := b, scratch, halt := some .exhausted }
  else
    match l.fetch? b.pc with
    | none => { branch := b, scratch, halt := some (.terminated none) }
    | some (pc, op) =>
      match (op.exec l catalog pc).run { thread := b.thread, scratch } with
      | .error fault s =>
        { branch := b.charge catalog traced pc op s.thread, scratch := s.scratch
          executed := some pc, halt := some (.faulted fault) }
      | .ok (.halt approved) s =>
        { branch := b.charge catalog traced pc op s.thread, scratch := s.scratch
          executed := some pc, halt := some (.terminated approved) }
      | .ok (.goto next) s =>
        (b.charge catalog traced pc op s.thread).goOn s.scratch pc next []
      | .ok (.fork next others) s =>
        (b.charge catalog traced pc op s.thread).goOn s.scratch pc next others

end Branch

end Teal
