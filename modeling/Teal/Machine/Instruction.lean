import Teal.Listing
import Teal.Machine.Opcode
/-!
# What a line does

`Exec.line` executes one line of a listing: it changes the state and says where control goes.
-/

namespace Teal.Exec

/-- The line a jump to a label goes to. -/
def resolve (l : Listing) (id : LabelId) : Exec Nat :=
  match l.target? id with
  | some pc => return pc
  | none => throw (.missingLabel (l.labels.name id))

/-- The lines that jumps to labels go to. -/
def resolveAll (l : Listing) : List LabelId → Exec (List Nat)
  | [] => return []
  | id :: ids => do
    let pc ← resolve l id
    let pcs ← resolveAll l ids
    return pc :: pcs

variable (site : Site)

/-- Goes to the target if the popped number says so, and both ways if it is not known. -/
def branch (kind : BranchKind) (target : Nat) : Exec Effect :=
  match kind with
  | .always => return .goto target
  | .ifZero => do
    match ← popUint site.name with
    | some n => return .goto (if n = 0 then target else site.pc + 1)
    | none => return .fork (site.pc + 1) [target]
  | .ifNonZero => do
    match ← popUint site.name with
    | some n => return .goto (if n = 0 then site.pc + 1 else target)
    | none => return .fork (site.pc + 1) [target]

/-- Opens a call frame and goes to the subroutine. -/
def callsub (target : Nat) : Exec Effect := do
  let thread := (← get).thread
  setFrames ({ returnPc := site.pc + 1, sp := thread.stack.length } :: thread.frames)
  return .goto target

/-- Declares the arguments and results of the frame that the call just before opened. -/
def proto (args results : Nat) : Exec Effect := do
  let thread := (← get).thread
  match thread.frames with
  | frame :: rest =>
    if thread.afterCall && !frame.declared then
      if frame.sp < args then throw (.stackUnderflow "proto")
      else
        setFrames ({ frame with args, results, declared := true } :: rest)
        return .goto (site.pc + 1)
    else throw .protoWithoutCallsub
  | [] => throw .protoWithoutCallsub

/-- Closes the innermost frame and goes back. A declared frame leaves its results where its
arguments were and drops all else it put on the stack. -/
def retsub : Exec Effect := do
  match (← get).thread.frames with
  | frame :: rest =>
    setFrames rest
    if frame.declared then
      let cells ← stack
      let base := frame.sp - frame.args
      if cells.length < base + frame.results then throw (.stackUnderflow "retsub")
      else setStack (cells.take frame.results ++ cells.drop (cells.length - base))
    return .goto frame.returnPc
  | [] => throw .retsubWithoutFrame

/-- Goes to the target with the popped index, on where there is none, and every way if the index is
not known. -/
def switch (targets : List Nat) : Exec Effect := do
  match ← popUint site.name with
  | some i => return .goto (targets[i.toNat]?.getD (site.pc + 1))
  | none => return .fork (site.pc + 1) targets

/-- Goes to the target of the first case equal to the popped value, on where there is none, and
every way if one of the values is not known. The case of the last target is on top. -/
def matchCases (targets : List Nat) : Exec Effect := do
  let needle ← pop site.name
  let popped ← popMany site.name targets.length
  if needle.isUnknown || popped.any Cell.isUnknown then
    return .fork (site.pc + 1) targets
  else
    let hit := (popped.reverse.zip targets).find? fun (c, _) => c.value == needle.value
    return .goto ((hit.map Prod.snd).getD (site.pc + 1))

/-- The place in the stack, counted from its bottom, that an offset from the call frame means. -/
def frameIndex (offset : Int8) : Exec Nat := do
  match (← get).thread.frames with
  | frame :: _ =>
    if frame.declared then
      let index : Int := frame.sp + offset.toInt
      if index < 0 ∨ (offset.toInt < 0 ∧ -offset.toInt > frame.args) then
        throw (.outOfRange site.name offset.toInt)
      else return index.toNat
    else throw (.noFrame site.name)
  | [] => throw (.noFrame site.name)

/-- Pushes a copy of the value an offset means. -/
def frameDig (offset : Int8) : Exec Unit := do
  let index ← frameIndex site offset
  let cells ← stack
  if h : index < cells.length then pushCell (cells.reverse.get ⟨index, by simpa using h⟩)
  else throw (.outOfRange site.name offset.toInt)

/-- Takes the top and puts it in the place an offset means. -/
def frameBury (offset : Int8) : Exec Unit := do
  let c ← pop site.name
  let index ← frameIndex site offset
  let cells ← stack
  if index < cells.length then setStack (cells.reverse.set index c).reverse
  else throw (.outOfRange site.name offset.toInt)

/-- Pushes a scratch slot. -/
def load (slot : UInt8) : Exec Unit := do
  pushCell ((← get).scratch.read slot)

/-- Pops into a scratch slot. -/
def store (slot : UInt8) : Exec Unit := do
  let c ← pop site.name
  modify fun s => { s with scratch := s.scratch.write slot c }

/-- Goes on at the next line after an action. -/
def andNext (action : Exec Unit) : Exec Effect := do
  action
  return .goto (site.pc + 1)

/-- What a line does. -/
def line (l : Listing) (catalog : Catalog) : Op LabelId → Exec Effect
  | .comment _ | .empty | .label _ | .pragma _ => andNext site (return)
  | .int _ value => andNext site (push site (.uint value))
  | .bytes _ value => andNext site (push site (.bytes value))
  | .branch kind target => do branch site kind (← resolve l target)
  | .callsub target => do callsub site (← resolve l target)
  | .switch targets => do switch site (← resolveAll l targets)
  | .matchCases targets => do matchCases site (← resolveAll l targets)
  | .retsub => retsub
  | .proto args results => proto site args.toNat results.toNat
  | .err => throw .errOpcode
  | .ret => do
    let verdict ← popUint site.name
    return .halt (verdict.map (· != 0))
  | .load slot => andNext site (load slot)
  | .store slot => andNext site (store site slot)
  | .frameDig offset => andNext site (frameDig site offset)
  | .frameBury offset => andNext site (frameBury site offset)
  | .instr _ immediates => andNext site (plain site catalog immediates)

end Teal.Exec

namespace Teal

/-- The instruction at a line of a listing, as its execution sees it. -/
def Site.ofLine (l : Listing) (pc : Nat) (op : Op LabelId) : Site :=
  { pc, source := l.renderLine pc, name := op.mnemonic?.getD "" }

/-- Executes one line of a listing. -/
def Op.exec (l : Listing) (catalog : Catalog) (pc : Nat) (op : Op LabelId) : Exec Effect :=
  Exec.line (Site.ofLine l pc op) l catalog op

end Teal
