import Teal.Machine.Branch
/-!
# Paths

A path follows control alone: it has scratch space of its own, it is not charged for what it
executes, and where control may go several ways it takes one of them. `Point.move` is one step of a
path, and `Halts l catalog p choices e` says that the path from `p` that takes the given outcomes at
its forks ends with `e`.
-/

namespace Teal

/-- The state once a line has been executed: the next one can tell whether that was a call. -/
def State.after (s : State) (op : Op LabelId) : State :=
  { s with thread := { s.thread with afterCall := op.isCall } }

/-- A place on a path. -/
structure Point where
  /-- Where control is. -/
  pc : Nat := 0
  state : State := {}
  /-- What the executed lines would have cost. -/
  cost : Nat := 0

/-- How a path ends. -/
structure Ending where
  halt : Halt
  state : State
  cost : Nat

/-- What one step of a path comes to. -/
inductive Move where
  /-- The path ends. -/
  | stop (e : Ending)
  /-- It goes on at one place. -/
  | go (p : Point)
  /-- It goes on at one of several places. -/
  | choose (ps : List Point)

/-- One step of a path. -/
def Point.move (l : Listing) (catalog : Catalog) (p : Point) : Move :=
  match l.fetch? p.pc with
  | none => .stop { halt := .terminated none, state := p.state, cost := p.cost }
  | some (pc, op) =>
    let cost := p.cost + catalog.cost (op.mnemonic?.getD "")
    match (op.exec l catalog pc).run p.state with
    | .error fault s => .stop { halt := .faulted fault, state := s.after op, cost }
    | .ok (.halt approved) s => .stop { halt := .terminated approved, state := s.after op, cost }
    | .ok (.goto pc) s => .go { pc, state := s.after op, cost }
    | .ok (.fork pc others) s =>
      .choose ((pc :: others).map ({ pc := ·, state := s.after op, cost }))

theorem move_of_fetch_none {l : Listing} {catalog : Catalog} {p : Point}
    (h : l.fetch? p.pc = none) :
    p.move l catalog = .stop { halt := .terminated none, state := p.state, cost := p.cost } := by
  simp only [Point.move, h]

/-- The path from a point that takes the given outcomes at its forks, one after the other and each
by its place among the outcomes, ends as given. -/
inductive Halts (l : Listing) (catalog : Catalog) : Point → List Nat → Ending → Prop
  | stop {p e} : p.move l catalog = .stop e → Halts l catalog p [] e
  | go {p q choices e} : p.move l catalog = .go q → Halts l catalog q choices e →
      Halts l catalog p choices e
  | choose {p ps q i choices e} : p.move l catalog = .choose ps → ps[i]? = some q →
      Halts l catalog q choices e → Halts l catalog p (i :: choices) e

/-- The places at which a path may go on after one step. -/
def Move.next : Move → List Point
  | .stop _ => []
  | .go p => [p]
  | .choose ps => ps

/-- A path from a point goes through the given points, and ends as given if it has ended. -/
inductive Runs (l : Listing) (catalog : Catalog) : Point → List Point → Option Ending → Prop
  | here {p} : Runs l catalog p [] none
  | stop {p e} : p.move l catalog = .stop e → Runs l catalog p [] (some e)
  | next {p q qs stop} : q ∈ (p.move l catalog).next → Runs l catalog q qs stop →
      Runs l catalog p (q :: qs) stop

/-- The same outcome: the same end for the same reason, and the same values on the stack and in
scratch space, wherever they came from. -/
structure SameOutcome (e e' : Ending) : Prop where
  halt : e.halt = e'.halt
  stack : e.state.thread.stack.map Cell.value = e'.state.thread.stack.map Cell.value
  scratch : e.state.scratch.slots.map Cell.value = e'.state.scratch.slots.map Cell.value

theorem SameOutcome.refl (e : Ending) : SameOutcome e e := ⟨rfl, rfl, rfl⟩

theorem SameOutcome.trans {e₁ e₂ e₃ : Ending} (h : SameOutcome e₁ e₂) (h' : SameOutcome e₂ e₃) :
    SameOutcome e₁ e₃ :=
  ⟨h.halt.trans h'.halt, h.stack.trans h'.stack, h.scratch.trans h'.scratch⟩

end Teal
