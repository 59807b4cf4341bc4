import Teal.Lint.Rule
import Teal.Optimizer.Pass
/-!
# Rules on control flow

Code that nothing reaches, branches that change nothing, and loops that nothing leaves.
-/

namespace Teal.Lint

/-- The lines with an effect that follow a line ending the flow, with no label in use between.
`dead` tells whether the lines, numbered from `line`, start in such a stretch. -/
def unreachableFrom (used : LabelId → Bool) (dead : Bool) (line : Nat) :
    List (Op LabelId) → List Nat
  | [] => []
  | op :: rest =>
    let dead := dead && !op.declared?.any used
    let later := unreachableFrom used (dead || op.endsFlow) (line + 1) rest
    if dead && !op.isNop then line :: later else later

/-- The lines that nothing reaches. -/
def unreachableLines (l : Listing) : List Nat :=
  unreachableFrom (fun id => l.references id != 0) false 0 l.ops

/-- A line is reached neither from above nor by a label in use. -/
def unreachableCode : Rule where
  name := "unreachable-code"
  check c := some <| (unreachableLines c.listing).map fun line =>
    (({ line, severity := .warning, rule := "unreachable-code"
        message := "unreachable code" } : Diagnostic).spanning
      (c.listing.renderLine line)).removable

/-- The lines that branch to the line after them. -/
def redundantBranches (l : Listing) : List Nat :=
  l.ops.zipIdx.filterMap fun (op, line) =>
    if Optimizer.branchesToNext op (l.ops.drop (line + 1)) then some line else none

/-- A branch goes where control would go without it. -/
def redundantBranch : Rule where
  name := "redundant-branch"
  check c := some <| (redundantBranches c.listing).map fun line =>
    (({ line, severity := .warning, rule := "redundant-branch"
        message := "branch to the next line has no effect" } : Diagnostic).spanning
      (c.listing.renderLine line)).removable

/-- Whether control may leave the lines from `first` to `last`: one of them is a terminator or
refers to a label that is declared outside, or nowhere. -/
def escapes (l : Listing) (first last : Nat) : Bool :=
  ((l.ops.take (last + 1)).drop first).any fun op =>
    op.isTerminator || op.targets.any fun id =>
      let sites := l.declarations id
      sites.isEmpty || sites.any fun site => site < first || site > last

/-- The backward branches of loops that nothing leaves, with the line each goes back to. -/
def infiniteLoops (l : Listing) : List (Nat × Nat) :=
  l.ops.zipIdx.filterMap fun (op, line) =>
    match op with
    | .branch .always target =>
      match l.target? target with
      | some first => if first < line && !escapes l first line then some (first, line) else none
      | none => none
    | _ => none

/-- A loop has no way out. -/
def infiniteLoop : Rule where
  name := "infinite-loop"
  check c := some <| (infiniteLoops c.listing).map fun (first, line) =>
    ({ line, severity := .warning, rule := "infinite-loop"
       message := s!"infinite loop: nothing between lines {first} and {line} leaves it" } :
      Diagnostic).spanning (c.listing.renderLine line)

end Teal.Lint
