import Teal.Listing
/-!
# Program trees

A program may be given as trees instead of lines: a tree is a line, a block of trees under an
optional label, or a subroutine. `Expr.flatten` lays a tree out as lines in order, and
`Listing.ofExprs` makes the listing of a program.
-/

namespace Teal

/-- A node of a program tree. -/
inductive Expr where
  /-- A single line. -/
  | line (op : Op String)
  /-- Trees in order, after a label if there is one. -/
  | block (label : Option String) (body : List Expr)
  /-- A subroutine that takes `args` values and gives back `results`. -/
  | subroutine (name : String) (args results : UInt8) (body : List Expr)

/-- Why a program has no listing. -/
inductive CompileError where
  /-- A label without a name is declared or referred to. -/
  | emptyLabel
  /-- A subroutine has no name. -/
  | unnamedSubroutine
deriving DecidableEq, Repr

/-- The wording of a compile error. -/
def CompileError.message : CompileError → String
  | .emptyLabel => "Label with an empty name"
  | .unnamedSubroutine => "Subroutine without a name"

/-- Whether the last line with an effect is a `retsub`. -/
def endsWithRetsub (lines : List (Op String)) : Bool :=
  match lines.reverse.find? (!·.isNop) with
  | some .retsub => true
  | _ => false

/-- A line, refused if it mentions a label without a name. -/
def Op.named (op : Op String) : Except CompileError (List (Op String)) :=
  if op.mentions.any String.isEmpty then .error .emptyLabel else .ok [op]

namespace Expr

mutual

/-- The lines of a tree, in order. A subroutine is its label, its `proto` and its body, and returns
at the end even where the body does not say so. -/
def flatten : Expr → Except CompileError (List (Op String))
  | .line op => op.named
  | .block label body => do
    let opening ← match label with
      | some name => (Op.label name).named
      | none => .ok []
    let inner ← flattenAll body
    .ok (opening ++ inner)
  | .subroutine name args results body =>
    if name.isEmpty then .error .unnamedSubroutine
    else do
      let inner ← flattenAll body
      let closing := if endsWithRetsub inner then [] else [Op.retsub]
      .ok (.label name :: .proto args results :: inner ++ closing)

/-- The lines of trees one after the other. -/
def flattenAll : List Expr → Except CompileError (List (Op String))
  | [] => .ok []
  | e :: es => do
    let first ← flatten e
    let rest ← flattenAll es
    .ok (first ++ rest)

end

end Expr

/-- The listing of a program. -/
def Listing.ofExprs (exprs : List Expr) : Except CompileError Listing :=
  (Expr.flattenAll exprs).map Listing.ofLines

end Teal
