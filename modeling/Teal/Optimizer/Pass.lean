import Teal.Listing
/-!
# Passes

Four ways to make a listing shorter without changing what it does. Each pass deletes lines, keeps
the order of the others and every comment and blank line, and leaves the label table as it is; only
`mergeLabels` changes lines it keeps, by retargeting their references.
-/

namespace Teal.Optimizer

/-- The first line with an effect. -/
def firstEffect? (ops : List (Op LabelId)) : Option (Op LabelId) :=
  ops.find? (!·.isNop)

/-- Whether a subroutine body starts here: the first line with an effect is a `proto` or
`retsub`. -/
def opensSubroutine (ops : List (Op LabelId)) : Bool :=
  match firstEffect? ops with
  | some .retsub | some (.proto _ _) => true
  | _ => false

/-- Whether a line is an unconditional branch to the label that comes next. -/
def branchesToNext (op : Op LabelId) (rest : List (Op LabelId)) : Bool :=
  match op with
  | .branch .always target =>
    match firstEffect? rest with
    | some next => next.declared? == some target
    | none => false
  | _ => false

/-- The lines without the labels that are not `used`, except those that open a subroutine. -/
def dropLabels (used : LabelId → Bool) : List (Op LabelId) → List (Op LabelId)
  | [] => []
  | op :: rest =>
    match op.declared? with
    | some id =>
      if used id || opensSubroutine rest then op :: dropLabels used rest else dropLabels used rest
    | none => op :: dropLabels used rest

/-- The lines without those that control cannot fall into: everything with an effect between a line
that ends the flow and the next label. `dead` tells whether the lines start in such a stretch. -/
def dropDead (dead : Bool) : List (Op LabelId) → List (Op LabelId)
  | [] => []
  | op :: rest =>
    let dead := dead && op.declared?.isNone
    if dead && !op.isNop then dropDead true rest
    else op :: dropDead (dead || op.endsFlow) rest

/-- The lines without the branches to the label that comes next. -/
def dropBranches : List (Op LabelId) → List (Op LabelId)
  | [] => []
  | op :: rest => if branchesToNext op rest then dropBranches rest else op :: dropBranches rest

/-- The lines without the labels that follow another one with nothing but comments and blank lines
between, and what each dropped label is replaced by, in order. `survivor` is the label that the
lines directly follow. -/
def collapse (survivor : Option LabelId) :
    List (Op LabelId) → List (Op LabelId) × List (LabelId × LabelId)
  | [] => ([], [])
  | op :: rest =>
    match op.declared?, survivor with
    | some id, some first =>
      let (ops, renames) := collapse survivor rest
      (ops, if first = id then renames else (id, first) :: renames)
    | some id, none =>
      let (ops, renames) := collapse (some id) rest
      (op :: ops, renames)
    | none, _ =>
      let (ops, renames) := collapse (if op.isNop then survivor else none) rest
      (op :: ops, renames)

/-- The label that takes the place of another; the last replacement counts. -/
def replacement (renames : List (LabelId × LabelId)) (id : LabelId) : LabelId :=
  (renames.reverse.lookup id).getD id

/-- Deletes the labels nothing refers to, except those that open a subroutine. -/
def removeUnusedLabels (l : Listing) : Listing :=
  { l with ops := dropLabels (fun id => l.references id != 0) l.ops }

/-- Deletes the instructions that control cannot reach without a label. -/
def removeDeadCode (l : Listing) : Listing :=
  { l with ops := dropDead false l.ops }

/-- Deletes the unconditional branches to the next line. -/
def removeRedundantBranches (l : Listing) : Listing :=
  { l with ops := dropBranches l.ops }

/-- Keeps one label of each run of labels and makes all references to the others refer to it. -/
def mergeLabels (l : Listing) : Listing :=
  let (ops, renames) := collapse none l.ops
  { l with ops := ops.map (·.retarget (replacement renames)) }

end Teal.Optimizer
