import Teal.Lint.Rule
/-!
# Rules on labels

Labels declared more than once, never referred to, or nowhere declared.
-/

namespace Teal.Lint

/-- Every declared label with the lines that declare it, in the order of their first
declarations. -/
def declarationSites (l : Listing) : List (LabelId × List Nat) :=
  (l.ops.filterMap Op.declared?).eraseDups.map fun id => (id, l.declarations id)

/-- The remarks on the labels declared more than once, one on each declaration. -/
def duplicateLabelsIn (l : Listing) (sites : List (LabelId × List Nat)) : List Diagnostic :=
  sites.flatMap fun (id, lines) =>
    if lines.length < 2 then []
    else
      let name := l.labels.name id
      lines.map fun line =>
        ({ line, severity := .error, rule := "duplicate-label"
           message := s!"label {name} declared {lines.length} times" } :
          Diagnostic).spanningWord (l.renderLine line) name

/-- A label is declared more than once. -/
def duplicateLabel : Rule where
  name := "duplicate-label"
  check c := some (duplicateLabelsIn c.listing (declarationSites c.listing))

/-- The lines that declare a label nothing refers to, with that label. -/
def unusedLabels (l : Listing) : List (Nat × LabelId) :=
  l.ops.zipIdx.filterMap fun (op, line) =>
    op.declared?.bind fun id => if l.references id = 0 then some (line, id) else none

/-- A label is never referred to. -/
def unusedLabel : Rule where
  name := "unused-label"
  check c := some <| (unusedLabels c.listing).map fun (line, id) =>
    (({ line, severity := .warning, rule := "unused-label"
        message := s!"label {c.listing.labels.name id} is never referenced" } :
      Diagnostic).spanning (c.listing.renderLine line)).removable

/-- The references to labels that are nowhere declared, with their lines. -/
def missingLabels (l : Listing) : List (Nat × LabelId) :=
  l.ops.zipIdx.flatMap fun (op, line) =>
    (op.targets.filter fun id => (l.declarations id).isEmpty).map fun id => (line, id)

/-- A label is referred to but nowhere declared. -/
def missingLabel : Rule where
  name := "missing-label"
  check c := some <| (missingLabels c.listing).map fun (line, id) =>
    let name := c.listing.labels.name id
    ({ line, severity := .error, rule := "missing-label"
       message := s!"label {name} is not declared" } :
      Diagnostic).spanningWord (c.listing.renderLine line) name

end Teal.Lint
