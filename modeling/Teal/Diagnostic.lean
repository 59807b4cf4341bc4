import Teal.Text.Find
/-!
# Diagnostics

What a check has to say about a line: where, how serious, in which words and by which rule, and
whether deleting the line would mend it.
-/

namespace Teal

/-- How serious a diagnostic is. -/
inductive Severity where
  | info
  | warning
  | error
deriving DecidableEq, Repr

/-- The name of a severity. -/
def Severity.render : Severity → String
  | .info => "info"
  | .warning => "warning"
  | .error => "error"

/-- A change that mends what a diagnostic is about. -/
inductive Suggestion where
  /-- The line can be deleted. -/
  | removeLine (line : Nat)
deriving DecidableEq, Repr

/-- A remark on a line; `start` and `stop` bound the columns it is about. -/
structure Diagnostic where
  line : Nat
  start : Nat := 0
  stop : Nat := 0
  severity : Severity
  message : String
  /-- The rule that made the remark. -/
  rule : String
  suggestion : Option Suggestion := none
deriving DecidableEq, Repr

namespace Diagnostic

/-- The remark with the whole line as its columns. -/
def spanning (text : String) (d : Diagnostic) : Diagnostic :=
  { d with start := 0, stop := text.utf8ByteSize }

/-- The remark with the columns of the first occurrence of a word, or the whole line without one. -/
def spanningWord (text needle : String) (d : Diagnostic) : Diagnostic :=
  match Text.find? needle.toList text.toList with
  | some column => { d with start := column, stop := column + needle.utf8ByteSize }
  | none => d.spanning text

/-- The remark with the suggestion to delete its line. -/
def removable (d : Diagnostic) : Diagnostic :=
  { d with suggestion := some (.removeLine d.line) }

/-- Whether the remark is an error. -/
def isError (d : Diagnostic) : Bool :=
  d.severity == .error

/-- Remarks in the order of their lines, with one more put before the first remark that is on its
own line or a later one. -/
def place (d : Diagnostic) : List Diagnostic → List Diagnostic
  | [] => [d]
  | e :: es => if d.line ≤ e.line then d :: e :: es else e :: place d es

/-- Remarks in the order of their lines. Remarks on one line keep their order. -/
def sortByLine : List Diagnostic → List Diagnostic
  | [] => []
  | d :: ds => place d (sortByLine ds)

/-- The remark on one line of text. -/
def render (d : Diagnostic) : String :=
  s!"{d.line}:{d.start}: {d.severity.render}: {d.message} [{d.rule}]"

end Diagnostic

end Teal
