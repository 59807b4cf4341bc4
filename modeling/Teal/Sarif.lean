import Teal.Diagnostic
import Teal.Json
/-!
# SARIF logs

Diagnostics as a SARIF 2.1.0 log. Lines and columns count from 1 there. Keys are in the order of
their bytes.
-/

namespace Teal.Sarif

/-- The level of a severity. -/
def level : Severity → String
  | .error => "error"
  | .warning => "warning"
  | .info => "note"

/-- A rule put in its place among rules in increasing order. -/
def placeRule (rule : String) : List String → List String
  | [] => [rule]
  | r :: rs =>
    if rule < r then rule :: r :: rs
    else if rule = r then r :: rs
    else r :: placeRule rule rs

/-- The rules that diagnostics come from, each once and in increasing order. -/
def rules (ds : List Diagnostic) : List String :=
  ds.foldl (fun rs d => placeRule d.rule rs) []

/-- The description of a rule. -/
def ruleEntry (rule : String) : Json :=
  .object [("id", .text rule), ("shortDescription", .object [("text", .text rule)])]

/-- The result that reports a diagnostic. -/
def result (ruleIds : List String) (filename : String) (d : Diagnostic) : Json :=
  let region := Json.object
    [("endColumn", .nat (max d.stop d.start + 1)), ("startColumn", .nat (d.start + 1)),
     ("startLine", .nat (d.line + 1))]
  let location := Json.object
    [("physicalLocation", .object
      [("artifactLocation", .object [("uri", .text filename)]), ("region", region)])]
  .object
    [("level", .text (level d.severity)), ("locations", .arr [location]),
     ("message", .object [("text", .text d.message)]), ("ruleId", .text d.rule),
     ("ruleIndex", .nat ((ruleIds.idxOf? d.rule).getD 0))]

/-- The address of the schema a log follows. -/
def schema : String :=
  "https://raw.githubusercontent.com/oasis-tcs/sarif-spec/main/sarif-2.1/schema/" ++
    "sarif-schema-2.1.0.json"

/-- The log of diagnostics on a file. -/
def log (ds : List Diagnostic) (filename : String) : Json :=
  let ruleIds := rules ds
  let driver := Json.object
    [("name", .text "tealc"), ("rules", .arr (ruleIds.map ruleEntry)), ("version", .text "0.1.0")]
  let run := Json.object
    [("invocations", .arr [.object [("executionSuccessful", .bool (!ds.any (·.isError)))]]),
     ("results", .arr (ds.map (result ruleIds filename))),
     ("tool", .object [("driver", driver)])]
  .object [("$schema", .text schema), ("runs", .arr [run]), ("version", .text "2.1.0")]

end Teal.Sarif
