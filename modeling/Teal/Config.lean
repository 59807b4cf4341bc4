import Teal.Json.Decode
import Teal.Json.Reader
import Teal.Lint.Rule
import Teal.Machine.Basic
/-!
# Tool configuration

The settings of a tool run, read from a JSON text. Every setting may be left out and then has its
default.
-/

namespace Teal

open Json (Decoder)

/-- The settings of a tool run. -/
structure Config where
  machine : Machine.Config := {}
  lint : Lint.Config := {}
  /-- Whether the listing is optimized first. -/
  optimize : Bool := false
deriving DecidableEq, Repr

namespace Config

/-- The spelling of the modes. -/
def modes : List (String × Mode) :=
  [("Signature", .signature), ("Application", .application), ("Any", .any)]

/-- Reads the limits of a run. -/
def machineDecoder : Decoder Machine.Config :=
  Decoder.record ["budget", "max_branches", "trace"] true fun depth values =>
    match values with
    | [budget, maxBranches, trace] => do
      let defaults : Machine.Config := {}
      let budget ← Decoder.withDefault (.nat UInt64.size) defaults.budget depth budget
      let maxBranches ←
        Decoder.withDefault (.nat UInt64.size) defaults.maxBranches depth maxBranches
      let trace ← Decoder.withDefault .bool defaults.trace depth trace
      some { budget, maxBranches, trace }
    | _ => none

/-- Reads the settings of the linter. -/
def lintDecoder : Decoder Lint.Config :=
  Decoder.record ["mode", "disabled"] true fun depth values =>
    match values with
    | [mode, disabled] => do
      let mode ← Decoder.withDefault (.nullable (.choice modes)) none depth mode
      let disabled ← Decoder.withDefault (.list .string) [] depth disabled
      some { mode, disabled }
    | _ => none

/-- Reads the settings of a tool run. -/
def decoder : Decoder Config :=
  Decoder.record ["vm", "lint", "optimize"] true fun depth values =>
    match values with
    | [machine, lint, optimize] => do
      let machine ← Decoder.withDefault machineDecoder {} depth machine
      let lint ← Decoder.withDefault lintDecoder {} depth lint
      let optimize ← Decoder.withDefault .bool false depth optimize
      some { machine, lint, optimize }
    | _ => none

/-- The settings a JSON text holds. -/
def ofText? (text : String) : Option Config :=
  (Json.parse? text).bind decoder.run

end Config

end Teal
