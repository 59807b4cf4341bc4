import Teal.Diagnostic
import Teal.Listing
import Teal.Source.Line
/-!
# Reading a program

Every line of a source text becomes one line of the program, so line numbers agree. A line that is
refused is reported and taken as blank.
-/

namespace Teal

namespace Source

/-- What the lines of a source text came to. -/
structure Parsed where
  ops : List (Op String) := []
  diagnostics : List Diagnostic := []

/-- The report on a line that is refused. -/
def report (number : Nat) (text : List Char) (e : SourceError) : Diagnostic :=
  ({ line := number, severity := .error, message := e.message, rule := "parse" } :
    Diagnostic).spanning (String.ofList text)

/-- Reads lines that start at the given number. -/
def parseFrom (number : Nat) : List (List Char) → Parsed
  | [] => {}
  | text :: rest =>
    let parsed := parseFrom (number + 1) rest
    match lineOfChars text with
    | .ok op => { parsed with ops := op :: parsed.ops }
    | .error e =>
      { ops := .empty :: parsed.ops, diagnostics := report number text e :: parsed.diagnostics }

/-- Reads a source text. -/
def parse (text : String) : Parsed :=
  parseFrom 0 (Text.lines text.toList)

/-- Whether a line was refused. -/
def Parsed.hasErrors (p : Parsed) : Bool :=
  !p.diagnostics.isEmpty

end Source

end Teal
