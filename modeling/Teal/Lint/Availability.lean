import Teal.Lint.Rule
/-!
# Rules on opcodes

Pragmas out of place, and opcodes that do not exist, or not in the version or the kind of program.
-/

namespace Teal.Lint

/-- The pragmas after a line with an effect. `seen` tells whether the lines, numbered from `line`,
follow such a line. -/
def latePragmasFrom (seen : Bool) (line : Nat) : List (Op LabelId) → List Nat
  | [] => []
  | op :: rest =>
    let later := latePragmasFrom (seen || !op.isNop) (line + 1) rest
    match op with
    | .pragma _ => if seen then line :: later else later
    | _ => later

/-- A pragma comes after a line with an effect. -/
def pragmaPlacement : Rule where
  name := "pragma-placement"
  check c := some <| (latePragmasFrom false 0 c.listing.ops).map fun line =>
    ({ line, severity := .error, rule := "pragma-placement"
       message := "#pragma version must precede every instruction" } :
      Diagnostic).spanning (c.listing.renderLine line)

/-- The lines whose opcode is not in the catalog, with that opcode. -/
def unknownOpcodes (catalog : Catalog) (l : Listing) : List (Nat × String) :=
  l.ops.zipIdx.filterMap fun (op, line) =>
    match op with
    | .instr name _ => if catalog.contains name then none else some (line, name)
    | _ => none

/-- An opcode is not in the catalog. -/
def unknownOpcode : Rule where
  name := "unknown-opcode"
  check c := some <| (unknownOpcodes c.catalog c.listing).map fun (line, name) =>
    ({ line, severity := .error, rule := "unknown-opcode"
       message := s!"unknown opcode {name}" } :
      Diagnostic).spanningWord (c.listing.renderLine line) name

/-- The instructions of a listing that are in the catalog, with their lines and entries. -/
def catalogued (catalog : Catalog) (l : Listing) : List (Nat × OpSpec) :=
  l.ops.zipIdx.filterMap fun (op, line) =>
    (op.mnemonic?.bind catalog.find?).map fun spec => (line, spec)

/-- An opcode does not exist in the version of the program. -/
def versionAvailability : Rule where
  name := "version-availability"
  check c :=
    let version := c.listing.version?.getD Catalog.defaultVersion
    let late := (catalogued c.catalog c.listing).filter fun (_, spec) =>
      !(spec.minVersion ≤ version)
    some <| late.map fun (line, spec) =>
      ({ line, severity := .error, rule := "version-availability"
         message := s!"{spec.name} requires version {spec.minVersion}, " ++
           s!"program is version {version}" } :
        Diagnostic).spanningWord (c.listing.renderLine line) spec.name

/-- An opcode may not stand in the kind of program. -/
def modeAvailability : Rule where
  name := "mode-availability"
  check c :=
    match c.config.mode with
    | none => some []
    | some mode =>
      some <| ((catalogued c.catalog c.listing).filter fun (_, spec) => !spec.mode.allows mode).map
        fun (line, spec) =>
          ({ line, severity := .error, rule := "mode-availability"
             message := s!"{spec.name} is not allowed in {mode.render} mode" } :
            Diagnostic).spanningWord (c.listing.renderLine line) spec.name

end Teal.Lint
