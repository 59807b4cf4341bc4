import Teal.Catalog.Standard
import Teal.Json.Printer
import Teal.Lint
import Teal.Load
import Teal.Machine.Run
import Teal.Machine.View
import Teal.Optimizer
import Teal.Sarif
import Teal.Source.Program
/-!
# The command line

`CommandLine.run` is the whole tool as a function from its arguments and the files it may read to
what it writes and its exit code: it reads a program, prints the listing, and on request optimizes,
lints and runs it.
-/

namespace Teal.CommandLine

/-- What the arguments ask for. -/
structure Options where
  /-- The file that holds the program. -/
  input : String := ""
  optimize : Bool := false
  lint : Bool := false
  sarif : Bool := false
  run : Bool := false
  /-- The file that holds the configuration. -/
  config : Option String := none
deriving DecidableEq, Repr

/-- Why arguments are refused. -/
inductive UsageError where
  | configNeedsPath
  | unknownFlag (flag : String)
  | unexpectedArgument (argument : String)
  | noInput
deriving DecidableEq, Repr

/-- How the tool is called. -/
def usage : String :=
  "Usage: tealc <program.teal|program.json> [--optimize] [--lint] [--sarif] [--run] " ++
    "[--config cfg.json]"

/-- The wording of a usage error. -/
def UsageError.message : UsageError → String
  | .configNeedsPath => "--config needs a path"
  | .unknownFlag flag => s!"Unknown flag {flag}"
  | .unexpectedArgument argument => s!"Unexpected argument {argument}"
  | .noInput => usage

/-- Reads arguments on top of those already read. -/
def Options.read (o : Options) : List String → Except UsageError Options
  | [] => if o.input.isEmpty then .error .noInput else .ok o
  | "--optimize" :: rest => { o with optimize := true }.read rest
  | "--lint" :: rest => { o with lint := true }.read rest
  | "--sarif" :: rest => { o with lint := true, sarif := true }.read rest
  | "--run" :: rest => { o with run := true }.read rest
  | ["--config"] => .error .configNeedsPath
  | "--config" :: path :: rest => { o with config := some path }.read rest
  | argument :: rest =>
    if ['-', '-'].isPrefixOf argument.toList then .error (.unknownFlag argument)
    else if o.input.isEmpty then { o with input := argument }.read rest
    else .error (.unexpectedArgument argument)

/-- The options that arguments give. -/
def parse (args : List String) : Except UsageError Options :=
  Options.read {} args

/-- Whether a path names a JSON file: the last part of the path has `json` after its last point,
which is not its first character. -/
def isJsonPath (path : String) : Bool :=
  let parts := (pathParts path).filter fun part => part ≠ [] ∧ part ≠ ['.']
  match parts.getLast? with
  | some name => name.length > 5 && ['.', 'j', 's', 'o', 'n'].isSuffixOf name
  | none => false

/-- What the tool writes and how it ends. -/
structure Output where
  exitCode : UInt8 := 0
  stdout : String := ""
  stderr : String := ""
deriving DecidableEq, Repr

/-- Lines of text, each ended by a newline. -/
def unlines (lines : List String) : String :=
  String.join (lines.map (· ++ "\n"))

/-- The configuration that options ask for. -/
def loadConfig (files : Files) (o : Options) : Except LoadError Config :=
  match o.config with
  | some path => Config.loadFile files path
  | none => .ok {}

/-- The program in the input file, with the remarks on lines that were refused; or why there is
none, in words. -/
def readProgram (files : Files) (path : String) : Except String (List Expr × List Diagnostic) :=
  match files path with
  | .error e => .error s!"Failed to read {path}: {e.message}"
  | .ok text =>
    if isJsonPath path then
      match Expr.load text with
      | .ok exprs => .ok (exprs, [])
      | .error e => .error e.message
    else
      let parsed := Source.parse text
      .ok (parsed.ops.map .line, parsed.diagnostics)

/-- How a stopped branch ended, in words. -/
def describe : Option Halt → String
  | none => "running"
  | some .exhausted => "budget exhausted"
  | some (.faulted fault) => "faulted: " ++ fault.message
  | some (.terminated (some true)) => "approved"
  | some (.terminated (some false)) => "rejected"
  | some (.terminated none) => "finished"

/-- The lines that tell how a run of a listing went. -/
def runReport (l : Listing) (config : Machine.Config) : List String :=
  let (m, _) := (Machine.start l .standard config).run
  let branches := m.retired.map fun b =>
    let name := (m.nameOf? b).getD "main"
    s!"branch #{b.id} ({name}): {describe b.halt}, {b.trace.length} ops, budget left {b.budget}"
  let slots := m.inspectScratch.map fun (slot, text) => s!"scratch[{slot}] = {text}"
  branches ++ slots

/-- Remarks on a file, one a line. -/
def remarks (path : String) (ds : List Diagnostic) : String :=
  unlines (ds.map fun d => s!"{path}: {d.render}")

/-- Prints the listing of a program, and lints and runs it if the options say so. -/
def report (o : Options) (config : Config) (l : Listing) (refused : List Diagnostic) : Output :=
  let l := if o.optimize || config.optimize then l.optimize else l
  let found := if o.lint then l.lint .standard config.lint else []
  let log := if o.sarif then (Sarif.log found o.input).pretty ++ "\n" else ""
  let ran := if o.run then unlines (runReport l config.machine) else ""
  { exitCode := if !refused.isEmpty || found.any (·.isError) then 1 else 0
    stdout := l.render ++ log ++ ran
    stderr := remarks o.input refused ++ if o.sarif then "" else remarks o.input found }

/-- The tool: what it does with its arguments and the files it may read. -/
def run (files : Files) (args : List String) : Output :=
  match parse args with
  | .error e => { exitCode := 2, stderr := e.message ++ "\n" }
  | .ok o =>
    match loadConfig files o with
    | .error e => { exitCode := 2, stderr := "Config Error: " ++ e.message ++ "\n" }
    | .ok config =>
      match readProgram files o.input with
      | .error message => { exitCode := 1, stderr := message ++ "\n" }
      | .ok (exprs, refused) =>
        match Listing.ofExprs exprs with
        | .error e =>
          { exitCode := 1
            stderr := remarks o.input refused ++ "Compile Error: " ++ e.message ++ "\n" }
        | .ok l => report o config l refused

end Teal.CommandLine
