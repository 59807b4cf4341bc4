import Teal.CommandLine
/-!
# Entry point

Reads the files that the arguments name, lets `CommandLine.run` do the work, and writes what it
says.
-/

namespace Teal.Main

/-- The error that the system reports by a number, which is negated in some reports. -/
def fileError (e : IO.Error) : FileError :=
  match e with
  | .noFileOrDirectory .. => .notFound
  | .inappropriateType _ code _ =>
    if code = 21 ∨ 0 - code = 21 then .isDirectory else .notDirectory
  | .invalidArgument _ code _ =>
    if code = 36 ∨ 0 - code = 36 then .nameTooLong else .other (toString e)
  | e => .other (toString e)

/-- Reads a file as text. -/
def readFile (path : String) : IO (Except FileError String) := do
  try
    return textOfBytes (← IO.FS.readBinFile path)
  catch e =>
    return .error (fileError e)

/-- The files that arguments name. -/
def paths (args : List String) : List String :=
  match CommandLine.parse args with
  | .ok o => o.input :: o.config.toList
  | .error _ => []

end Teal.Main

/-- Runs the tool. -/
def main (args : List String) : IO UInt32 := do
  let texts ← (Teal.Main.paths args).mapM fun path => return (path, ← Teal.Main.readFile path)
  let files : Teal.Files := fun path => (texts.lookup path).getD (.error .notFound)
  let output := Teal.CommandLine.run files args
  IO.print output.stdout
  IO.eprint output.stderr
  return output.exitCode.toUInt32
