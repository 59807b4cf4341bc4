import Teal.Config
import Teal.Expr.Json
import Teal.Files
/-!
# Loading

Programs and configurations as they come in: texts of files that may be missing or malformed.
-/

namespace Teal

/-- Why a program or a configuration cannot be loaded. -/
inductive LoadError where
  /-- The text is not JSON, or not JSON of the right shape. -/
  | malformed
  /-- The program has no listing. -/
  | compile (error : CompileError)
  /-- The file cannot be read. -/
  | file (error : FileError)
deriving DecidableEq, Repr

/-- The wording of a load error. -/
def LoadError.message : LoadError → String
  | .malformed => "JSON Parse Error: malformed document"
  | .compile error => "Compile Error: " ++ error.message
  | .file error => "IO Error: " ++ error.message

/-- The program a JSON text holds. -/
def Expr.load (text : String) : Except LoadError (List Expr) :=
  match Expr.ofText? text with
  | some exprs => .ok exprs
  | none => .error .malformed

/-- The listing of the program a JSON text holds. -/
def Listing.load (text : String) : Except LoadError Listing := do
  let exprs ← Expr.load text
  (Listing.ofExprs exprs).mapError .compile

/-- The configuration a JSON text holds. -/
def Config.load (text : String) : Except LoadError Config :=
  match Config.ofText? text with
  | some config => .ok config
  | none => .error .malformed

/-- The configuration in a file. -/
def Config.loadFile (files : Files) (path : String) : Except LoadError Config :=
  match files path with
  | .ok text => Config.load text
  | .error e => .error (.file e)

end Teal
