import Teal.Text.Quoted
/-!
# Errors in source text

Why a line of source is refused.
-/

namespace Teal

/-- Why a line of source is refused. -/
inductive SourceError where
  /-- An instruction has the wrong number of operands. -/
  | arity (op : String) (expected found : Nat)
  /-- An operand is not a number in range. -/
  | badInteger (text : String)
  /-- An operand is not a byte constant. -/
  | badBytes (text : String)
  /-- A label has a name no label may have. -/
  | badLabel (name : String)
  /-- A pragma is not `#pragma version` and a version. -/
  | badPragma (text : String)
  /-- A quoted operand has no closing quote. -/
  | unterminatedString
deriving DecidableEq, Repr

/-- The wording of a source error. -/
def SourceError.message : SourceError → String
  | .arity op expected found => s!"{op} expects {expected} immediate(s), found {found}"
  | .badInteger text => s!"Invalid integer: {text}"
  | .badBytes text => s!"Invalid byte constant: {text}"
  | .badLabel name => "Invalid label: " ++ Text.Quoted.quote name
  | .badPragma text => s!"Invalid pragma: {text}"
  | .unterminatedString => "Unterminated string literal"

end Teal
