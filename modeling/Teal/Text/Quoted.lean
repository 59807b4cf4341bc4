import Teal.Text.Shown
/-!
# Quoted text

Text shown inside a message: in double quotes, with a backslash before what could be misread.
-/

namespace Teal.Text.Quoted

/-- One character of a quoted text. The common escapes have a letter; a character without a shape
of its own is given by its code point in hexadecimal. -/
def escape (c : Char) : List Char :=
  match c with
  | '"' => ['\\', '"']
  | '\\' => ['\\', '\\']
  | '\x00' => ['\\', '0']
  | '\t' => ['\\', 't']
  | '\n' => ['\\', 'n']
  | '\r' => ['\\', 'r']
  | c => if isShown c then [c] else ['\\', 'u', '\x7b'] ++ Nat.toDigits 16 c.toNat ++ ['\x7d']

/-- The text in double quotes. -/
def quote (s : String) : String :=
  String.ofList ('"' :: s.toList.flatMap escape ++ ['"'])

end Teal.Text.Quoted
