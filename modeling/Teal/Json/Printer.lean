import Teal.Json
import Teal.Text.Hex
/-!
# Writing JSON

`Json.compact` writes a value without white space, `Json.pretty` with one item a line and two spaces
of indentation a level.
-/

namespace Teal.Json

/-- One character of a string. Quotes, backslashes and control characters are escaped. -/
def escape (c : Char) : List Char :=
  match c with
  | '"' => ['\\', '"']
  | '\\' => ['\\', '\\']
  | '\x08' => ['\\', 'b']
  | '\x0c' => ['\\', 'f']
  | '\n' => ['\\', 'n']
  | '\r' => ['\\', 'r']
  | '\t' => ['\\', 't']
  | c =>
    if c.toNat < 0x20 then ['\\', 'u', '0', '0'] ++ Text.Hex.encodeByte (UInt8.ofNat c.toNat)
    else [c]

/-- A string in quotes; what is no text is written as the empty string. -/
def quote (s : Option String) : String :=
  String.ofList ('"' :: (s.getD "").toList.flatMap escape ++ ['"'])

/-- A value that has no parts, or no parts at all to lay out. -/
def scalar : Json → String
  | .null => "null"
  | .bool b => if b then "true" else "false"
  | .int n => toString n
  | .real text => text
  | .str s => quote s
  | .arr _ => "[]"
  | .obj _ => "\x7b\x7d"

/-- A newline and the indentation of a level. -/
def indent (level : Nat) : String :=
  "\n" ++ String.ofList (List.replicate (2 * level) ' ')

mutual

/-- The value as text without white space. -/
def compact : Json → String
  | .arr items => "[" ++ ",".intercalate (compactItems items) ++ "]"
  | .obj members => "\x7b" ++ ",".intercalate (compactMembers members) ++ "\x7d"
  | v => v.scalar

/-- The items of an array, each as text. -/
def compactItems : List Json → List String
  | [] => []
  | v :: vs => compact v :: compactItems vs

/-- The members of an object, each as text. -/
def compactMembers : List (Option String × Json) → List String
  | [] => []
  | (key, v) :: ms => (quote key ++ ":" ++ compact v) :: compactMembers ms

end

mutual

/-- The value as text that starts at a level of indentation. -/
def prettyAt (level : Nat) : Json → String
  | .arr (v :: vs) =>
    "[" ++ ",".intercalate (prettyItems (level + 1) (v :: vs)) ++ indent level ++ "]"
  | .obj (m :: ms) =>
    "\x7b" ++ ",".intercalate (prettyMembers (level + 1) (m :: ms)) ++ indent level ++ "\x7d"
  | v => v.scalar

/-- The items of an array, each on a line of its own. -/
def prettyItems (level : Nat) : List Json → List String
  | [] => []
  | v :: vs => (indent level ++ prettyAt level v) :: prettyItems level vs

/-- The members of an object, each on a line of its own. -/
def prettyMembers (level : Nat) : List (Option String × Json) → List String
  | [] => []
  | (key, v) :: ms =>
    (indent level ++ quote key ++ ": " ++ prettyAt level v) :: prettyMembers level ms

end

/-- The value as indented text. -/
def pretty (v : Json) : String :=
  v.prettyAt 0

end Teal.Json
