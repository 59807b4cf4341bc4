import Teal.Json
/-!
# Decoding JSON

A decoder makes a value of another type out of a JSON value, or refuses it. Only so many arrays and
objects may be nested around a value that is decoded; a decoder is told how many more it may open.
Members that a record does not have are passed over, whatever is in them.
-/

namespace Teal.Json

/-- How many arrays and objects may be nested. -/
def maxDepth : Nat := 127

/-- Reads a value, given how many more arrays and objects may be opened. -/
abbrev Decoder (α : Type) := Nat → Json → Option α

namespace Decoder

variable {α : Type}

/-- A string. -/
def string : Decoder String
  | _, .str s => s
  | _, _ => none

/-- A truth value. -/
def bool : Decoder Bool
  | _, .bool b => some b
  | _, _ => none

/-- An integer from `lo` to `hi`. -/
def int (lo hi : Int) : Decoder Int
  | _, .int n => if lo ≤ n ∧ n ≤ hi then some n else none
  | _, _ => none

/-- A natural number below `bound`. -/
def nat (bound : Nat) : Decoder Nat
  | _, .int (.ofNat n) => if n < bound then some n else none
  | _, _ => none

/-- A byte. -/
def byte : Decoder UInt8 := fun depth v =>
  (nat 256 depth v).map UInt8.ofNat

/-- A signed byte. -/
def offset : Decoder Int8 := fun depth v =>
  (int (-128) 127 depth v).map Int8.ofInt

/-- A value that may be null. -/
def nullable (d : Decoder α) : Decoder (Option α)
  | _, .null => some none
  | depth, v => (d depth v).map some

/-- The values of an array. -/
def list (d : Decoder α) : Decoder (List α)
  | depth + 1, .arr items => items.mapM (d depth)
  | _, _ => none

/-- Whether keys are all texts, with each of `names` at most once among them. -/
def distinctKeys (names : List String) (members : List (Option String × Json)) : Bool :=
  members.all (·.1.isSome) && names.all fun name => members.countP (·.1 == some name) ≤ 1

/-- The values of a record in the order of its names, none for those that are missing. A record is
an object, or an array of its values in order; `short` tells whether that array may leave out the
last ones. -/
def members (names : List String) (short : Bool) : Json → Option (List (Option Json))
  | .obj members =>
    if distinctKeys names members then some (names.map fun name => members.lookup (some name))
    else none
  | .arr items =>
    if items.length = names.length ∨ (short ∧ items.length < names.length) then
      some (items.map some ++ List.replicate (names.length - items.length) none)
    else none
  | _ => none

/-- A record, whose values are decoded one level further in. -/
def record (names : List String) (short : Bool) (d : Nat → List (Option Json) → Option α) :
    Decoder α
  | depth + 1, v => (members names short v).bind (d depth)
  | 0, _ => none

/-- A named alternative: its name alone, or an object whose only key is the name. The content of
such an object is decoded one level further in. -/
def variant (d : String → Nat → Option Json → Option α) : Decoder α
  | depth, .str (some name) => d name depth none
  | depth + 1, .obj [(some name, content)] => d name depth (some content)
  | _, _ => none

/-- One of several alternatives without content. -/
def choice (table : List (String × α)) : Decoder α :=
  variant fun name _ content =>
    match content with
    | none | some .null => table.lookup name
    | _ => none

/-- A value that has to be there. -/
def required (d : Decoder α) (depth : Nat) (v : Option Json) : Option α :=
  v.bind (d depth)

/-- A value that is replaced by a default where it is missing. -/
def withDefault (d : Decoder α) (default : α) (depth : Nat) (v : Option Json) : Option α :=
  match v with
  | some v => d depth v
  | none => some default

/-- Decodes a whole text value. -/
def run (d : Decoder α) (v : Json) : Option α :=
  d maxDepth v

end Decoder

end Teal.Json
