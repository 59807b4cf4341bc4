/-!
# JSON values
-/

namespace Teal

/-- A JSON value. A string or key is `none` when it holds half of a surrogate pair without the other
half, so that it is no text. -/
inductive Json where
  | null
  | bool (b : Bool)
  /-- A number written without fraction or exponent; minus zero is not one. -/
  | int (n : Int)
  /-- Any other number, as it is written. -/
  | real (text : String)
  | str (text : Option String)
  | arr (items : List Json)
  /-- Members in the order in which they are written. -/
  | obj (members : List (Option String × Json))

namespace Json

/-- A string. -/
def text (s : String) : Json :=
  .str (some s)

/-- A natural number. -/
def nat (n : Nat) : Json :=
  .int n

/-- An object. -/
def object (members : List (String × Json)) : Json :=
  .obj (members.map fun (key, value) => (some key, value))

end Json

end Teal
