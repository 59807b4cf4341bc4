import Teal.Json.Token
/-!
# Reading JSON

`Json.parse?` reads a text that is one JSON value. The reader keeps the arrays and objects that are
still open and takes one token at a time, so it needs no bound on how deep values are nested.
-/

namespace Teal.Json

/-- An array or object whose end has not been read. Newest items and members come first. -/
inductive Pending where
  | array (items : List Json)
  | object (members : List (Option String × Json))
  /-- An object in which the value of a key is being read. -/
  | member (members : List (Option String × Json)) (key : Option String)

/-- What may come next. -/
inductive Expected where
  /-- A value. -/
  | value
  /-- The first item of an array, or its end. -/
  | item
  /-- The first key of an object, or its end. -/
  | firstKey
  /-- Another key. -/
  | key
  /-- The colon after a key. -/
  | colon
  /-- A comma, or the end of the innermost array or object. -/
  | more
  /-- Nothing: the value is complete. -/
  | done (value : Json)

/-- A partly read value. -/
structure Progress where
  pending : List Pending := []
  expected : Expected := .value

namespace Progress

/-- What is read once a value is complete. -/
def complete (v : Json) : List Pending → Option Progress
  | [] => some { expected := .done v }
  | .array items :: outer => some { pending := .array (v :: items) :: outer, expected := .more }
  | .member members key :: outer =>
    some { pending := .object ((key, v) :: members) :: outer, expected := .more }
  | .object _ :: _ => none

/-- Starts a value with its first token. -/
def begin (outer : List Pending) : Token → Option Progress
  | .scalar v => complete v outer
  | .openArray => some { pending := .array [] :: outer, expected := .item }
  | .openObject => some { pending := .object [] :: outer, expected := .firstKey }
  | _ => none

/-- Takes a token. -/
def take (p : Progress) (t : Token) : Option Progress :=
  match p.expected, t, p.pending with
  | .item, .closeArray, .array items :: outer => complete (.arr items) outer
  | .value, t, outer => begin outer t
  | .item, t, outer => begin outer t
  | .firstKey, .closeObject, .object members :: outer => complete (.obj members) outer
  | .firstKey, .scalar (.str key), .object members :: outer =>
    some { pending := .member members key :: outer, expected := .colon }
  | .key, .scalar (.str key), .object members :: outer =>
    some { pending := .member members key :: outer, expected := .colon }
  | .colon, .colon, outer => some { pending := outer, expected := .value }
  | .more, .comma, .array items :: outer =>
    some { pending := .array items :: outer, expected := .value }
  | .more, .comma, .object members :: outer =>
    some { pending := .object members :: outer, expected := .key }
  | .more, .closeArray, .array items :: outer => complete (.arr items.reverse) outer
  | .more, .closeObject, .object members :: outer => complete (.obj members.reverse) outer
  | _, _, _ => none

/-- Takes tokens until the value is complete. -/
def run (p : Progress) : List Token → Option Json
  | [] =>
    match p.expected with
    | .done v => some v
    | _ => none
  | t :: ts =>
    match p.take t with
    | some next => next.run ts
    | none => none

end Progress

/-- The value a text holds, if it is one JSON value with nothing but white space around it. -/
def parse? (text : String) : Option Json :=
  (tokens? text.toList).bind (Progress.run {})

end Teal.Json
