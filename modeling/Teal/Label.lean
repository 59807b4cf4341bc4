/-!
# Label table

Every label of a listing has a number, given in the order in which names are first mentioned. The
table holds each name once, so the name and the number determine each other.
-/

namespace Teal

/-- The number of a label in its table. Numbers are not bounded here: fewer than `2 ^ 32` labels are
assumed. -/
abbrev LabelId := Nat

/-- The names of all labels; the number of a label is the place of its name. -/
structure LabelTable where
  names : List String := []
  nodup : names.Nodup := by simp
deriving DecidableEq

namespace LabelTable

/-- The table without labels. -/
def empty : LabelTable := {}

/-- The number of a name, if it was mentioned. -/
def lookup? (t : LabelTable) (name : String) : Option LabelId :=
  t.names.idxOf? name

/-- The name with a given number. -/
def name (t : LabelTable) (id : LabelId) : String :=
  t.names[id]?.getD "<invalid label>"

/-- The number of labels. -/
def size (t : LabelTable) : Nat :=
  t.names.length

/-- The table once `name` has been mentioned. -/
def insert (t : LabelTable) (name : String) : LabelTable :=
  if h : name ∈ t.names then t
  else
    { names := t.names ++ [name]
      nodup := List.nodup_append.2 ⟨t.nodup, by simp, by
        intro a ha b hb
        have : b = name := by simpa using hb
        exact fun hab => h (this ▸ hab ▸ ha)⟩ }

/-- The number `name` has, or gets when it is mentioned now. -/
def idOf (t : LabelTable) (name : String) : LabelId :=
  t.names.idxOf name

/-- The table of the names mentioned in a list. -/
def ofList (names : List String) : LabelTable :=
  names.foldl insert empty

end LabelTable

end Teal
