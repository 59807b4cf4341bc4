/-!
# Positions in a text

Columns are counted in the bytes of the UTF-8 form. `find?` gives the column at which a word first
occurs.
-/

namespace Teal.Text

/-- The column of the first occurrence of `needle`; the empty word occurs at once. -/
def find? (needle : List Char) : List Char → Option Nat
  | [] => if needle.isEmpty then some 0 else none
  | c :: cs =>
    if needle.isPrefixOf (c :: cs) then some 0
    else (find? needle cs).map (c.utf8Size + ·)

end Teal.Text
