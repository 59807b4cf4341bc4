import Teal.Text.Blank
/-!
# Tokens of a line

A line is cut into tokens at ASCII blanks. A token that starts with a double quote runs to the next
quote that no backslash escapes, blanks included, and ends there even if no blank follows. Two
slashes where a token would start begin a comment, which is dropped with the rest of the line.
-/

namespace Teal.Source

/-- The text of a quoted token after its opening quote, closing quote included, and what follows it.
A backslash takes the next character with it. None if the quote is never closed. -/
def closeQuote? : List Char → Option (List Char × List Char)
  | [] => none
  | '\\' :: [] => none
  | '\\' :: c :: cs => (closeQuote? cs).map fun (t, rest) => ('\\' :: c :: t, rest)
  | '"' :: cs => some (['"'], cs)
  | c :: cs => (closeQuote? cs).map fun (t, rest) => (c :: t, rest)

/-- Nothing is lost or added when a quoted token is cut off. -/
theorem closeQuote?_append {cs t rest : List Char} (h : closeQuote? cs = some (t, rest)) :
    t ++ rest = cs := by
  fun_induction closeQuote? cs generalizing t rest with
  | case1 => simp at h
  | case2 => simp at h
  | case3 c cs ih =>
    obtain ⟨⟨t', rest'⟩, h', heq⟩ := Option.map_eq_some_iff.1 h
    obtain ⟨rfl, rfl⟩ := Prod.mk.inj heq
    simp [ih h']
  | case4 cs => simp at h; simp [← h.1, ← h.2]
  | case5 c cs _ _ _ ih =>
    obtain ⟨⟨t', rest'⟩, h', heq⟩ := Option.map_eq_some_iff.1 h
    obtain ⟨rfl, rfl⟩ := Prod.mk.inj heq
    simp [ih h']

theorem closeQuote?_length {cs t rest : List Char} (h : closeQuote? cs = some (t, rest)) :
    rest.length ≤ cs.length := by
  simp [← closeQuote?_append h]

/-- Whether a comment starts here. -/
def startsComment : List Char → Bool
  | '/' :: '/' :: _ => true
  | _ => false

/-- The tokens of a line. None if a quoted token is never closed. -/
def tokens? : List Char → Option (List (List Char))
  | [] => some []
  | c :: cs =>
    if Text.isBlank c then tokens? cs
    else if startsComment (c :: cs) then some []
    else if c = '"' then
      match h : closeQuote? cs with
      | none => none
      | some (t, rest) =>
        have := closeQuote?_length h
        (tokens? rest).map ((c :: t) :: ·)
    else
      have := (List.dropWhile_suffix (l := cs) (!Text.isBlank ·)).length_le
      (tokens? (cs.dropWhile (!Text.isBlank ·))).map
        ((c :: cs.takeWhile (!Text.isBlank ·)) :: ·)
termination_by cs => cs.length
decreasing_by
  · exact Nat.lt_succ_self _
  · exact Nat.lt_succ_of_le this
  · exact Nat.lt_succ_of_le this

end Teal.Source
