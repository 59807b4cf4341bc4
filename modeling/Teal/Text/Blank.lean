/-!
# Blanks, control characters, lines and words

A program is read line by line and a line word by word. Lines and words are cut here, on plain lists
of characters. Two notions of blank occur: `isSpace` is the Unicode property `White_Space`, used to
trim a line and to check names; `isBlank` is the five ASCII blanks, which alone separate the tokens
of an instruction.
-/

namespace Teal.Text

/-- White space in the sense of the Unicode property `White_Space`. -/
def isSpace (c : Char) : Bool :=
  let n := c.toNat
  (9 ≤ n && n ≤ 13) || n == 0x20 || n == 0x85 || n == 0xA0 || n == 0x1680 ||
    (0x2000 ≤ n && n ≤ 0x200A) || n == 0x2028 || n == 0x2029 || n == 0x202F || n == 0x205F ||
    n == 0x3000

/-- The ASCII blanks: space, tab, newline, form feed and carriage return. -/
def isBlank (c : Char) : Bool :=
  c == ' ' || c == '\t' || c == '\n' || c == '\x0c' || c == '\r'

/-- Control characters: the code points below the space and those from delete to U+009F. -/
def isControl (c : Char) : Bool :=
  c.toNat < 0x20 || (0x7F ≤ c.toNat && c.toNat ≤ 0x9F)

/-- The text without the white space it ends with. -/
def trimEnd (cs : List Char) : List Char :=
  (cs.reverse.dropWhile isSpace).reverse

/-- The text without the white space around it. -/
def trim (cs : List Char) : List Char :=
  trimEnd (cs.dropWhile isSpace)

/-- The lines of a text. A newline ends a line, alone or after a carriage return; what follows the
last newline is a line unless it is empty. -/
def lines : List Char → List (List Char)
  | [] => []
  | '\n' :: cs => [] :: lines cs
  | '\r' :: '\n' :: cs => [] :: lines cs
  | c :: cs =>
    match lines cs with
    | [] => [[c]]
    | l :: ls => (c :: l) :: ls

/-- The pieces of a text between the characters that satisfy `p`, empty ones included. -/
def pieces (p : Char → Bool) : List Char → List (List Char)
  | [] => [[]]
  | c :: cs =>
    match pieces p cs with
    | [] => [[c]]
    | w :: ws => if p c then [] :: w :: ws else (c :: w) :: ws

/-- The words of a text: its longest runs without white space. -/
def words (cs : List Char) : List (List Char) :=
  (pieces isSpace cs).filter (!·.isEmpty)

theorem isSpace_of_isBlank {c : Char} (h : isBlank c) : isSpace c := by
  simp only [isBlank, Bool.or_eq_true, beq_iff_eq] at h
  rcases h with (((rfl | rfl) | rfl) | rfl) | rfl <;> decide

end Teal.Text
