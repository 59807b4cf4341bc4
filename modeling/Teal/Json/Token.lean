import Teal.Json
import Teal.Text.Numeral
/-!
# Tokens of a JSON text

Brackets, separators and scalars. White space between them is a space, tab, newline or carriage
return and nothing else.
-/

namespace Teal.Json

/-- A token of a JSON text. -/
inductive Token where
  | openArray
  | closeArray
  | openObject
  | closeObject
  | colon
  | comma
  | scalar (value : Json)

/-- A piece of a string: a character, or a 16-bit unit given by its number. -/
inductive Piece where
  | char (c : Char)
  | unit (n : Nat)

/-- The character that follows a backslash. -/
def shortEscape? : Char → Option Char
  | '"' => some '"'
  | '\\' => some '\\'
  | '/' => some '/'
  | 'b' => some '\x08'
  | 'f' => some '\x0c'
  | 'n' => some '\n'
  | 'r' => some '\r'
  | 't' => some '\t'
  | _ => none

/-- The pieces of a string after its opening quote, and what follows its closing quote. Control
characters have to be escaped. -/
def stringPieces? : List Char → Option (List Piece × List Char)
  | [] => none
  | '"' :: cs => some ([], cs)
  | '\\' :: 'u' :: a :: b :: c :: d :: cs =>
    match Text.Numeral.digits? 16 0 [a, b, c, d] with
    | some n => (stringPieces? cs).map fun (ps, rest) => (.unit n :: ps, rest)
    | none => none
  | '\\' :: e :: cs =>
    match shortEscape? e with
    | some c => (stringPieces? cs).map fun (ps, rest) => (.char c :: ps, rest)
    | none => none
  | '\\' :: [] => none
  | c :: cs =>
    if c.toNat < 0x20 then none
    else (stringPieces? cs).map fun (ps, rest) => (.char c :: ps, rest)

theorem stringPieces?_length {cs rest : List Char} {ps : List Piece}
    (h : stringPieces? cs = some (ps, rest)) : rest.length < cs.length := by
  fun_induction stringPieces? cs generalizing ps rest with
  | case1 => simp at h
  | case2 cs => simp at h; simp [h.2]
  | case4 => simp at h
  | case6 => simp at h
  | case7 => simp at h
  | case8 => simp at h
  | case3 | case5 | case9 =>
    rename_i ih
    obtain ⟨⟨ps', rest'⟩, h', heq⟩ := Option.map_eq_some_iff.1 h
    obtain ⟨rfl, rfl⟩ := Prod.mk.inj heq
    have := ih h'
    simp only [List.length_cons]
    omega

/-- The first unit of a surrogate pair. -/
def isHighUnit (n : Nat) : Bool :=
  0xD800 ≤ n && n < 0xDC00

/-- The second unit of a surrogate pair. -/
def isLowUnit (n : Nat) : Bool :=
  0xDC00 ≤ n && n < 0xE000

/-- The text that pieces make; none where a unit of a surrogate pair stands alone. -/
def joinPieces? : List Piece → Option (List Char)
  | [] => some []
  | .char c :: ps => (joinPieces? ps).map (c :: ·)
  | .unit hi :: .unit lo :: ps =>
    if isHighUnit hi && isLowUnit lo then
      (joinPieces? ps).map (Char.ofNat (0x10000 + (hi - 0xD800) * 0x400 + (lo - 0xDC00)) :: ·)
    else if isHighUnit hi || isLowUnit hi then none
    else (joinPieces? (.unit lo :: ps)).map (Char.ofNat hi :: ·)
  | .unit n :: ps =>
    if isHighUnit n || isLowUnit n then none else (joinPieces? ps).map (Char.ofNat n :: ·)

/-- Splits off the digits a text starts with. -/
def spanDigits (cs : List Char) : List Char × List Char :=
  (cs.takeWhile Char.isDigit, cs.dropWhile Char.isDigit)

/-- Splits off a fraction, if there is one; a point has to be followed by a digit. -/
def spanFraction? : List Char → Option (List Char × List Char)
  | '.' :: cs =>
    let (ds, rest) := spanDigits cs
    if ds.isEmpty then none else some ('.' :: ds, rest)
  | cs => some ([], cs)

/-- Splits off the sign of an exponent, if there is one. -/
def spanSign : List Char → List Char × List Char
  | '+' :: cs => (['+'], cs)
  | '-' :: cs => (['-'], cs)
  | cs => ([], cs)

/-- Splits off an exponent, if there is one. -/
def spanExponent? : List Char → Option (List Char × List Char)
  | [] => some ([], [])
  | c :: cs =>
    if c = 'e' ∨ c = 'E' then
      let (sign, afterSign) := spanSign cs
      let (ds, rest) := spanDigits afterSign
      if ds.isEmpty then none else some (c :: sign ++ ds, rest)
    else some ([], c :: cs)

/-- The digits before the point. A number that starts with zero has no other digit there. -/
def spanWhole : List Char → List Char × List Char
  | '0' :: cs => (['0'], cs)
  | cs => spanDigits cs

/-- The number with the given sign, digits, fraction and exponent. -/
def ofNumeral? (negative : Bool) (ds fraction exponent : List Char) : Option Json :=
  (Text.Numeral.digits? 10 0 ds).map fun n =>
    if fraction.isEmpty && exponent.isEmpty && !(negative && n == 0) then
      .int (if negative then -n else n)
    else
      .real (String.ofList ((if negative then ['-'] else []) ++ ds ++ fraction ++ exponent))

/-- Reads a number without its sign. -/
def number? (negative : Bool) (cs : List Char) : Option (Json × List Char) :=
  let (ds, afterDigits) := spanWhole cs
  if ds.isEmpty then none
  else
    match spanFraction? afterDigits with
    | none => none
    | some (fraction, afterFraction) =>
      match spanExponent? afterFraction with
      | none => none
      | some (exponent, rest) => (ofNumeral? negative ds fraction exponent).map (·, rest)

/-- The token a text starts with, and what follows it; white space is not a token. -/
def token? : List Char → Option (Token × List Char)
  | '[' :: cs => some (.openArray, cs)
  | ']' :: cs => some (.closeArray, cs)
  | '\x7b' :: cs => some (.openObject, cs)
  | '\x7d' :: cs => some (.closeObject, cs)
  | ':' :: cs => some (.colon, cs)
  | ',' :: cs => some (.comma, cs)
  | 'n' :: 'u' :: 'l' :: 'l' :: cs => some (.scalar .null, cs)
  | 't' :: 'r' :: 'u' :: 'e' :: cs => some (.scalar (.bool true), cs)
  | 'f' :: 'a' :: 'l' :: 's' :: 'e' :: cs => some (.scalar (.bool false), cs)
  | '"' :: cs =>
    (stringPieces? cs).map fun (ps, rest) =>
      (.scalar (.str ((joinPieces? ps).map String.ofList)), rest)
  | '-' :: cs => (number? true cs).map fun (v, rest) => (.scalar v, rest)
  | cs => (number? false cs).map fun (v, rest) => (.scalar v, rest)

/-- The white space of JSON. -/
def isGap (c : Char) : Bool :=
  c == ' ' || c == '\t' || c == '\n' || c == '\r'

theorem spanDigits_append (cs : List Char) : (spanDigits cs).1 ++ (spanDigits cs).2 = cs :=
  List.takeWhile_append_dropWhile

theorem spanWhole_append (cs : List Char) : (spanWhole cs).1 ++ (spanWhole cs).2 = cs := by
  unfold spanWhole
  split
  · rfl
  · exact spanDigits_append cs

theorem spanFraction?_append {cs ds rest : List Char} (h : spanFraction? cs = some (ds, rest)) :
    ds ++ rest = cs := by
  unfold spanFraction? at h
  split at h
  · rename_i cs
    simp only [Option.ite_none_left_eq_some, Option.some.injEq, Prod.mk.injEq] at h
    simpa [← h.2.1, ← h.2.2] using spanDigits_append cs
  · simp at h
    simp [← h.1, ← h.2]

theorem spanSign_append (cs : List Char) : (spanSign cs).1 ++ (spanSign cs).2 = cs := by
  unfold spanSign
  split <;> rfl

theorem spanExponent?_append {cs ds rest : List Char} (h : spanExponent? cs = some (ds, rest)) :
    ds ++ rest = cs := by
  unfold spanExponent? at h
  split at h
  · simp at h
    simp [h.1, h.2]
  · rename_i c cs
    split at h
    · simp only [Option.ite_none_left_eq_some, Option.some.injEq, Prod.mk.injEq] at h
      simp only [← h.2.1, ← h.2.2, List.cons_append, List.append_assoc, spanDigits_append,
        spanSign_append]
    · simp at h
      simp [← h.1, ← h.2]

theorem number?_length {negative : Bool} {cs rest : List Char} {v : Json}
    (h : number? negative cs = some (v, rest)) : rest.length < cs.length := by
  simp only [number?] at h
  split at h
  · simp at h
  · rename_i hds
    split at h
    · simp at h
    · rename_i fraction afterFraction hf
      split at h
      · simp at h
      · rename_i exponent rest' he
        obtain ⟨w, _, hw⟩ := Option.map_eq_some_iff.1 h
        have hrest : rest' = rest := (Prod.mk.inj hw).2
        rw [← spanWhole_append cs, ← spanFraction?_append hf, ← spanExponent?_append he, hrest]
        have : 0 < (spanWhole cs).1.length := List.length_pos_iff.2 (by simpa using hds)
        simp only [List.length_append]
        omega

/-- A token takes at least one character. -/
theorem token?_length {cs rest : List Char} {t : Token} (h : token? cs = some (t, rest)) :
    rest.length < cs.length := by
  unfold token? at h
  split at h
  case h_10 =>
    obtain ⟨⟨ps, r⟩, hp, heq⟩ := Option.map_eq_some_iff.1 h
    have := stringPieces?_length hp
    have hr : r = rest := (Prod.mk.inj heq).2
    simp only [List.length_cons, ← hr]
    omega
  case h_11 =>
    obtain ⟨⟨v, r⟩, hn, heq⟩ := Option.map_eq_some_iff.1 h
    have := number?_length hn
    have hr : r = rest := (Prod.mk.inj heq).2
    simp only [List.length_cons, ← hr]
    omega
  case h_12 =>
    obtain ⟨⟨v, r⟩, hn, heq⟩ := Option.map_eq_some_iff.1 h
    have := number?_length hn
    have hr : r = rest := (Prod.mk.inj heq).2
    simpa only [← hr] using this
  all_goals
    simp only [Option.some.injEq, Prod.mk.injEq] at h
    simp only [List.length_cons, ← h.2]
    omega

/-- The tokens of a text. -/
def tokens? : List Char → Option (List Token)
  | [] => some []
  | c :: cs =>
    if isGap c then tokens? cs
    else
      match h : token? (c :: cs) with
      | some (t, rest) =>
        have := token?_length h
        (tokens? rest).map (t :: ·)
      | none => none
termination_by cs => cs.length
decreasing_by
  · exact Nat.lt_succ_self _
  · exact this

end Teal.Json
