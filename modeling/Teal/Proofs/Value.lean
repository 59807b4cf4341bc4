import Teal.Proofs.Text
import Teal.Value
/-!
# Values that read back

A value is shown as a word, as a decimal numeral, or, if it is a byte string, in quotes or in
hexadecimal. Nothing is escaped between the quotes, and nothing has to be: they are the first and
the last character, whatever stands between them. `ofText?` tells the forms apart by how they start,
and reads every value back (`ofText?_render`), so no two values are shown alike.
-/

namespace Teal.Value

/-- The value that a text shows. -/
def ofText? : List Char → Option Value
  | '"' :: cs => some (.bytes (String.ofList cs.dropLast).toByteArray.data.toList)
  | '0' :: 'x' :: ds => (Text.Hex.decode? ds).map .bytes
  | cs =>
    if cs = "none".toList then some .absent
    else if cs = "any".toList then some .unknown
    else (Text.Numeral.word? cs).map .uint

/-- What bytes decode to has these bytes as its UTF-8 form. -/
theorem toByteArray_of_fromUTF8? {bytes : ByteArray} {text : String}
    (h : String.fromUTF8? bytes = some text) : text.toByteArray = bytes := by
  unfold String.fromUTF8? at h
  split at h
  · cases h
    rfl
  · cases h

/-- A byte string in quotes is the UTF-8 form of what stands between them. -/
theorem quoted?_eq_some {b : List UInt8} {shown : String} (h : quoted? b = some shown) :
    ∃ text : String, shown = "\"" ++ text ++ "\"" ∧ text.toByteArray.data.toList = b := by
  unfold quoted? at h
  split at h
  · rename_i text htext
    split at h
    · cases h
      refine ⟨text, rfl, ?_⟩
      rw [toByteArray_of_fromUTF8? htext, List.data_toByteArray, List.toList_toArray]
    · cases h
  · cases h

theorem ofText?_quoted (text : String) :
    ofText? ("\"" ++ text ++ "\"").toList = some (.bytes text.toByteArray.data.toList) := by
  have htext : ("\"" ++ text ++ "\"").toList = '"' :: (text.toList ++ ['"']) := by simp
  rw [htext, ofText?, List.dropLast_concat, String.ofList_toList]

theorem ofText?_hex (b : List UInt8) :
    ofText? ("0x" ++ String.ofList (Text.Hex.encode b)).toList = some (.bytes b) := by
  have htext : ("0x" ++ String.ofList (Text.Hex.encode b)).toList =
      '0' :: 'x' :: Text.Hex.encode b := by
    simp
  rw [htext, ofText?, Text.Hex.decode?_encode, Option.map_some]

/-- A numeral starts like none of the other forms. -/
theorem ofText?_digits {cs : List Char} (h : ∀ c ∈ cs, c.isDigit = true) :
    ofText? cs = (Text.Numeral.word? cs).map .uint := by
  unfold ofText?
  split
  · cases h '"' List.mem_cons_self
  · cases h 'x' (by simp)
  · rw [if_neg, if_neg]
    · rintro rfl
      cases h 'a' (by decide)
    · rintro rfl
      cases h 'n' (by decide)

theorem ofText?_render (v : Value) : ofText? v.render.toList = some v := by
  cases v with
  | absent => decide
  | unknown => decide
  | uint n =>
    have htext : (render (.uint n)).toList = Nat.toDigits 10 n.toNat := Nat.toList_repr
    rw [htext, ofText?_digits fun c hc => Text.Numeral.isDigit_of_mem hc,
      Text.Numeral.word?_toDigits, Option.map_some]
  | bytes b =>
    cases hquoted : quoted? b with
    | some shown =>
      obtain ⟨text, rfl, rfl⟩ := quoted?_eq_some hquoted
      rw [render, hquoted, Option.getD_some, ofText?_quoted]
    | none => rw [render, hquoted, Option.getD_none, ofText?_hex]

/-- No two values are shown alike. -/
theorem render_injective : Function.Injective render := by
  intro v w h
  have hread : some v = some w := by rw [← ofText?_render v, h, ofText?_render w]
  exact Option.some.inj hread

end Teal.Value
