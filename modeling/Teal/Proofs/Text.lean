import Mathlib.Data.List.DropRight
import Teal.Text.Blank
import Teal.Text.Hex
/-!
# Text that reads back

What is written line by line is read line by line, and what is written as a numeral or in
hexadecimal is read as the value it was written for.
-/

namespace Teal.Text

/-! ## Trimmed text -/

/-- Text with no white space at its ends. -/
structure Trimmed (cs : List Char) : Prop where
  head : ∀ c, cs.head? = some c → isSpace c = false
  last : ∀ c, cs.getLast? = some c → isSpace c = false

theorem trimEnd_eq_self {cs : List Char} (h : ∀ c, cs.getLast? = some c → isSpace c = false) :
    trimEnd cs = cs := by
  refine List.rdropWhile_eq_self_iff.2 fun hne => ?_
  simp [h _ (List.getLast?_eq_some_getLast hne)]

theorem Trimmed.trim_eq {cs : List Char} (h : Trimmed cs) : trim cs = cs := by
  have hdrop : cs.dropWhile isSpace = cs := by
    cases cs with
    | nil => rfl
    | cons c cs => simp [h.head c rfl]
  rw [trim, hdrop, trimEnd_eq_self h.last]

theorem prefix_trimEnd (cs : List Char) : trimEnd cs <+: cs :=
  List.rdropWhile_prefix isSpace cs

theorem trim_sublist (cs : List Char) : (trim cs).Sublist cs :=
  (prefix_trimEnd _).sublist.trans (List.dropWhile_sublist _)

theorem trimEnd_last {cs : List Char} {c : Char} (hc : (trimEnd cs).getLast? = some c) :
    isSpace c = false := by
  have hne : trimEnd cs ≠ [] := by
    intro hnil
    simp [hnil] at hc
  have hlast : ¬isSpace ((trimEnd cs).getLast hne) = true := List.rdropWhile_last_not isSpace cs hne
  rw [List.getLast?_eq_some_getLast hne, Option.some.injEq] at hc
  rwa [← hc, ← Bool.not_eq_true]

theorem trimmed_trim (cs : List Char) : Trimmed (trim cs) where
  head c hc := by
    obtain ⟨rest, hrest⟩ := prefix_trimEnd (cs.dropWhile isSpace)
    have hhead := List.head?_dropWhile_not isSpace cs
    rw [← hrest, List.head?_append, ← trim, hc] at hhead
    simpa using hhead
  last _ hc := trimEnd_last hc

/-! ## Lines -/

theorem lines_cons {c : Char} {cs : List Char} (hc : c ≠ '\n')
    (hcr : c = '\r' → cs.head? ≠ some '\n') :
    lines (c :: cs) = match lines cs with
      | [] => [[c]]
      | l :: ls => (c :: l) :: ls := by
  refine lines.eq_4 c cs hc fun rest hrc hrest => hcr hrc ?_
  rw [hrest]
  rfl

theorem lines_append {l : List Char} (hnl : '\n' ∉ l) (hcr : l.getLast? ≠ some '\r')
    (rest : List Char) : lines (l ++ '\n' :: rest) = l :: lines rest := by
  induction l with
  | nil => simp [lines]
  | cons c l ih =>
    simp only [List.mem_cons, not_or] at hnl
    have hlast : l.getLast? ≠ some '\r' := by
      intro h
      refine hcr ?_
      rw [List.getLast?_cons, h]
      rfl
    have hnext : c = '\r' → (l ++ '\n' :: rest).head? ≠ some '\n' := by
      rintro rfl hhead
      cases l with
      | nil => exact hcr rfl
      | cons d l =>
        simp only [List.cons_append, List.head?_cons, Option.some.injEq] at hhead
        exact hnl.2 (by simp [hhead])
    rw [List.cons_append, lines_cons (Ne.symm hnl.1) hnext, ih hnl.2 hlast]

/-- Lines that are written one after the other, each with its newline, are read back. -/
theorem lines_flatMap {ls : List (List Char)}
    (h : ∀ l ∈ ls, '\n' ∉ l ∧ l.getLast? ≠ some '\r') :
    lines (ls.flatMap (· ++ ['\n'])) = ls := by
  induction ls with
  | nil => simp [lines]
  | cons l ls ih =>
    obtain ⟨hnl, hcr⟩ := h l List.mem_cons_self
    rw [List.flatMap_cons, List.append_assoc, List.singleton_append, lines_append hnl hcr,
      ih fun l' hl' => h l' (List.mem_cons_of_mem l hl')]

/-- A line holds characters of the text, and no newline. -/
theorem mem_of_mem_lines {cs l : List Char} (h : l ∈ lines cs) : ∀ c ∈ l, c ∈ cs ∧ c ≠ '\n' := by
  fun_induction lines cs generalizing l with
  | case1 => cases h
  | case2 cs ih =>
    intro c hc
    rcases List.mem_cons.1 h with rfl | h
    · cases hc
    · exact ⟨List.mem_cons_of_mem _ (ih h c hc).1, (ih h c hc).2⟩
  | case3 cs ih =>
    intro c hc
    rcases List.mem_cons.1 h with rfl | h
    · cases hc
    · have hmem := ih h c hc
      exact ⟨List.mem_cons_of_mem _ (List.mem_cons_of_mem _ hmem.1), hmem.2⟩
  | case4 c cs hnl _ hlines =>
    cases List.mem_singleton.1 h
    intro d hd
    cases List.mem_singleton.1 hd
    exact ⟨List.mem_cons_self, hnl⟩
  | case5 c cs hnl _ first rest hlines ih =>
    rw [hlines] at ih
    intro d hd
    rcases List.mem_cons.1 h with rfl | h
    · rcases List.mem_cons.1 hd with rfl | hd
      · exact ⟨List.mem_cons_self, hnl⟩
      · have hmem := ih List.mem_cons_self d hd
        exact ⟨List.mem_cons_of_mem c hmem.1, hmem.2⟩
    · have hmem := ih (List.mem_cons_of_mem first h) d hd
      exact ⟨List.mem_cons_of_mem c hmem.1, hmem.2⟩

/-! ## Words -/

theorem pieces_ne_nil (p : Char → Bool) (cs : List Char) : pieces p cs ≠ [] := by
  cases cs with
  | nil => simp [pieces]
  | cons c cs =>
    rw [pieces]
    split
    · simp
    · split <;> simp

theorem pieces_word {w : List Char} (h : ∀ c ∈ w, isSpace c = false) : pieces isSpace w = [w] := by
  induction w with
  | nil => rfl
  | cons c w ih =>
    rw [pieces, ih fun d hd => h d (List.mem_cons_of_mem c hd)]
    simp [h c List.mem_cons_self]

theorem pieces_append {c : Char} (hc : isSpace c = true) (cs rest : List Char) :
    pieces isSpace (cs ++ c :: rest) = pieces isSpace cs ++ pieces isSpace rest := by
  induction cs with
  | nil =>
    obtain ⟨w, ws, hrest⟩ := List.exists_cons_of_ne_nil (pieces_ne_nil isSpace rest)
    simp [pieces, hrest, hc]
  | cons d cs ih =>
    obtain ⟨w, ws, hcs⟩ := List.exists_cons_of_ne_nil (pieces_ne_nil isSpace cs)
    rw [List.cons_append, pieces, pieces, ih, hcs]
    cases hd : isSpace d <;> simp

theorem pieces_intercalate {w : List Char} {ws : List (List Char)}
    (h : ∀ u ∈ w :: ws, ∀ c ∈ u, isSpace c = false) :
    pieces isSpace ([' '].intercalate (w :: ws)) = w :: ws := by
  have hw := h w List.mem_cons_self
  induction ws generalizing w with
  | nil => rw [List.intercalate_singleton, pieces_word hw]
  | cons u us ih =>
    have hus : ∀ v ∈ u :: us, ∀ c ∈ v, isSpace c = false :=
      fun v hv => h v (List.mem_cons_of_mem w hv)
    rw [List.intercalate_cons_cons, List.append_assoc, List.singleton_append,
      pieces_append (by decide), pieces_word hw, List.singleton_append,
      ih hus (hus u List.mem_cons_self)]

/-- Words that are written with a blank between them are read back. -/
theorem words_intercalate {w : List Char} {ws : List (List Char)}
    (h : ∀ u ∈ w :: ws, u ≠ [] ∧ ∀ c ∈ u, isSpace c = false) :
    words ([' '].intercalate (w :: ws)) = w :: ws := by
  rw [words, pieces_intercalate fun u hu => (h u hu).2]
  exact List.filter_eq_self.2 fun u hu => by simpa using (h u hu).1

/-- White space parts the words before it from those behind it. -/
theorem words_append {c : Char} (hc : isSpace c = true) (cs rest : List Char) :
    words (cs ++ c :: rest) = words cs ++ words rest := by
  rw [words, pieces_append hc, List.filter_append, words, words]

/-! ## Numerals -/

namespace Numeral

theorem digit?_of_isDigit {c : Char} (h : c.isDigit = true) :
    digit? 10 c = some (c.toNat - '0'.toNat) := by
  simp only [Char.isDigit, Bool.and_eq_true, decide_eq_true_eq] at h
  have hvalue : digitValue? c = some (c.toNat - '0'.toNat) :=
    if_pos (by simpa [Char.le_def] using h)
  have hlt : c.toNat - '0'.toNat < 10 := by
    have hle : c.toNat ≤ '9'.toNat := h.2
    have hnine : '9'.toNat = '0'.toNat + 9 := rfl
    omega
  rw [digit?, hvalue, Option.filter_some]
  simp only [hlt, decide_true, if_true]

theorem digits?_of_isDigit {cs : List Char} (h : ∀ c ∈ cs, c.isDigit = true) (acc : Nat) :
    digits? 10 acc cs = some (Nat.ofDigitChars 10 cs acc) := by
  induction cs generalizing acc with
  | nil => rfl
  | cons c cs ih =>
    rw [digits?, digit?_of_isDigit (h c List.mem_cons_self), Nat.ofDigitChars_cons]
    exact ih (fun d hd => h d (List.mem_cons_of_mem c hd)) _

theorem isDigit_of_mem {n : Nat} {c : Char} (h : c ∈ Nat.toDigits 10 n) : c.isDigit = true :=
  Nat.isDigit_of_mem_toDigits (by decide) (by decide) h

theorem magnitude?_toDigits {n bound : Nat} (h : n < bound) :
    magnitude? 10 bound (Nat.toDigits 10 n) = some n := by
  have hne : (Nat.toDigits 10 n).isEmpty = false := by
    simp [List.isEmpty_eq_false_iff, Nat.toDigits_ne_nil]
  rw [magnitude?, hne, digits?_of_isDigit (fun c hc => isDigit_of_mem hc),
    Nat.ofDigitChars_ten_toDigits]
  simp [h]

/-- A numeral without a sign is read as its digits. -/
theorem read?_eq_magnitude? {base bound : Nat} {cs : List Char} (h : cs.head? ≠ some '+') :
    read? base bound cs = magnitude? base bound cs := by
  unfold read?
  split
  · exact absurd rfl h
  · rfl

theorem head?_toDigits_ne {n : Nat} {c : Char} (h : c.isDigit = false) :
    (Nat.toDigits 10 n).head? ≠ some c := by
  intro hc
  rw [isDigit_of_mem (List.mem_of_head? hc)] at h
  cases h

theorem read?_toDigits {n bound : Nat} (h : n < bound) :
    read? 10 bound (Nat.toDigits 10 n) = some n := by
  rw [read?_eq_magnitude? (head?_toDigits_ne (by decide)), magnitude?_toDigits h]

theorem byte?_toDigits (b : UInt8) : byte? (Nat.toDigits 10 b.toNat) = some b := by
  rw [byte?, read?_toDigits b.toNat_lt]
  simp

theorem word?_toDigits (n : UInt64) : word? (Nat.toDigits 10 n.toNat) = some n := by
  rw [word?, read?_toDigits n.toNat_lt]
  simp

theorem offset?_of_nonneg {cs : List Char} (h : cs.head? ≠ some '-') :
    offset? cs = (read? 10 128 cs).map Int8.ofNat := by
  unfold offset?
  split
  · exact absurd rfl h
  · rfl

theorem offset?_repr (o : Int8) : offset? o.toInt.repr.toList = some o := by
  have hlo := o.le_toInt
  have hhi := o.toInt_lt
  rw [Int.repr_eq_if]
  split
  · rw [Nat.toList_repr, offset?_of_nonneg (head?_toDigits_ne (by decide)),
      read?_toDigits (by omega), Option.map_some, ← Int8.ofInt_eq_ofNat, Int.toNat_of_nonneg ‹_›,
      Int8.ofInt_toInt]
  · -- One more negative number fits than positive ones, hence the bound.
    have hmag : magnitude? 10 129 (Nat.toDigits 10 (-o.toInt).toNat) = some (-o.toInt).toNat :=
      magnitude?_toDigits (by omega)
    have hneg : -((-o.toInt).toNat : Int) = o.toInt := by omega
    have hsign : "-".toList = ['-'] := rfl
    rw [String.toList_append, Nat.toList_repr, hsign, List.singleton_append, offset?, hmag]
    simp only [Option.bind_eq_bind, Option.bind_some, Option.pure_def, Option.map_some, hneg,
      Int8.ofInt_toInt]

end Numeral

/-! ## Hexadecimal -/

namespace Hex

theorem digit?_digitChar {n : Nat} (h : n < 16) : Numeral.digit? 16 (Nat.digitChar n) = some n := by
  revert n
  decide

theorem decode?_encode (bytes : List UInt8) : decode? (encode bytes) = some bytes := by
  induction bytes with
  | nil => rfl
  | cons b bytes ih =>
    have hhi := digit?_digitChar (n := b.toNat / 16) (by have := b.toNat_lt; omega)
    have hlo := digit?_digitChar (n := b.toNat % 16) (by omega)
    have hb : UInt8.ofNat (16 * (b.toNat / 16) + b.toNat % 16) = b := by
      rw [Nat.div_add_mod]
      simp
    rw [encode, List.flatMap_cons, encodeByte, List.cons_append, List.cons_append,
      List.nil_append, decode?, hhi, hlo, ← encode, ih]
    simp only [Option.bind_eq_bind, Option.bind_some, hb]

end Hex

end Teal.Text
