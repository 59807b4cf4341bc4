import Teal.Proofs.Source.Token
import Teal.Proofs.Text
import Teal.Source.Line
/-!
# Lines of words

An instruction is rendered as words with a blank between them. `lineOfChars_intercalate` says that
such a line is read by its words, whatever they are.
-/

namespace Teal.Source

open Text (isBlank isSpace Trimmed)

/-! ## Words -/

/-- A token without newline and without white space at its ends. -/
structure IsWord (t : List Char) : Prop where
  token : IsToken t
  newline : '\n' ∉ t
  trimmed : Trimmed t

theorem IsToken.ne_nil {t : List Char} (h : IsToken t) : t ≠ [] := by
  cases h <;> simp

theorem IsToken.startsComment {t : List Char} (h : IsToken t) : startsComment t = false := by
  cases h with
  | bare _ _ h => exact h
  | quoted => rfl

theorem IsToken.not_blank_head {t : List Char} (h : IsToken t) {c : Char}
    (hc : t.head? = some c) : isBlank c = false := by
  cases h with
  | bare hblank _ _ => exact hblank c (List.mem_of_head? hc)
  | quoted =>
    cases hc
    rfl

theorem isWord_of_token {t : List Char} (h : IsToken t) (hnl : '\n' ∉ t)
    (hspace : ∀ c ∈ t, isSpace c = true → isBlank c = true) : IsWord t := by
  refine ⟨h, hnl, ?_⟩
  cases h with
  | bare hblank _ _ =>
    -- Without blanks there is no white space at all.
    have hnot : ∀ c ∈ _, isSpace c = false := fun c hc => by
      cases hs : isSpace c with
      | false => rfl
      | true => cases (hblank c hc).symm.trans (hspace c hc hs)
    exact ⟨fun c hc => hnot c (List.mem_of_head? hc), fun c hc => hnot c (List.mem_of_getLast? hc)⟩
  | @quoted t hclose =>
    refine ⟨fun c hc => ?_, fun c hc => ?_⟩
    · cases hc
      rfl
    · rw [List.getLast?_cons, closeQuote?_getLast? hclose] at hc
      cases hc
      rfl

theorem isWord_of_spaceless {c : Char} {cs : List Char} (h : ∀ d ∈ c :: cs, isSpace d = false)
    (hquote : c ≠ '"') (hcomment : startsComment (c :: cs) = false) : IsWord (c :: cs) := by
  refine isWord_of_token (.bare (fun d hd => ?_) hquote hcomment) (fun hnl => ?_) fun d hd hs => ?_
  · cases hb : isBlank d with
    | false => rfl
    | true => cases (h d hd).symm.trans (Text.isSpace_of_isBlank hb)
  · cases h _ hnl
  · cases (h d hd).symm.trans hs

/-- Characters that words are made of without any care. -/
def isPlain (c : Char) : Bool :=
  !isSpace c && c != '"' && c != '/'

theorem isWord_of_plain {t : List Char} (hne : t ≠ []) (h : t.all isPlain = true) : IsWord t := by
  obtain ⟨c, cs, rfl⟩ := List.exists_cons_of_ne_nil hne
  have hplain : ∀ d ∈ c :: cs, isSpace d = false ∧ d ≠ '"' ∧ d ≠ '/' := by
    intro d hd
    have := List.all_eq_true.1 h d hd
    simpa [isPlain, and_assoc] using this
  obtain ⟨-, hquote, hslash⟩ := hplain c List.mem_cons_self
  exact isWord_of_spaceless (fun d hd => (hplain d hd).1) hquote (startsComment_of_ne hslash cs)

theorem isSpace_of_isPlain {c : Char} (h : isPlain c = true) : isSpace c = false := by
  simp only [isPlain, Bool.and_eq_true, Bool.not_eq_true'] at h
  exact h.1.1

theorem isPlain_of_isDigit {c : Char} (h : c.isDigit = true) : isPlain c = true := by
  simp only [Char.isDigit, Bool.and_eq_true, decide_eq_true_eq] at h
  have hlo : 48 ≤ c.toNat := h.1
  have hhi : c.toNat ≤ 57 := h.2
  have hspace : isSpace c = false := by
    simp only [isSpace, Bool.or_eq_false_iff, Bool.and_eq_false_iff, beq_eq_false_iff_ne,
      decide_eq_false_iff_not]
    omega
  have hquote : c ≠ '"' := by
    rintro rfl
    cases hlo.not_gt (by decide)
  have hslash : c ≠ '/' := by
    rintro rfl
    cases hlo.not_gt (by decide)
  simp [isPlain, hspace, hquote, hslash]

theorem isWord_repr (n : Nat) : IsWord n.repr.toList := by
  rw [Nat.toList_repr]
  exact isWord_of_plain Nat.toDigits_ne_nil
    (List.all_eq_true.2 fun c hc => isPlain_of_isDigit (Text.Numeral.isDigit_of_mem hc))

theorem isWord_hex (bytes : List UInt8) : IsWord ('0' :: 'x' :: Text.Hex.encode bytes) := by
  refine isWord_of_plain (List.cons_ne_nil _ _) (List.all_eq_true.2 fun c hc => ?_)
  have hdigit : ∀ n < 16, isPlain (Nat.digitChar n) = true := by decide
  simp only [List.mem_cons, Text.Hex.encode, List.mem_flatMap, Text.Hex.encodeByte,
    List.not_mem_nil, or_false] at hc
  rcases hc with rfl | rfl | ⟨b, -, rfl | rfl⟩
  · decide
  · decide
  · exact hdigit _ (by have := b.toNat_lt; omega)
  · exact hdigit _ (Nat.mod_lt _ (by decide))

/-! ## Lines of words -/

theorem newline_intercalate {ts : List (List Char)} (h : ∀ t ∈ ts, '\n' ∉ t) :
    '\n' ∉ [' '].intercalate ts := by
  induction ts with
  | nil => exact List.not_mem_nil
  | cons t ts ih =>
    have ht := h t List.mem_cons_self
    cases ts with
    | nil => simpa using ht
    | cons u us =>
      have hus := ih fun t' ht' => h t' (List.mem_cons_of_mem t ht')
      rw [List.intercalate_cons_cons]
      simp [ht, hus]

theorem intercalate_ne_nil {t : List Char} (h : t ≠ []) (ts : List (List Char)) :
    [' '].intercalate (t :: ts) ≠ [] := by
  cases ts with
  | nil => simpa using h
  | cons u us => simp [List.intercalate_cons_cons, h]

theorem trimmed_intercalate {ts : List (List Char)} (h : ∀ t ∈ ts, t ≠ [] ∧ Trimmed t) :
    Trimmed ([' '].intercalate ts) := by
  induction ts with
  | nil => exact ⟨nofun, nofun⟩
  | cons t ts ih =>
    obtain ⟨hne, ht⟩ := h t List.mem_cons_self
    cases ts with
    | nil => simpa using ht
    | cons u us =>
      have hrest := ih fun t' ht' => h t' (List.mem_cons_of_mem t ht')
      rw [List.intercalate_cons_cons, List.append_assoc]
      refine ⟨fun c hc => ?_, fun c hc => ?_⟩
      · rw [List.head?_append_of_ne_nil _ hne] at hc
        exact ht.head c hc
      · -- The last character is that of the rest, which is not empty.
        have hrest_ne := intercalate_ne_nil (h u (by simp)).1 us
        rw [List.getLast?_append_of_ne_nil _ (by simp),
          List.getLast?_append_of_ne_nil _ hrest_ne] at hc
        exact hrest.last c hc

theorem trimmed_words {ts : List (List Char)} (h : ∀ t ∈ ts, IsWord t) :
    Trimmed ([' '].intercalate ts) :=
  trimmed_intercalate fun t ht => ⟨(h t ht).token.ne_nil, (h t ht).trimmed⟩

/-- A word that a line does not start with unless its first part does. -/
theorem isPrefixOf_append {w t rest : List Char} (h : ∀ c ∈ w, rest.head? ≠ some c) :
    w.isPrefixOf (t ++ rest) = w.isPrefixOf t := by
  induction w generalizing t with
  | nil => simp
  | cons c w ih =>
    cases t with
    | cons d t =>
      simp only [List.cons_append, List.isPrefixOf_cons_cons]
      rw [ih fun e he => h e (List.mem_cons_of_mem c he)]
    | nil =>
      cases rest with
      | nil => rfl
      | cons d rest =>
        have hne : c ≠ d := fun hcd => h c List.mem_cons_self (congrArg some hcd.symm)
        simp [List.isPrefixOf_cons_cons, hne]

theorem isBlank_pragmaWord : ∀ c ∈ pragmaWord, isBlank c = false := by
  simp [pragmaWord, isBlank]

/-- What a line of words is read as. -/
theorem lineOfChars_intercalate {t : List Char} {ts : List (List Char)}
    (h : ∀ u ∈ t :: ts, IsWord u) (hpragma : pragmaWord.isPrefixOf t = false) :
    lineOfChars ([' '].intercalate (t :: ts)) = ofTokens (t :: ts) := by
  have ht := h t List.mem_cons_self
  have htrim := trimmed_words h
  obtain ⟨rest, hsplit, hbreak⟩ :
      ∃ rest, [' '].intercalate (t :: ts) = t ++ rest ∧ Breaks rest := by
    cases ts with
    | nil => exact ⟨[], by simp, nofun⟩
    | cons u us =>
      refine ⟨' ' :: [' '].intercalate (u :: us), ?_, fun c hc => ?_⟩
      · rw [List.intercalate_cons_cons, List.append_assoc, List.singleton_append]
      · cases hc
        rfl
  have hempty : ([' '].intercalate (t :: ts)).isEmpty = false := by
    simp [intercalate_ne_nil ht.token.ne_nil ts]
  have hcomment : startsComment ([' '].intercalate (t :: ts)) = false := by
    obtain ⟨c, cs, rfl⟩ := List.exists_cons_of_ne_nil ht.token.ne_nil
    rw [hsplit, startsComment_append c cs (hbreak.head?_ne rfl), ht.token.startsComment]
  have hpragma' : pragmaWord.isPrefixOf ([' '].intercalate (t :: ts)) = false := by
    rw [hsplit, isPrefixOf_append fun c hc => hbreak.head?_ne (isBlank_pragmaWord c hc), hpragma]
  rw [lineOfChars, htrim.trim_eq, hempty, hcomment, hpragma',
    tokens?_intercalate fun u hu => (h u hu).token]
  rfl

end Teal.Source
