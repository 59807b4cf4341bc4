import Teal.Proofs.Source.Word
/-!
# Tokens by byte offsets

`tokens?` goes through a line character by character. The same tokens are found by a scan that sees
only the bytes of the line, goes from one offset to another and cuts the tokens out between offsets.
In quotes it goes two bytes on after a backslash, which may lead into the middle of a character or
past the end of the text. `scan` is this scan with every cut checked: a cut that is not between
characters of the text is a fault of its own.

No check ever fails, `scan_eq`. What the scan compares bytes with is ASCII, and no byte of a
longer character is, so from the middle of a character it goes on to its end, `closeAt?_skip`.
-/

namespace Teal.Source

open Text (isBlank)

/-! ## Bytes of characters -/

/-- The bytes of a text in UTF-8. -/
def octets (cs : List Char) : List UInt8 :=
  cs.flatMap String.utf8EncodeChar

theorem octets_cons (c : Char) (cs : List Char) :
    octets (c :: cs) = String.utf8EncodeChar c ++ octets cs := List.flatMap_cons

theorem octets_append (cs ds : List Char) : octets (cs ++ ds) = octets cs ++ octets ds :=
  List.flatMap_append

theorem octets_ofList (cs : List Char) :
    (String.ofList cs).toByteArray.data.toList = octets cs := by
  simp [octets, List.utf8Encode]

theorem length_octets (cs : List Char) : (octets cs).length = (String.ofList cs).utf8ByteSize := by
  rw [← octets_ofList]
  rfl

/-- An ASCII character is one byte, and no byte of any other character is ASCII. -/
theorem utf8EncodeChar_cases (c : Char) :
    (c.toNat < 128 ∧ String.utf8EncodeChar c = [c.toUInt8]) ∨
      (128 ≤ c.toNat ∧ ∀ b ∈ String.utf8EncodeChar c, 128 ≤ b.toNat) := by
  have hval : c.val.toNat = c.toNat := rfl
  by_cases h : c.toNat < 128
  · refine .inl ⟨h, ?_⟩
    rw [String.utf8EncodeChar, hval, if_pos (by omega)]
    rfl
  · refine .inr ⟨by omega, fun b hb => ?_⟩
    rw [String.utf8EncodeChar, hval, if_neg (by omega)] at hb
    split_ifs at hb
    all_goals
      simp only [List.mem_cons, List.not_mem_nil, or_false] at hb
      rcases hb with rfl | rfl | rfl | rfl <;> rw [UInt8.toNat_ofNat'] <;> omega

/-- A byte is an ASCII character only as the one byte of that character. -/
theorem octet_eq_iff {a c : Char} {b : UInt8} (ha : a.toNat < 128)
    (hb : b ∈ String.utf8EncodeChar c) : b = a.toUInt8 ↔ c = a := by
  have hoctet {d : Char} (hd : d.toNat < 128) : d.toUInt8.toNat = d.toNat := by
    have hmod : d.toUInt8.toNat = d.toNat % 256 := rfl
    omega
  rcases utf8EncodeChar_cases c with ⟨hc, henc⟩ | ⟨hc, hall⟩
  · rw [henc, List.mem_singleton] at hb
    rw [hb, ← UInt8.toNat_inj, hoctet hc, hoctet ha, Char.toNat_inj]
  · have hb' := hall b hb
    constructor
    · rintro rfl
      rw [hoctet ha] at hb'
      omega
    · rintro rfl
      omega

/-! ## The scan -/

/-- Why a scan gives no tokens. -/
inductive ScanFault where
  /-- A quoted token is never closed. -/
  | unterminated
  /-- A cut is not between characters of the text. -/
  | offBoundary
deriving DecidableEq, Repr

/-- The text between two offsets, if they are in order and both between characters of the text. -/
def slice (text : String) (start stop : Nat) : Except ScanFault String :=
  if h : start ≤ stop ∧ (String.Pos.Raw.mk start).IsValid text ∧
      (String.Pos.Raw.mk stop).IsValid text then
    .ok (text.extract ⟨⟨start⟩, h.2.1⟩ ⟨⟨stop⟩, h.2.2⟩)
  else .error .offBoundary

/-- The bytes of the ASCII blanks. -/
def isBlankOctet (b : UInt8) : Bool :=
  b == ' '.toUInt8 || b == '\t'.toUInt8 || b == '\n'.toUInt8 || b == '\x0c'.toUInt8 ||
    b == '\r'.toUInt8

/-- The offset behind the quote that closes a token, looked for from an offset on. After a backslash
the search goes on two bytes further, wherever that is. -/
def closeAt? (bytes : List UInt8) (i : Nat) : Option Nat :=
  if h : i < bytes.length then
    if bytes[i] = '\\'.toUInt8 then closeAt? bytes (i + 2)
    else if bytes[i] = '"'.toUInt8 then some (i + 1)
    else closeAt? bytes (i + 1)
  else none
termination_by bytes.length - i

/-- The offset of the first blank from an offset on, or of the end. -/
def wordEnd (bytes : List UInt8) (i : Nat) : Nat :=
  if h : i < bytes.length then
    if isBlankOctet bytes[i] then i else wordEnd bytes (i + 1)
  else i
termination_by bytes.length - i

/-- Where the token ends that starts at an offset. -/
def tokenEnd? (bytes : List UInt8) (i : Nat) : Option Nat :=
  if bytes[i]? = some '"'.toUInt8 then closeAt? bytes (i + 1) else some (wordEnd bytes i)

theorem lt_of_closeAt? {bytes : List UInt8} {i j : Nat} (h : closeAt? bytes i = some j) :
    i < j := by
  fun_induction closeAt? bytes i with
  | case1 i _ _ ih =>
    have := ih h
    omega
  | case2 i _ _ _ =>
    cases h
    omega
  | case3 i _ _ _ ih =>
    have := ih h
    omega
  | case4 => cases h

theorem le_wordEnd (bytes : List UInt8) (i : Nat) : i ≤ wordEnd bytes i := by
  fun_induction wordEnd bytes i with
  | case1 => exact Nat.le_refl _
  | case2 i _ _ ih => omega
  | case3 => exact Nat.le_refl _

theorem lt_of_tokenEnd? {bytes : List UInt8} {i j : Nat} (hi : i < bytes.length)
    (hblank : isBlankOctet bytes[i] = false) (h : tokenEnd? bytes i = some j) : i < j := by
  unfold tokenEnd? at h
  split at h
  · have := lt_of_closeAt? h
    omega
  · cases h
    rw [wordEnd, dif_pos hi, if_neg (by simp [hblank])]
    exact le_wordEnd bytes (i + 1)

/-- The tokens from an offset on, cut out of the text between offsets. -/
def scanFrom (text : String) (bytes : List UInt8) (i : Nat) :
    Except ScanFault (List (List Char)) :=
  if hi : i < bytes.length then
    if hblank : isBlankOctet bytes[i] then scanFrom text bytes (i + 1)
    else do
      let rest ← slice text i bytes.length
      if startsComment rest.toList then .ok []
      else
        match hstop : tokenEnd? bytes i with
        | none => .error .unterminated
        | some stop =>
          have := lt_of_tokenEnd? hi (by simpa using hblank) hstop
          let token ← slice text i (min stop bytes.length)
          (scanFrom text bytes stop).map (token.toList :: ·)
  else .ok []
termination_by bytes.length - i

/-- The tokens of a line, by its bytes. -/
def scan (text : String) : Except ScanFault (List (List Char)) :=
  scanFrom text text.toByteArray.data.toList 0

/-! ## Where tokens end -/

section Ends
variable (pre post : List UInt8)

theorem closeAt?_here (b : UInt8) :
    closeAt? (pre ++ b :: post) pre.length =
      if b = '\\'.toUInt8 then closeAt? (pre ++ b :: post) (pre.length + 2)
      else if b = '"'.toUInt8 then some (pre.length + 1)
      else closeAt? (pre ++ b :: post) (pre.length + 1) := by
  rw [closeAt?, dif_pos (by simp)]
  simp only [List.getElem_append_right (Nat.le_refl pre.length), Nat.sub_self,
    List.getElem_cons_zero]

theorem wordEnd_here (b : UInt8) :
    wordEnd (pre ++ b :: post) pre.length =
      if isBlankOctet b then pre.length else wordEnd (pre ++ b :: post) (pre.length + 1) := by
  rw [wordEnd, dif_pos (by simp)]
  simp only [List.getElem_append_right (Nat.le_refl pre.length), Nat.sub_self,
    List.getElem_cons_zero]

/-- Bytes that are neither a backslash nor a quote are passed over one by one. -/
theorem closeAt?_skip {mid : List UInt8} (h : ∀ b ∈ mid, b ≠ '\\'.toUInt8 ∧ b ≠ '"'.toUInt8) :
    closeAt? (pre ++ (mid ++ post)) pre.length =
      closeAt? (pre ++ (mid ++ post)) (pre ++ mid).length := by
  induction mid generalizing pre with
  | nil => rw [List.append_nil]
  | cons b mid ih =>
    obtain ⟨hescape, hquote⟩ := h b List.mem_cons_self
    have hnext := ih (pre ++ [b]) fun d hd => h d (List.mem_cons_of_mem b hd)
    simp only [List.append_assoc, List.singleton_append] at hnext
    rw [List.cons_append, closeAt?_here, if_neg hescape, if_neg hquote]
    simpa using hnext

theorem wordEnd_skip {mid : List UInt8} (h : ∀ b ∈ mid, isBlankOctet b = false) :
    wordEnd (pre ++ (mid ++ post)) pre.length =
      wordEnd (pre ++ (mid ++ post)) (pre ++ mid).length := by
  induction mid generalizing pre with
  | nil => rw [List.append_nil]
  | cons b mid ih =>
    have hnext := ih (pre ++ [b]) fun d hd => h d (List.mem_cons_of_mem b hd)
    simp only [List.append_assoc, List.singleton_append] at hnext
    rw [List.cons_append, wordEnd_here, if_neg (by simp [h b List.mem_cons_self])]
    simpa using hnext

end Ends

theorem isBlankOctet_eq {c : Char} {b : UInt8} (hb : b ∈ String.utf8EncodeChar c) :
    isBlankOctet b = isBlank c := by
  have hsame (a : Char) (ha : a.toNat < 128) : (b == a.toUInt8) = (c == a) := by
    rw [Bool.eq_iff_iff, beq_iff_eq, beq_iff_eq, octet_eq_iff ha hb]
  rw [isBlankOctet, isBlank, hsame ' ' (by decide), hsame '\t' (by decide), hsame '\n' (by decide),
    hsame '\x0c' (by decide), hsame '\r' (by decide)]

/-- What follows the first byte of a character is neither a backslash nor a quote. -/
theorem not_special_of_tail {c : Char} {b : UInt8} {tail : List UInt8}
    (h : String.utf8EncodeChar c = b :: tail) :
    ∀ d ∈ tail, d ≠ '\\'.toUInt8 ∧ d ≠ '"'.toUInt8 := by
  intro d hd
  have hmem : d ∈ String.utf8EncodeChar c := h ▸ List.mem_cons_of_mem b hd
  rcases utf8EncodeChar_cases c with ⟨-, henc⟩ | ⟨hc, -⟩
  · -- A character of one byte has no such bytes.
    rw [henc, List.cons.injEq] at h
    rw [← h.2] at hd
    cases hd
  · rw [Ne, Ne, octet_eq_iff (by decide) hmem, octet_eq_iff (by decide) hmem]
    constructor <;> rintro rfl <;> simp at hc

theorem octets_backslash (cs : List Char) : octets ('\\' :: cs) = '\\'.toUInt8 :: octets cs := rfl

theorem octets_quote (cs : List Char) : octets ('"' :: cs) = '"'.toUInt8 :: octets cs := rfl

/-- The search by bytes ends where the search by characters does. -/
theorem closeAt?_octets (pre : List UInt8) (cs : List Char) :
    closeAt? (pre ++ octets cs) pre.length =
      (closeQuote? cs).map fun (t, _) => (pre ++ octets t).length := by
  fun_induction closeQuote? cs generalizing pre with
  | case1 =>
    rw [closeAt?, dif_neg (by simp [octets])]
    rfl
  | case2 =>
    -- The backslash is the last byte, so the search goes on past the end.
    rw [octets_backslash, closeAt?_here, if_pos rfl, closeAt?, dif_neg (by simp [octets])]
    rfl
  | case3 c cs ih =>
    obtain ⟨b, tail, henc⟩ := List.exists_cons_of_ne_nil (String.utf8EncodeChar_ne_nil (c := c))
    have hskip := closeAt?_skip (pre ++ ['\\'.toUInt8, b]) (octets cs) (not_special_of_tail henc)
    have hrest := ih (pre ++ '\\'.toUInt8 :: b :: tail)
    have htext : pre ++ octets ('\\' :: c :: cs) =
        pre ++ '\\'.toUInt8 :: b :: (tail ++ octets cs) := by
      rw [octets_backslash, octets_cons, henc, List.cons_append]
    simp only [List.append_assoc, List.cons_append, List.nil_append] at hskip hrest
    rw [htext, closeAt?_here, if_pos rfl]
    have hlen : pre.length + 2 = (pre ++ ['\\'.toUInt8, b]).length := by simp
    rw [hlen, hskip, hrest, Option.map_map]
    congr 1
    funext p
    show (pre ++ _).length = (pre ++ octets ('\\' :: c :: p.1)).length
    rw [octets_backslash, octets_cons, henc, List.cons_append]
  | case4 cs =>
    rw [octets_quote, closeAt?_here, if_neg (by decide), if_pos rfl]
    have hlen : (pre ++ octets ['"']).length = pre.length + 1 := List.length_append
    exact congrArg some hlen.symm
  | case5 c cs hnil hcons hquote ih =>
    have hmid : ∀ b ∈ String.utf8EncodeChar c, b ≠ '\\'.toUInt8 ∧ b ≠ '"'.toUInt8 := by
      intro b hb
      rw [Ne, Ne, octet_eq_iff (by decide) hb, octet_eq_iff (by decide) hb]
      exact ⟨not_escape hnil hcons, hquote⟩
    have hrest := ih (pre ++ String.utf8EncodeChar c)
    rw [List.append_assoc] at hrest
    rw [octets_cons, closeAt?_skip pre _ hmid, hrest, Option.map_map]
    congr 1
    funext p
    simp [octets_cons]

theorem wordEnd_octets (pre : List UInt8) (cs : List Char) :
    wordEnd (pre ++ octets cs) pre.length = (pre ++ octets (cs.takeWhile (!isBlank ·))).length := by
  induction cs generalizing pre with
  | nil =>
    rw [wordEnd, dif_neg (by simp [octets])]
    simp [octets]
  | cons c cs ih =>
    cases hc : isBlank c with
    | true =>
      obtain ⟨b, tail, henc⟩ := List.exists_cons_of_ne_nil (String.utf8EncodeChar_ne_nil (c := c))
      have hb : isBlankOctet b = true := by
        rw [isBlankOctet_eq (henc ▸ List.mem_cons_self), hc]
      rw [octets_cons, henc, List.cons_append, wordEnd_here, if_pos hb]
      simp [hc, octets]
    | false =>
      have hmid : ∀ b ∈ String.utf8EncodeChar c, isBlankOctet b = false :=
        fun b hb => (isBlankOctet_eq hb).trans hc
      have hrest := ih (pre ++ String.utf8EncodeChar c)
      rw [List.append_assoc] at hrest
      rw [octets_cons, wordEnd_skip pre _ hmid, hrest, List.takeWhile_cons_of_pos (by simp [hc]),
        octets_cons, List.append_assoc]

/-! ## The scan and the tokens -/

/-- A cut between characters succeeds, and takes out the characters between. -/
theorem slice_ofList (pre mid post : List Char) :
    slice (String.ofList (pre ++ (mid ++ post))) (octets pre).length (octets (pre ++ mid)).length =
      .ok (String.ofList mid) := by
  have hvalid (front back : List Char) (h : front ++ back = pre ++ (mid ++ post)) :
      (String.Pos.Raw.mk (octets front).length).IsValid (String.ofList (pre ++ (mid ++ post))) := by
    refine String.Pos.Raw.isValid_iff_exists_append.2
      ⟨String.ofList front, String.ofList back, ?_, ?_⟩
    · rw [← String.ofList_append, h]
    · rw [length_octets]
      rfl
  have hle : (octets pre).length ≤ (octets (pre ++ mid)).length := by
    rw [octets_append, List.length_append]
    exact Nat.le_add_right _ _
  rw [slice, dif_pos ⟨hle, hvalid pre _ rfl, hvalid (pre ++ mid) post (List.append_assoc ..)⟩]
  refine congrArg Except.ok (String.toByteArray_inj.1 ?_)
  have hstart : (octets pre).length = (String.ofList pre).toByteArray.size := by
    rw [String.size_toByteArray, length_octets]
  have hstop : (octets (pre ++ mid)).length =
      (octets pre).length + (String.ofList mid).toByteArray.size := by
    rw [octets_append, List.length_append, String.size_toByteArray, length_octets mid]
  have htext : (String.ofList (pre ++ (mid ++ post))).toByteArray =
      (String.ofList pre).toByteArray ++
        ((String.ofList mid).toByteArray ++ (String.ofList post).toByteArray) := by
    rw [String.ofList_append, String.ofList_append, String.toByteArray_append,
      String.toByteArray_append]
  have hcut := ByteArray.extract_append_size_add' (i := 0)
    (j := (String.ofList mid).toByteArray.size)
    (b := (String.ofList mid).toByteArray ++ (String.ofList post).toByteArray) hstart
  rw [String.toByteArray_extract]
  dsimp only
  rw [htext, hstop]
  rw [Nat.add_zero] at hcut
  rw [hcut, ByteArray.extract_append_eq_left rfl]

/-- The byte where a character starts is one of its bytes. -/
theorem getElem_octets (pre cs : List Char) (c : Char) :
    ∃ h : (octets pre).length < (octets (pre ++ c :: cs)).length,
      (octets (pre ++ c :: cs))[(octets pre).length] ∈ String.utf8EncodeChar c := by
  obtain ⟨b, tail, henc⟩ := List.exists_cons_of_ne_nil (String.utf8EncodeChar_ne_nil (c := c))
  have htext : octets (pre ++ c :: cs) = octets pre ++ b :: (tail ++ octets cs) := by
    rw [octets_append, octets_cons, henc, List.cons_append]
  simp [htext, henc]

theorem tokenEnd?_quoted (pre cs : List Char) :
    tokenEnd? (octets (pre ++ '"' :: cs)) (octets pre).length =
      (closeQuote? cs).map fun (t, _) => (octets (pre ++ '"' :: t)).length := by
  obtain ⟨hlt, hmem⟩ := getElem_octets pre cs '"'
  have hclose := closeAt?_octets (octets (pre ++ ['"'])) cs
  have hnext : (octets (pre ++ ['"'])).length = (octets pre).length + 1 := by
    rw [octets_append, List.length_append]
    rfl
  simp only [← octets_append, List.append_assoc, List.singleton_append, hnext] at hclose
  have hhead := (octet_eq_iff (by decide) hmem).2 rfl
  rw [tokenEnd?, List.getElem?_eq_getElem hlt, hhead, if_pos rfl, hclose]

theorem tokenEnd?_bare {c : Char} (hc : isBlank c = false) (hquote : c ≠ '"')
    (pre cs : List Char) :
    tokenEnd? (octets (pre ++ c :: cs)) (octets pre).length =
      some (octets (pre ++ c :: cs.takeWhile (!isBlank ·))).length := by
  obtain ⟨hlt, hmem⟩ := getElem_octets pre cs c
  have hhead : (octets (pre ++ c :: cs))[(octets pre).length] ≠ '"'.toUInt8 := by
    rwa [Ne, octet_eq_iff (by decide) hmem]
  rw [tokenEnd?, List.getElem?_eq_getElem hlt, if_neg (by simpa using hhead), octets_append,
    wordEnd_octets, List.takeWhile_cons_of_pos (by simp [hc]), ← octets_append]

/-- The scan of a text from behind some of its characters on. -/
def scanBehind (pre rest : List Char) : Except ScanFault (List (List Char)) :=
  scanFrom (String.ofList (pre ++ rest)) (octets (pre ++ rest)) (octets pre).length

section Scan
variable {pre cs : List Char} {c : Char}

theorem scanBehind_blank (hc : isBlank c = true) :
    scanBehind pre (c :: cs) = scanBehind (pre ++ [c]) cs := by
  obtain ⟨hlt, hmem⟩ := getElem_octets pre cs c
  have hone : (octets [c]).length = 1 := by
    simp only [isBlank, Bool.or_eq_true, beq_iff_eq] at hc
    rcases hc with (((rfl | rfl) | rfl) | rfl) | rfl <;> rfl
  rw [scanBehind, scanFrom, dif_pos hlt, dif_pos ((isBlankOctet_eq hmem).trans hc), scanBehind,
    List.append_assoc, List.singleton_append, octets_append pre [c], List.length_append, hone]

theorem scanBehind_comment (hc : isBlank c = false) (hcomment : startsComment (c :: cs) = true) :
    scanBehind pre (c :: cs) = .ok [] := by
  obtain ⟨hlt, hmem⟩ := getElem_octets pre cs c
  have hslice := slice_ofList pre (c :: cs) []
  rw [List.append_nil] at hslice
  rw [scanBehind, scanFrom, dif_pos hlt, dif_neg (by simp [isBlankOctet_eq hmem, hc]), hslice]
  simp only [bind, Except.bind, String.toList_ofList, hcomment, if_true]

/-- A scan from where a token starts. -/
theorem scanBehind_token (hc : isBlank c = false) (hcomment : startsComment (c :: cs) = false) :
    scanBehind pre (c :: cs) =
      (tokenEnd? (octets (pre ++ c :: cs)) (octets pre).length).elim (.error .unterminated)
        fun stop =>
          (slice (String.ofList (pre ++ c :: cs)) (octets pre).length
            (min stop (octets (pre ++ c :: cs)).length)).bind fun token =>
          (scanFrom (String.ofList (pre ++ c :: cs)) (octets (pre ++ c :: cs)) stop).map
            (token.toList :: ·) := by
  obtain ⟨hlt, hmem⟩ := getElem_octets pre cs c
  have hslice := slice_ofList pre (c :: cs) []
  rw [List.append_nil] at hslice
  rw [scanBehind, scanFrom, dif_pos hlt, dif_neg (by simp [isBlankOctet_eq hmem, hc]), hslice]
  simp only [bind, Except.bind, String.toList_ofList, hcomment, Bool.false_eq_true, if_false]
  split <;> rename_i hstop <;> rw [hstop] <;> rfl

/-- A token that ends between characters is cut out, and the scan goes on behind it. -/
theorem scanBehind_cut {t rest : List Char} (hc : isBlank c = false)
    (hcomment : startsComment (c :: cs) = false) (hsplit : t ++ rest = c :: cs)
    (hend : tokenEnd? (octets (pre ++ c :: cs)) (octets pre).length =
      some (octets (pre ++ t)).length) :
    scanBehind pre (c :: cs) = (scanBehind (pre ++ t) rest).map (t :: ·) := by
  have hmin : min (octets (pre ++ t)).length (octets (pre ++ c :: cs)).length =
      (octets (pre ++ t)).length := by
    rw [← hsplit, ← List.append_assoc, octets_append (pre ++ t), List.length_append]
    exact Nat.min_eq_left (Nat.le_add_right _ _)
  rw [scanBehind_token hc hcomment, hend, Option.elim_some, hmin, ← hsplit, slice_ofList,
    ← List.append_assoc, ← scanBehind, Except.bind, String.toList_ofList]

end Scan

/-- Scanning from between two characters on gives the tokens of the characters from there on. -/
theorem scanBehind_eq (pre rest : List Char) :
    scanBehind pre rest = (tokens? rest).elim (.error .unterminated) .ok := by
  have hmap {t : List Char} {found : Option (List (List Char))} :
      (found.elim (.error .unterminated) .ok : Except ScanFault _).map (t :: ·) =
        (found.map (t :: ·)).elim (.error .unterminated) .ok := by
    cases found <;> rfl
  fun_induction tokens? rest generalizing pre with
  | case1 =>
    rw [scanBehind, scanFrom, dif_neg (by simp)]
    rfl
  | case2 c cs hblank ih => rw [scanBehind_blank hblank, ih]
  | case3 c cs hblank hcomment =>
    rw [scanBehind_comment (by simpa using hblank) hcomment]
    rfl
  | case4 cs hclose hblank hcomment =>
    rw [scanBehind_token (by decide) rfl, tokenEnd?_quoted, hclose]
    rfl
  | case5 cs t rest hclose hblank hcomment this ih =>
    have hsplit : '"' :: t ++ rest = '"' :: cs := by
      rw [List.cons_append, closeQuote?_append hclose]
    have hend := tokenEnd?_quoted pre cs
    rw [hclose, Option.map_some] at hend
    rw [scanBehind_cut (by decide) rfl hsplit hend, ih, hmap]
  | case6 c cs hblank hcomment hquote this ih =>
    have hsplit : c :: cs.takeWhile (!isBlank ·) ++ cs.dropWhile (!isBlank ·) = c :: cs := by
      rw [List.cons_append, List.takeWhile_append_dropWhile]
    have hc : isBlank c = false := by simpa using hblank
    rw [scanBehind_cut hc (by simpa using hcomment) hsplit (tokenEnd?_bare hc hquote pre cs), ih,
      hmap]

theorem scan_eq (text : String) :
    scan text = (tokens? text.toList).elim (.error .unterminated) .ok := by
  have h := scanBehind_eq [] text.toList
  rw [scanBehind, List.nil_append, ← octets_ofList, String.ofList_toList] at h
  exact h

/-! ## What tokens are -/

theorem startsComment_of_slashes {t : List Char} (h : ['/', '/'] <+: t) :
    startsComment t = true := by
  obtain ⟨rest, rfl⟩ := h
  rfl

/-- Only a quoted token has a blank in it. -/
theorem IsToken.quoted_of_blank {t : List Char} (h : IsToken t) {c : Char} (hc : c ∈ t)
    (hblank : isBlank c = true) : t.head? = some '"' := by
  cases h with
  | bare hall _ _ => cases (hall c hc).symm.trans hblank
  | quoted => rfl

/-- The scan of a text by its bytes comes to an end without a cut that is not between characters,
and gives the tokens of the text, or says that a quote is never closed. No token is empty or starts
with two slashes or a blank, and only a quoted one has a blank in it. Written with a blank between
them, the tokens are read back. -/
theorem tokens_stable (text : String) :
    scan text = (tokens? text.toList).elim (.error .unterminated) .ok ∧
    ∀ ts, tokens? text.toList = some ts →
      (∀ t ∈ ts, t ≠ [] ∧ ¬ ['/', '/'] <+: t ∧ (∀ c, t.head? = some c → isBlank c = false) ∧
        ∀ c ∈ t, isBlank c = true → t.head? = some '"') ∧
      tokens? ([' '].intercalate ts) = some ts := by
  refine ⟨scan_eq text, fun ts hts => ?_⟩
  have htokens : ∀ t ∈ ts, IsToken t := fun t ht => (isToken_of_mem hts t ht).1
  refine ⟨fun t ht => ?_, tokens?_intercalate htokens⟩
  have htoken := htokens t ht
  refine ⟨htoken.ne_nil, fun hprefix => ?_, fun c hc => htoken.not_blank_head hc,
    fun c hc => htoken.quoted_of_blank hc⟩
  cases (startsComment_of_slashes hprefix).symm.trans htoken.startsComment

/-- A backslash before a character of two bytes, a quoted token without a blank behind it, and a
comment right behind a quote. -/
theorem tokens_stable_escaped :
    let text := "byte \"\\é \\\"\"tail \"\"// \""
    let ts := [['b', 'y', 't', 'e'], ['"', '\\', 'é', ' ', '\\', '"', '"'],
      ['t', 'a', 'i', 'l'], ['"', '"']]
    tokens? text.toList = some ts ∧ scan text = .ok ts ∧
      tokens? ([' '].intercalate ts) = some ts := by
  intro text ts
  have hts : tokens? text.toList = some ts := by decide +kernel
  obtain ⟨hscan, hstable⟩ := tokens_stable text
  refine ⟨hts, ?_, (hstable ts hts).2⟩
  rw [hscan, hts]
  rfl

end Teal.Source
