import Teal.Proofs.Text
import Teal.Source.Literal
/-!
# Byte constants

A byte constant is written as pairs of hexadecimal digits after `0x`, or in double quotes as items
one after the other: a character, an escaped letter, or `\x` and two digits. `Documented` says this
by rules.

What is read is a little more, `Accepted`. The two characters after `\x` are read as a numeral, so a
plus sign may stand in the place of the first digit; and at the end of the body one digit is enough.
Items are told apart in one way only (`Item.append_inj`), so these two slips are the whole
difference (`spells_iff`).
-/

namespace Teal.Source

open Text.Numeral (digit? digitValue? digits? magnitude? read?)

/-! ## Hexadecimal digits -/

/-- A hexadecimal digit, in either case, and its value. -/
def HexDigit (c : Char) (n : Nat) : Prop := n < 16 ∧ c.toLower = Nat.digitChar n

theorem ascii_of_digitValue? {c : Char} {n : Nat} (h : digitValue? c = some n) : c.toNat < 128 := by
  have hle {a b : Char} (hab : (a ≤ c && c ≤ b) = true) : c.toNat ≤ b.toNat := by
    simp only [Bool.and_eq_true, decide_eq_true_eq] at hab
    exact hab.2
  have hbound : '9'.toNat < 128 ∧ 'z'.toNat < 128 ∧ 'Z'.toNat < 128 := by decide
  unfold digitValue? at h
  split at h
  · exact (hle ‹_›).trans_lt hbound.1
  · split at h
    · exact (hle ‹_›).trans_lt hbound.2.1
    · split at h
      · exact (hle ‹_›).trans_lt hbound.2.2
      · cases h

theorem ascii_of_toLower_digitChar {c : Char} {n : Nat} (hn : n < 16)
    (h : c.toLower = Nat.digitChar n) : c.toNat < 128 := by
  have hdigit : ∀ n < 16, (Nat.digitChar n).toNat < 128 := by decide
  unfold Char.toLower at h
  split at h
  · rename_i hupper
    have : c.toNat ≤ 'Z'.toNat := hupper.2
    exact this.trans_lt (by decide)
  · exact h ▸ hdigit n hn

theorem digit?_eq_some_iff {c : Char} {n : Nat} : digit? 16 c = some n ↔ HexDigit c n := by
  have hascii : ∀ k < 128, ∀ n < 16,
      digit? 16 (Char.ofNat k) = some n ↔ (Char.ofNat k).toLower = Nat.digitChar n := by
    decide +kernel
  constructor
  · intro h
    obtain ⟨hvalue, hn⟩ := Option.filter_eq_some_iff.1 h
    have hn : n < 16 := by simpa using hn
    refine ⟨hn, ?_⟩
    have := hascii c.toNat (ascii_of_digitValue? hvalue) n hn
    rw [Char.ofNat_toNat] at this
    exact this.1 h
  · rintro ⟨hn, h⟩
    have := hascii c.toNat (ascii_of_toLower_digitChar hn h) n hn
    rw [Char.ofNat_toNat] at this
    exact this.2 h

/-! ## The documented constants -/

/-- Two digits and the byte they stand for. -/
inductive HexPair : List Char → List UInt8 → Prop
  | mk {a b x y} : HexDigit a x → HexDigit b y → HexPair [a, b] [UInt8.ofNat (16 * x + y)]

/-- The letters that may follow a backslash, with the bytes they then stand for. -/
def escapes : List (Char × UInt8) :=
  [('n', 10), ('t', 9), ('r', 13), ('\\', 92), ('"', 34)]

/-- An item of a quoted body, with its bytes. -/
inductive Item : List Char → List UInt8 → Prop
  /-- A character stands for its UTF-8 form. -/
  | char {c} : c ≠ '\\' → Item [c] (String.utf8EncodeChar c)
  | letter {c b} : (c, b) ∈ escapes → Item ['\\', c] [b]
  | hex {ds v} : HexPair ds v → Item ('\\' :: 'x' :: ds) v

/-- A text that is pieces of a kind one after the other, with the bytes of all of them. -/
inductive Spells (Piece : List Char → List UInt8 → Prop) : List Char → List UInt8 → Prop
  | nil : Spells Piece [] []
  | cons {s b cs v} : Piece s b → Spells Piece cs v → Spells Piece (s ++ cs) (b ++ v)

/-- The byte constants as they are documented. -/
inductive Documented : List Char → List UInt8 → Prop
  | hex {ds v} : Spells HexPair ds v → Documented ('0' :: 'x' :: ds) v
  | quoted {body v} : Spells Item body v → Documented ('"' :: body ++ ['"']) v

/-! ## The constants that are read -/

/-- The bodies that are read in quotes. -/
inductive Body : List Char → List UInt8 → Prop
  | nil : Body [] []
  | item {s b cs v} : Item s b → Body cs v → Body (s ++ cs) (b ++ v)
  /-- A plus sign and one digit after `\x`. -/
  | signed {d x cs v} : HexDigit d x → Body cs v →
      Body ('\\' :: 'x' :: '+' :: d :: cs) (UInt8.ofNat x :: v)
  /-- One digit after `\x` at the end. -/
  | short {d x} : HexDigit d x → Body ['\\', 'x', d] [UInt8.ofNat x]

/-- Behind some items of the body, `\x` is followed by a plus sign or by only one character. -/
def Slips (body : List Char) : Prop :=
  ∃ pre b rest, Spells Item pre b ∧ body = pre ++ '\\' :: 'x' :: rest ∧
    (rest.head? = some '+' ∨ rest.length = 1)

/-- The byte constants that are read. -/
inductive Accepted : List Char → List UInt8 → Prop
  | hex {ds v} : Spells HexPair ds v → Accepted ('0' :: 'x' :: ds) v
  | quoted {body v} : Body body v → Accepted ('"' :: body ++ ['"']) v

theorem decode?_eq_some_iff {ds : List Char} {v : List UInt8} :
    Text.Hex.decode? ds = some v ↔ Spells HexPair ds v := by
  constructor
  · intro h
    fun_induction Text.Hex.decode? ds generalizing v with
    | case1 =>
      cases h
      exact .nil
    | case2 hi lo cs ih =>
      simp only [Option.bind_eq_bind, Option.bind_eq_some_iff, Option.some.injEq] at h
      obtain ⟨x, hx, y, hy, rest, hrest, rfl⟩ := h
      exact .cons (.mk (digit?_eq_some_iff.1 hx) (digit?_eq_some_iff.1 hy)) (ih hrest)
    | case3 => cases h
  · intro h
    induction h with
    | nil => rfl
    | cons hpair _ ih =>
      obtain ⟨ha, hb⟩ := hpair
      simp only [List.cons_append, List.nil_append, Text.Hex.decode?, digit?_eq_some_iff.2 ha,
        digit?_eq_some_iff.2 hb, ih, Option.bind_eq_bind, Option.bind_some]

theorem not_hexDigit_plus {n : Nat} : ¬ HexDigit '+' n := by
  rw [← digit?_eq_some_iff]
  exact nofun

theorem magnitude?_one {d : Char} {n : Nat} : magnitude? 16 256 [d] = some n ↔ HexDigit d n := by
  rw [← digit?_eq_some_iff]
  cases hd : digit? 16 d with
  | none => simp [magnitude?, digits?, hd]
  | some x =>
    have hx := (digit?_eq_some_iff.1 hd).1
    simp [magnitude?, digits?, hd, Option.filter_some, show x < 256 by omega]

theorem magnitude?_two {a b : Char} {n : Nat} :
    magnitude? 16 256 [a, b] = some n ↔ ∃ x y, HexDigit a x ∧ HexDigit b y ∧ n = 16 * x + y := by
  simp only [← digit?_eq_some_iff]
  cases ha : digit? 16 a with
  | none => simp [magnitude?, digits?, ha]
  | some x =>
    cases hb : digit? 16 b with
    | none => simp [magnitude?, digits?, ha, hb]
    | some y =>
      have hx := (digit?_eq_some_iff.1 ha).1
      have hy := (digit?_eq_some_iff.1 hb).1
      simp [magnitude?, digits?, ha, hb, Option.filter_some, show 16 * x + y < 256 by omega,
        eq_comm]

theorem read?_one {d : Char} {n : Nat} : read? 16 256 [d] = some n ↔ HexDigit d n := by
  by_cases hd : d = '+'
  · subst hd
    exact ⟨nofun, fun h => absurd h not_hexDigit_plus⟩
  · rw [Text.Numeral.read?_eq_magnitude? (by simpa using hd), magnitude?_one]

/-- The two characters after `\x` are two digits, or a plus sign and a digit. -/
theorem read?_two {a b : Char} {n : Nat} :
    read? 16 256 [a, b] = some n ↔
      (a = '+' ∧ HexDigit b n) ∨ ∃ x y, HexDigit a x ∧ HexDigit b y ∧ n = 16 * x + y := by
  by_cases ha : a = '+'
  · subst ha
    have hread : read? 16 256 ['+', b] = magnitude? 16 256 [b] := rfl
    rw [hread, magnitude?_one]
    constructor
    · exact fun h => .inl ⟨rfl, h⟩
    · rintro (⟨-, h⟩ | ⟨x, y, hx, -⟩)
      · exact h
      · exact absurd hx not_hexDigit_plus
  · rw [Text.Numeral.read?_eq_magnitude? (by simpa using ha), magnitude?_two]
    exact ⟨.inr, fun h => h.resolve_left fun h => ha h.1⟩

/-! ## Bodies in quotes -/

/-- A character that is not a backslash stands for itself. -/
theorem quotedBytes?_char {c : Char} (hc : c ≠ '\\') (cs : List Char) :
    quotedBytes? (c :: cs) = (quotedBytes? cs).map (String.utf8EncodeChar c ++ ·) := by
  rw [quotedBytes?]
  all_goals intros; exact absurd ‹c = '\\'› hc

/-- A backslash and a letter stand for one byte. -/
theorem quotedBytes?_letter {c : Char} {b : UInt8} (hc : (c, b) ∈ escapes) (cs : List Char) :
    quotedBytes? ('\\' :: c :: cs) = (quotedBytes? cs).map (b :: ·) := by
  simp only [escapes, List.mem_cons, Prod.mk.injEq, List.not_mem_nil, or_false] at hc
  obtain ⟨rfl, rfl⟩ | ⟨rfl, rfl⟩ | ⟨rfl, rfl⟩ | ⟨rfl, rfl⟩ | ⟨rfl, rfl⟩ := hc <;> rfl

/-- A backslash, an `x` and the numeral of a byte in the next two characters stand for that byte. -/
theorem quotedBytes?_hex {a b : Char} {n : Nat} (hn : read? 16 256 [a, b] = some n)
    (cs : List Char) :
    quotedBytes? ('\\' :: 'x' :: a :: b :: cs) = (quotedBytes? cs).map (UInt8.ofNat n :: ·) := by
  rw [quotedBytes?, hn]

theorem quotedBytes?_item {s : List Char} {b : List UInt8} (h : Item s b) (cs : List Char) :
    quotedBytes? (s ++ cs) = (quotedBytes? cs).map (b ++ ·) := by
  cases h with
  | char hc => exact quotedBytes?_char hc cs
  | letter hc => exact quotedBytes?_letter hc cs
  | hex hpair =>
    obtain ⟨ha, hb⟩ := hpair
    exact quotedBytes?_hex (read?_two.2 (.inr ⟨_, _, ha, hb, rfl⟩)) cs

theorem quotedBytes?_of_body {cs : List Char} {v : List UInt8} (h : Body cs v) :
    quotedBytes? cs = some v := by
  induction h with
  | nil => rfl
  | item hitem _ ih => rw [quotedBytes?_item hitem, ih, Option.map_some]
  | signed hd _ ih => rw [quotedBytes?_hex (read?_two.2 (.inl ⟨rfl, hd⟩)), ih, Option.map_some]
  | short hd => simp [quotedBytes?, read?_one.2 hd]

theorem body_of_quotedBytes? {cs : List Char} {v : List UInt8} (h : quotedBytes? cs = some v) :
    Body cs v := by
  -- What is read behind an item is a body, so the whole is one.
  have extend {s b cs} (hitem : Item s b) (ih : ∀ {v}, quotedBytes? cs = some v → Body cs v)
      {v} (h : (quotedBytes? cs).map (b ++ ·) = some v) : Body (s ++ cs) v := by
    obtain ⟨rest, hrest, rfl⟩ := Option.map_eq_some_iff.1 h
    exact .item hitem (ih hrest)
  fun_induction quotedBytes? cs generalizing v with
  | case1 =>
    cases h
    exact .nil
  | case2 cs ih => exact extend (.letter (c := 'n') (b := 10) (by decide)) ih h
  | case3 cs ih => exact extend (.letter (c := 't') (b := 9) (by decide)) ih h
  | case4 cs ih => exact extend (.letter (c := 'r') (b := 13) (by decide)) ih h
  | case5 cs ih => exact extend (.letter (c := '\\') (b := 92) (by decide)) ih h
  | case6 cs ih => exact extend (.letter (c := '"') (b := 34) (by decide)) ih h
  | case7 a b cs n hn ih =>
    obtain ⟨rfl, hb⟩ | ⟨x, y, ha, hb, rfl⟩ := read?_two.1 hn
    · obtain ⟨rest, hrest, rfl⟩ := Option.map_eq_some_iff.1 h
      exact .signed hb (ih hrest)
    · exact extend (.hex (.mk ha hb)) ih h
  | case8 => cases h
  | case9 cs hshort =>
    obtain ⟨n, hn, rfl⟩ := Option.map_eq_some_iff.1 h
    match cs, hshort with
    | [], _ => cases hn
    | [d], _ => exact .short (read?_one.1 hn)
    | a :: b :: rest, hshort => exact (hshort a b rest rfl).elim
  | case10 => cases h
  | case11 c cs _ _ _ _ _ _ _ hc ih => exact extend (.char hc) ih h

theorem quotedBytes?_eq_some_iff {cs : List Char} {v : List UInt8} :
    quotedBytes? cs = some v ↔ Body cs v :=
  ⟨body_of_quotedBytes?, quotedBytes?_of_body⟩

/-- What is documented is read. -/
theorem Spells.body {cs : List Char} {v : List UInt8} (h : Spells Item cs v) : Body cs v := by
  induction h with
  | nil => exact .nil
  | cons hitem _ ih => exact .item hitem ih

/-- Items cannot be told apart in two ways. -/
theorem Item.append_inj {s s' cs cs' : List Char} {b b' : List UInt8} (h : Item s b)
    (h' : Item s' b') (heq : s ++ cs = s' ++ cs') : cs = cs' := by
  have hx : ∀ b, ('x', b) ∉ escapes := by simp [escapes]
  cases h with
  | char hc => cases h' <;> simp_all
  | letter hc =>
    cases h' with
    | char hc' => exact absurd (List.cons.inj heq).1.symm hc'
    | letter hc' => simp_all
    | hex => exact absurd ((List.cons.inj (List.cons.inj heq).2).1 ▸ hc) (hx _)
  | hex hpair =>
    cases h' with
    | char hc' => exact absurd (List.cons.inj heq).1.symm hc'
    | letter hc' => exact absurd ((List.cons.inj (List.cons.inj heq).2).1 ▸ hc') (hx _)
    | hex hpair' =>
      cases hpair
      cases hpair'
      simp_all

/-- Behind items that start a text of items there are items. -/
theorem Spells.of_append {pre cs : List Char} {b v : List UInt8} (hpre : Spells Item pre b)
    (h : Spells Item (pre ++ cs) v) : ∃ v, Spells Item cs v := by
  induction hpre generalizing v with
  | nil => exact ⟨v, h⟩
  | cons hitem _ ih =>
    rename_i s _ mid _ _
    generalize htext : s ++ mid ++ cs = text at h
    cases h with
    | nil =>
      cases hitem <;> simp at htext
    | cons hitem' hrest =>
      rw [List.append_assoc] at htext
      exact ih (hitem.append_inj hitem' htext ▸ hrest)

/-- Behind `\x` no item leaves a plus sign or only one character. -/
theorem not_spells_of_slip {rest : List Char} {v : List UInt8}
    (hrest : rest.head? = some '+' ∨ rest.length = 1) :
    ¬ Spells Item ('\\' :: 'x' :: rest) v := by
  intro h
  generalize htext : '\\' :: 'x' :: rest = text at h
  cases h with
  | nil => cases htext
  | cons hitem _ =>
    cases hitem with
    | char hc => exact hc (List.cons.inj htext).1.symm
    | letter hc =>
      obtain ⟨rfl, -⟩ := List.cons.inj (List.cons.inj htext).2
      simp [escapes] at hc
    | hex hpair =>
      obtain ⟨ha, -⟩ := hpair
      obtain rfl := (List.cons.inj (List.cons.inj htext).2).2
      obtain hplus | hlength := hrest
      · cases hplus
        exact not_hexDigit_plus ha
      · simp at hlength

/-- What is read is documented, unless it slips. -/
theorem Body.spells {cs : List Char} {v : List UInt8} (h : Body cs v) (hslips : ¬ Slips cs) :
    Spells Item cs v := by
  induction h with
  | nil => exact .nil
  | item hitem _ ih =>
    refine .cons hitem (ih ?_)
    rintro ⟨pre, b, rest, hpre, rfl, hrest⟩
    exact hslips ⟨_, _, rest, .cons hitem hpre, (List.append_assoc ..).symm, hrest⟩
  | signed => exact absurd ⟨[], [], _, .nil, rfl, .inl rfl⟩ hslips
  | short => exact absurd ⟨[], [], _, .nil, rfl, .inr rfl⟩ hslips

theorem spells_iff {cs : List Char} {v : List UInt8} :
    Spells Item cs v ↔ Body cs v ∧ ¬ Slips cs := by
  refine ⟨fun h => ⟨h.body, ?_⟩, fun h => h.1.spells h.2⟩
  rintro ⟨pre, b, rest, hpre, rfl, hrest⟩
  obtain ⟨v, hv⟩ := hpre.of_append h
  exact not_spells_of_slip hrest hv

/-! ## Constants -/

theorem bytes?_eq_some_iff {cs : List Char} {v : List UInt8} :
    bytes? cs = some v ↔ Accepted cs v := by
  constructor
  · intro h
    fun_cases bytes? cs with
    | case1 ds => exact .hex (decode?_eq_some_iff.1 h)
    | case2 cs hlast =>
      obtain ⟨body, rfl⟩ := List.getLast?_eq_some_iff.1 hlast
      simp only [bytes?, hlast, if_true, List.dropLast_concat] at h
      exact .quoted (quotedBytes?_eq_some_iff.1 h)
    | case3 => simp_all [bytes?]
    | case4 => simp_all [bytes?]
  · rintro (hds | hbody)
    · exact decode?_eq_some_iff.2 hds
    · simp [bytes?, quotedBytes?_eq_some_iff.2 hbody]

theorem bytes_eq_ok_iff {raw : String} {v : List UInt8} :
    bytes raw = .ok v ↔ Accepted raw.toList v := by
  rw [← bytes?_eq_some_iff, bytes]
  cases bytes? raw.toList <;> simp

theorem documented_iff {cs : List Char} {v : List UInt8} :
    Documented cs v ↔ Accepted cs v ∧ ∀ body, cs = '"' :: body ++ ['"'] → ¬ Slips body := by
  constructor
  · rintro (hds | hbody)
    · exact ⟨.hex hds, nofun⟩
    · refine ⟨.quoted hbody.body, fun body heq => ?_⟩
      obtain rfl := List.append_inj_left' (List.cons.inj heq).2 rfl
      exact (spells_iff.1 hbody).2
  · rintro ⟨hds | hbody, hslips⟩
    · exact .hex hds
    · exact .quoted (hbody.spells (hslips _ rfl))

/-- A byte constant is read exactly if it is `Accepted`, with the bytes that says, and is refused
with its own text otherwise. The documented constants are those of them in which no `\x` is followed
by a plus sign or by only one character of the body. -/
theorem bytes_literal_grammar (raw : String) (v : List UInt8) :
    (bytes raw = .ok v ↔ Accepted raw.toList v) ∧
    (bytes raw = .error (.badBytes raw) ↔ ∀ v, ¬ Accepted raw.toList v) ∧
    (Documented raw.toList v ↔
      bytes raw = .ok v ∧ ∀ body, raw.toList = '"' :: body ++ ['"'] → ¬ Slips body) := by
  refine ⟨bytes_eq_ok_iff, ?_, by rw [bytes_eq_ok_iff, documented_iff]⟩
  simp only [← bytes?_eq_some_iff, bytes]
  cases bytes? raw.toList <;> simp

/-- One digit after `\x`, or a sign and a digit, are read though they are not documented. -/
theorem undocumented_escapes_read :
    (bytes "\"\\x4\"" = .ok [4] ∧ ¬ Documented "\"\\x4\"".toList [4]) ∧
    (bytes "\"\\x+1\"" = .ok [1] ∧ ¬ Documented "\"\\x+1\"".toList [1]) := by
  refine ⟨⟨by decide, fun h => ?_⟩, by decide, fun h => ?_⟩
  · exact (documented_iff.1 h).2 ['\\', 'x', '4'] (by decide) ⟨[], [], _, .nil, rfl, .inr rfl⟩
  · exact (documented_iff.1 h).2 ['\\', 'x', '+', '1'] (by decide) ⟨[], [], _, .nil, rfl, .inl rfl⟩

end Teal.Source
