import Mathlib.Data.List.Forall2
import Mathlib.Data.Nat.Digits.Defs
import Teal.Proofs.Source.Line
import Teal.Proofs.Source.Literal
/-!
# Integers

An integer is written in hexadecimal after `0x` or `0X`, in octal after `0o`, and in decimal
otherwise, in each case with a plus sign before its digits or without. `IntegerText` says this by
rules, with the positional value of the digits. Underscores are dropped first, wherever they stand,
so a prefix may have some inside.

Digits are read from the highest on. `digits?_eq_some_iff` is the induction along them: behind
digits worth `acc` they come to `acc`, moved up by as many places as they are, and their own
positional value. The bound is applied to the value of all digits, so zeros in front do not count.
-/

namespace Teal.Source

open Text.Numeral (digit? digits? magnitude? read? read?_eq_magnitude?)

/-- A digit of a base, in either case, and its value. -/
def Digit (base : Nat) (c : Char) (d : Nat) : Prop := d < base ∧ HexDigit c d

/-- At least one digit of a base, the highest first, and their positional value. -/
def Digits (base : Nat) (cs : List Char) (n : Nat) : Prop :=
  cs ≠ [] ∧ ∃ ds, List.Forall₂ (Digit base) cs ds ∧ n = Nat.ofDigits base ds.reverse

/-- A numeral of a base and its value. -/
inductive InBase (base : Nat) : List Char → Nat → Prop
  | plain {cs n} : Digits base cs n → InBase base cs n
  | signed {cs n} : Digits base cs n → InBase base ('+' :: cs) n

/-- The integers as they are written without underscores, and their values. -/
inductive IntegerText : List Char → Nat → Prop
  | hex {c cs n} : c = 'x' ∨ c = 'X' → InBase 16 cs n → IntegerText ('0' :: c :: cs) n
  | octal {cs n} : InBase 8 cs n → IntegerText ('0' :: 'o' :: cs) n
  | decimal {cs n} : InBase 10 cs n → IntegerText cs n

/-! ## Numerals of a base -/

section Base
variable {base : Nat}

theorem digit?_eq_some_iff_of_le (hbase : base ≤ 16) {c : Char} {d : Nat} :
    digit? base c = some d ↔ Digit base c d := by
  simp only [Digit, ← digit?_eq_some_iff, digit?, Option.filter_eq_some_iff, decide_eq_true_eq]
  constructor
  · rintro ⟨hvalue, hd⟩
    exact ⟨hd, hvalue, by omega⟩
  · rintro ⟨hd, hvalue, -⟩
    exact ⟨hvalue, hd⟩

/-- What digits come to behind digits worth `acc`. -/
theorem digits?_eq_some_iff (hbase : base ≤ 16) {acc n : Nat} {cs : List Char} :
    digits? base acc cs = some n ↔
      ∃ ds, List.Forall₂ (Digit base) cs ds ∧
        n = base ^ ds.length * acc + Nat.ofDigits base ds.reverse := by
  induction cs generalizing acc with
  | nil => simp [digits?, eq_comm]
  | cons c cs ih =>
    cases hc : digit? base c with
    | none =>
      have hdigit : ∀ d, ¬ Digit base c d := by
        intro d hd
        rw [← digit?_eq_some_iff_of_le hbase, hc] at hd
        cases hd
      simp [digits?, hc, hdigit, List.forall₂_cons_left_iff]
    | some d =>
      have hd : Digit base c d := (digit?_eq_some_iff_of_le hbase).1 hc
      have hstep (ds : List Nat) :
          base ^ ds.length * (base * acc + d) + Nat.ofDigits base ds.reverse =
            base ^ (d :: ds).length * acc + Nat.ofDigits base (d :: ds).reverse := by
        rw [Nat.ofDigits_reverse_cons, List.length_cons]
        ring
      simp only [digits?, hc, ih, hstep]
      constructor
      · rintro ⟨ds, hds, rfl⟩
        exact ⟨d :: ds, .cons hd hds, rfl⟩
      · rintro ⟨_, hds, rfl⟩
        cases hds with
        | cons hd' hds =>
          rw [← digit?_eq_some_iff_of_le hbase, hc] at hd'
          cases hd'
          exact ⟨_, hds, rfl⟩

theorem magnitude?_eq_some_iff (hbase : base ≤ 16) {bound n : Nat} {cs : List Char} :
    magnitude? base bound cs = some n ↔ Digits base cs n ∧ n < bound := by
  cases cs with
  | nil => simp [magnitude?, Digits]
  | cons c cs =>
    simp [magnitude?, Digits, Option.filter_eq_some_iff, digits?_eq_some_iff hbase]

/-- Digits do not start with a plus sign. -/
theorem Digits.head?_ne {cs : List Char} {n : Nat} (h : Digits base cs n) :
    cs.head? ≠ some '+' := by
  obtain ⟨-, ds, hds, -⟩ := h
  cases hds with
  | nil => nofun
  | cons hd _ =>
    rintro ⟨⟩
    exact not_hexDigit_plus hd.2

theorem read?_eq_some_iff (hbase : base ≤ 16) {bound n : Nat} {cs : List Char} :
    read? base bound cs = some n ↔ InBase base cs n ∧ n < bound := by
  constructor
  · intro h
    unfold read? at h
    split at h
    · obtain ⟨hdigits, hn⟩ := (magnitude?_eq_some_iff hbase).1 h
      exact ⟨.signed hdigits, hn⟩
    · obtain ⟨hdigits, hn⟩ := (magnitude?_eq_some_iff hbase).1 h
      exact ⟨.plain hdigits, hn⟩
  · rintro ⟨hdigits | hdigits, hn⟩
    · rw [read?_eq_magnitude? hdigits.head?_ne]
      exact (magnitude?_eq_some_iff hbase).2 ⟨hdigits, hn⟩
    · exact (magnitude?_eq_some_iff hbase).2 ⟨hdigits, hn⟩

end Base

/-! ## Integers -/

/-- A decimal numeral does not start with the prefix of another base. -/
theorem not_inBase_ten {c : Char} (hc : digit? 10 c = none) {cs : List Char} {n : Nat} :
    ¬ InBase 10 ('0' :: c :: cs) n := by
  rintro ⟨-, ds, hds, -⟩
  cases hds with
  | cons _ hds =>
    cases hds with
    | cons hd _ =>
      rw [← digit?_eq_some_iff_of_le (by decide), hc] at hd
      cases hd

section Text
variable {cs : List Char} {n : Nat}

theorem integerText_hex {c : Char} (hc : c = 'x' ∨ c = 'X') :
    IntegerText ('0' :: c :: cs) n ↔ InBase 16 cs n := by
  refine ⟨fun h => ?_, .hex hc⟩
  cases h with
  | hex _ h => exact h
  | octal => simp at hc
  | decimal h =>
    obtain rfl | rfl := hc <;> exact absurd h (not_inBase_ten (by decide))

theorem integerText_octal : IntegerText ('0' :: 'o' :: cs) n ↔ InBase 8 cs n := by
  refine ⟨fun h => ?_, .octal⟩
  cases h with
  | hex hc => simp at hc
  | octal h => exact h
  | decimal h => exact absurd h (not_inBase_ten (by decide))

theorem integer?_eq_some_iff :
    integer? cs = some n ↔ IntegerText (cs.filter (· != '_')) n ∧ n < 2 ^ 64 := by
  unfold integer?
  generalize cs.filter (· != '_') = text
  split
  · rw [read?_eq_some_iff (by decide), integerText_hex (.inl rfl)]
    rfl
  · rw [read?_eq_some_iff (by decide), integerText_hex (.inr rfl)]
    rfl
  · rw [read?_eq_some_iff (by decide), integerText_octal]
    rfl
  · rename_i hx hX ho
    rw [read?_eq_some_iff (by decide)]
    refine and_congr_left fun _ => ⟨.decimal, fun h => ?_⟩
    cases h with
    | hex hc _ =>
      obtain rfl | rfl := hc
      · exact (hx _ rfl).elim
      · exact (hX _ rfl).elim
    | octal => exact (ho _ rfl).elim
    | decimal h => exact h

end Text

theorem integer_eq_ok_iff {raw : String} {n : UInt64} :
    integer raw = .ok n ↔ integer? raw.toList = some n.toNat := by
  unfold integer
  cases h : integer? raw.toList with
  | none => simp
  | some m =>
    have hm : m < 2 ^ 64 := (integer?_eq_some_iff.1 h).2
    rw [Except.ok.injEq, Option.some.injEq, ← UInt64.toNat_inj, UInt64.toNat_ofNat_of_lt' hm]

theorem integer_eq_error_iff {raw : String} :
    integer raw = .error (.badInteger raw) ↔ integer? raw.toList = none := by
  unfold integer
  cases integer? raw.toList <;> simp

/-- An integer is read exactly if its text without underscores has one of the three forms and the
positional value of its digits is below 2^64. It is read as that value, and refused with its own
text otherwise. The decimal numeral of a number is read as that number. -/
theorem integer_reads_exactly (raw : String) (n : UInt64) :
    (integer raw = .ok n ↔ IntegerText (raw.toList.filter (· != '_')) n.toNat) ∧
    (integer raw = .error (.badInteger raw) ↔
      ∀ m, IntegerText (raw.toList.filter (· != '_')) m → 2 ^ 64 ≤ m) ∧
    integer n.toNat.repr = .ok n := by
  refine ⟨?_, ?_, integer_repr n⟩
  · rw [integer_eq_ok_iff, integer?_eq_some_iff]
    exact and_iff_left n.toNat_lt
  · simp only [integer_eq_error_iff, Option.eq_none_iff_forall_ne_some, ne_eq,
      integer?_eq_some_iff, not_and, Nat.not_lt]

/-- A prefix may have underscores inside, and a plus sign may follow it. -/
example : integer "0_x_+_1F" = .ok 31 := by decide

end Teal.Source
