import Teal.Proofs.Source.Line
import Teal.Proofs.Source.Literal
/-!
# Operands hold no white space

The operands of an instruction are numbers, byte constants and names of labels. White space stands
in none of them but a byte constant in quotes, `spaceless_of_instruction`.
-/

namespace Teal.Source

open Text (isSpace Trimmed)
open Text.Numeral (digitValue? digits? magnitude? read?)

/-- A text without white space. -/
def Spaceless (cs : List Char) : Prop := ∀ c ∈ cs, isSpace c = false

theorem Spaceless.cons {c : Char} {cs : List Char} (hc : isSpace c = false) (h : Spaceless cs) :
    Spaceless (c :: cs) := List.forall_mem_cons.2 ⟨hc, h⟩

theorem spaceless_of_all {cs : List Char} (h : cs.all (!isSpace ·) = true) : Spaceless cs :=
  fun c hc => by simpa using List.all_eq_true.1 h c hc

theorem Spaceless.trimmed {cs : List Char} (h : Spaceless cs) : Trimmed cs :=
  ⟨fun c hc => h c (List.mem_of_head? hc), fun c hc => h c (List.mem_of_getLast? hc)⟩

theorem spaceless_keyword (k : Keyword) : Spaceless k.text.toList := fun c hc =>
  isSpace_of_isPlain (List.all_eq_true.1 (isPlain_keyword k).2 c hc)

theorem isSpace_of_digitValue? {c : Char} {n : Nat} (h : digitValue? c = some n) :
    isSpace c = false := by
  have hascii : ∀ k < 128, digitValue? (Char.ofNat k) ≠ none → isSpace (Char.ofNat k) = false := by
    decide +kernel
  have hc := hascii c.toNat (ascii_of_digitValue? h)
  rw [Char.ofNat_toNat, h] at hc
  exact hc nofun

theorem spaceless_of_digits? {base acc n : Nat} {cs : List Char}
    (h : digits? base acc cs = some n) : Spaceless cs := by
  fun_induction digits? base acc cs with
  | case1 => exact nofun
  | case2 acc c cs d hd ih =>
    obtain ⟨hvalue, -⟩ := Option.filter_eq_some_iff.1 hd
    exact (ih h).cons (isSpace_of_digitValue? hvalue)
  | case3 => cases h

theorem spaceless_of_magnitude? {base bound n : Nat} {cs : List Char}
    (h : magnitude? base bound cs = some n) : Spaceless cs := by
  unfold magnitude? at h
  split at h
  · cases h
  · exact spaceless_of_digits? (Option.filter_eq_some_iff.1 h).1

theorem spaceless_of_read? {base bound n : Nat} {cs : List Char}
    (h : read? base bound cs = some n) : Spaceless cs := by
  unfold read? at h
  split at h
  · exact (spaceless_of_magnitude? h).cons rfl
  · exact spaceless_of_magnitude? h

theorem spaceless_of_integer? {cs : List Char} {n : Nat} (h : integer? cs = some n) :
    Spaceless cs := by
  have hfilter : Spaceless (cs.filter (· != '_')) := by
    unfold integer? at h
    split at h
    · rename_i ds heq
      rw [heq]
      exact ((spaceless_of_read? h).cons rfl).cons rfl
    · rename_i ds heq
      rw [heq]
      exact ((spaceless_of_read? h).cons rfl).cons rfl
    · rename_i ds heq
      rw [heq]
      exact ((spaceless_of_read? h).cons rfl).cons rfl
    · exact spaceless_of_read? h
  intro c hc
  by_cases hunder : c = '_'
  · rw [hunder]
    rfl
  · exact hfilter c (List.mem_filter.2 ⟨hc, by simpa using hunder⟩)

theorem spaceless_of_isLabelName {cs : List Char} (h : isLabelName cs = true) : Spaceless cs := by
  simp only [isLabelName, Bool.and_eq_true, List.all_eq_true, Bool.not_eq_true'] at h
  exact fun c hc => (h.2 c hc).1.1

theorem spaceless_of_namedInteger? {raw : String} {n : UInt64} (h : namedInteger? raw = some n) :
    Spaceless raw.toList := by
  have hnames : ∀ p ∈ integerNames, p.1.toList.all (!isSpace ·) = true := by decide
  obtain ⟨before, after, hsplit, -⟩ := List.lookup_eq_some_iff.1 h
  exact spaceless_of_all (hnames (raw, n) (by rw [hsplit]; simp))

theorem spaceless_of_intOperand {form : ConstForm} {raw : String} {n : UInt64}
    (h : intOperand form raw = .ok n) : Spaceless raw.toList := by
  unfold intOperand at h
  split at h
  · exact spaceless_of_namedInteger? ‹_›
  · unfold integer at h
    split at h
    · exact spaceless_of_integer? ‹_›
    · cases h

theorem spaceless_of_byte {raw : String} {n : UInt8} (h : byte raw = .ok n) :
    Spaceless raw.toList := by
  unfold byte at h
  split at h
  · rename_i hread
    obtain ⟨m, hm, -⟩ := Option.map_eq_some_iff.1 hread
    exact spaceless_of_read? hm
  · cases h

theorem spaceless_of_offset {raw : String} {n : Int8} (h : offset raw = .ok n) :
    Spaceless raw.toList := by
  unfold offset at h
  split at h
  · rename_i hread
    unfold Text.Numeral.offset? at hread
    split at hread
    · rename_i ds heq
      obtain ⟨m, hm, -⟩ := Option.map_eq_some_iff.1 hread
      obtain ⟨k, hk, -⟩ := Option.bind_eq_some_iff.1 hm
      rw [heq]
      exact (spaceless_of_magnitude? hk).cons rfl
    · obtain ⟨m, hm, -⟩ := Option.map_eq_some_iff.1 hread
      exact spaceless_of_read? hm
  · cases h

theorem spaceless_of_hexPairs {ds : List Char} {v : List UInt8} (h : Spells HexPair ds v) :
    Spaceless ds := by
  have hdigit {c : Char} {n : Nat} (hc : HexDigit c n) : isSpace c = false :=
    isSpace_of_digitValue? (Option.filter_eq_some_iff.1 (digit?_eq_some_iff.2 hc)).1
  induction h with
  | nil => exact nofun
  | cons hpair _ ih =>
    obtain ⟨ha, hb⟩ := hpair
    exact (ih.cons (hdigit hb)).cons (hdigit ha)

theorem spaceless_of_bytes {raw : String} {v : List UInt8} (h : bytes raw = .ok v)
    (hquote : raw.toList.head? ≠ some '"') : Spaceless raw.toList := by
  generalize heq : raw.toList = cs at hquote
  cases heq ▸ bytes_eq_ok_iff.1 h with
  | hex hds => exact ((spaceless_of_hexPairs hds).cons rfl).cons rfl
  | quoted => exact absurd rfl hquote

/-- The operands of an instruction hold no white space outside quotes. -/
theorem spaceless_of_instruction {k : Keyword} {args : List String} {op : Op String}
    (h : instruction k args = .ok op) :
    ∀ raw ∈ args, raw.toList.head? ≠ some '"' → Spaceless raw.toList := by
  have hlabel {raw name : String} (h : labelName raw = .ok name) : Spaceless raw.toList :=
    spaceless_of_isLabelName (labelName_eq_ok h).2
  revert h
  fun_cases instruction k args with
  | case1 form raw =>
    intro h
    obtain ⟨v, hv, -⟩ := map_eq_ok h
    simpa using fun _ => spaceless_of_intOperand hv
  | case2 form raw =>
    intro h
    obtain ⟨v, hv, -⟩ := map_eq_ok h
    simpa using spaceless_of_bytes hv
  | case3 kind name | case4 name =>
    intro h
    obtain ⟨v, hv, -⟩ := map_eq_ok h
    simpa using fun _ => hlabel hv
  | case5 | case6 =>
    intro h raw hraw _
    obtain ⟨targets, htargets, -⟩ := map_eq_ok h
    exact spaceless_of_isLabelName ((of_mapM_labelName htargets).2 raw hraw)
  | case7 | case8 | case9 => exact fun _ => List.forall_mem_nil _
  | case10 args results =>
    intro h
    cases ha : byte args with
    | error => rw [ha] at h; cases h
    | ok a =>
      cases hr : byte results with
      | error => rw [ha, hr] at h; cases h
      | ok r => simpa using ⟨fun _ => spaceless_of_byte ha, fun _ => spaceless_of_byte hr⟩
  | case11 | case12 =>
    intro h
    obtain ⟨v, hv, -⟩ := map_eq_ok h
    simpa using fun _ => spaceless_of_byte hv
  | case13 | case14 =>
    intro h
    obtain ⟨v, hv, -⟩ := map_eq_ok h
    simpa using fun _ => spaceless_of_offset hv
  | case15 =>
    intro h
    cases h

end Teal.Source
