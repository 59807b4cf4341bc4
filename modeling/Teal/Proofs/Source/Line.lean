import Teal.Proofs.Source.Word
/-!
# Lines that read back

`Op.Writable` says what the lines look like that source text can hold. Every line that is read from
text whose white space is all blanks is such a line, and every such line is read back from the text
it is rendered as.
-/

namespace Teal.Source

open Text (isBlank isSpace Trimmed)

/-! ## Names of labels -/

/-- A name that a line can refer to. -/
structure IsReference (name : String) : Prop where
  label : isLabelName name.toList = true
  comment : startsComment name.toList = false

theorem IsReference.cases {name : String} (h : IsReference name) :
    ∃ c cs, name.toList = c :: cs ∧ c ≠ '"' ∧
      ∀ d ∈ c :: cs, isSpace d = false ∧ d ≠ ':' := by
  have hlabel := h.label
  simp only [isLabelName, Bool.and_eq_true, List.all_eq_true, Bool.not_eq_true',
    bne_iff_ne] at hlabel
  obtain ⟨⟨hne, hquote⟩, hall⟩ := hlabel
  obtain ⟨c, cs, hcons⟩ := List.exists_cons_of_ne_nil (List.isEmpty_eq_false_iff.1 hne)
  rw [hcons] at hquote hall
  exact ⟨c, cs, hcons, by simpa using hquote, fun d hd => (hall d hd).1⟩

theorem IsReference.isWord {name : String} (h : IsReference name) : IsWord name.toList := by
  obtain ⟨c, cs, hcons, hquote, hall⟩ := h.cases
  have hcomment := h.comment
  rw [hcons] at hcomment ⊢
  exact isWord_of_spaceless (fun d hd => (hall d hd).1) hquote hcomment

theorem labelName_eq_ok {raw name : String} (h : labelName raw = .ok name) :
    name = raw ∧ isLabelName raw.toList = true := by
  unfold labelName at h
  split at h
  · rename_i hlabel
    cases h
    exact ⟨rfl, hlabel⟩
  · cases h

end Teal.Source

namespace Teal

open Source
open Text (isBlank isSpace Trimmed)

/-- The lines that source text can hold. -/
def Op.Writable : Op String → Prop
  | .comment text => '\n' ∉ text.toList ∧ ∀ c, text.toList.getLast? = some c → isSpace c = false
  | .label name => IsReference name ∧ pragmaWord.isPrefixOf (name.toList ++ [':']) = false
  | .instr name immediates =>
    (∀ t ∈ name :: immediates, IsWord t.toList) ∧ Keyword.ofText? name = none ∧
      name.toList.getLast? ≠ some ':' ∧ pragmaWord.isPrefixOf name.toList = false
  | op => ∀ name ∈ op.targets, IsReference name

namespace Source

/-! ## Writing lines -/

theorem isPlain_keyword (k : Keyword) :
    k.text.toList ≠ [] ∧ k.text.toList.all isPlain = true := by
  cases k with
  | int form => cases form <;> decide
  | bytes form => cases form <;> decide
  | branch kind => cases kind <;> decide
  | _ => decide

theorem isWord_keyword (k : Keyword) : IsWord k.text.toList :=
  isWord_of_plain (isPlain_keyword k).1 (isPlain_keyword k).2

theorem integer?_of_isDigit {cs : List Char} (h : ∀ c ∈ cs, c.isDigit = true) :
    integer? cs = Text.Numeral.read? 10 UInt64.size cs := by
  have hfilter : cs.filter (· != '_') = cs := by
    refine List.filter_eq_self.2 fun c hc => bne_iff_ne.2 ?_
    rintro rfl
    cases h _ hc
  unfold integer?
  rw [hfilter]
  split
  · cases h 'x' (by simp)
  · cases h 'X' (by simp)
  · cases h 'o' (by simp)
  · rfl

theorem integer_repr (n : UInt64) : integer n.toNat.repr = .ok n := by
  have hread : integer? n.toNat.repr.toList = some n.toNat := by
    rw [Nat.toList_repr, integer?_of_isDigit fun c hc => Text.Numeral.isDigit_of_mem hc,
      Text.Numeral.read?_toDigits n.toNat_lt]
  simp only [integer, hread, UInt64.ofNat_toNat]

theorem namedInteger?_repr (n : Nat) : namedInteger? n.repr = none := by
  rw [namedInteger?, List.lookup_eq_none_iff]
  intro pair hpair
  -- No name of a number is a numeral itself.
  have hnames : ∀ p ∈ integerNames, p.1.toList.all Char.isDigit = false := by decide
  rw [bne_iff_ne]
  intro heq
  have hname := hnames pair hpair
  rw [← heq, Nat.toList_repr, List.all_eq_false] at hname
  obtain ⟨c, hc, hdigit⟩ := hname
  exact hdigit (Text.Numeral.isDigit_of_mem hc)

theorem intOperand_repr (form : ConstForm) (n : UInt64) : intOperand form n.toNat.repr = .ok n := by
  simp only [intOperand, namedInteger?_repr, integer_repr]

theorem bytes_hex (b : List UInt8) :
    bytes ("0x" ++ String.ofList (Text.Hex.encode b)) = .ok b := by
  have htext : ("0x" ++ String.ofList (Text.Hex.encode b)).toList =
      '0' :: 'x' :: Text.Hex.encode b := by
    simp
  simp only [bytes, htext, bytes?, Text.Hex.decode?_encode]

theorem byte_repr (b : UInt8) : byte b.toNat.repr = .ok b := by
  simp only [byte, Nat.toList_repr, Text.Numeral.byte?_toDigits]

theorem offset_repr (o : Int8) : offset o.toInt.repr = .ok o := by
  simp only [offset, Text.Numeral.offset?_repr]

theorem labelName_reference {name : String} (h : IsReference name) :
    labelName name = .ok name := if_pos h.label

theorem mapM_labelName {names : List String} (h : ∀ name ∈ names, IsReference name) :
    names.mapM labelName = .ok names := by
  induction names with
  | nil => rfl
  | cons name names ih =>
    rw [List.mapM_cons, labelName_reference (h name List.mem_cons_self),
      ih fun n hn => h n (List.mem_cons_of_mem name hn)]
    rfl

/-- The operands of a line make the line again. -/
theorem instruction_operands {op : Op String} {k : Keyword} (hk : op.keyword? = some k)
    (h : ∀ name ∈ op.targets, IsReference name) : instruction k op.operands = .ok op := by
  cases op with
  | comment | empty | pragma | label | instr => cases hk
  | retsub | err | ret =>
    cases hk
    rfl
  | int form value =>
    cases hk
    simp only [instruction, Op.operands, Nat.toString_eq_repr, intOperand_repr]
    rfl
  | bytes form value =>
    cases hk
    simp only [instruction, Op.operands, bytes_hex]
    rfl
  | branch kind target =>
    cases hk
    simp only [instruction, Op.operands, labelName_reference (h target List.mem_cons_self)]
    rfl
  | callsub target =>
    cases hk
    simp only [instruction, Op.operands, labelName_reference (h target List.mem_cons_self)]
    rfl
  | switch targets | matchCases targets =>
    cases hk
    have htargets : targets.mapM labelName = .ok targets := mapM_labelName h
    simp only [instruction, Op.operands, htargets]
    rfl
  | proto args results =>
    cases hk
    simp only [instruction, Op.operands, Nat.toString_eq_repr, byte_repr]
    rfl
  | load slot | store slot =>
    cases hk
    simp only [instruction, Op.operands, Nat.toString_eq_repr, byte_repr]
    rfl
  | frameDig offset | frameBury offset =>
    cases hk
    simp only [instruction, Op.operands, Int.toString_eq_repr, offset_repr]
    rfl

theorem isWord_offset (o : Int8) : IsWord o.toInt.repr.toList := by
  rw [Int.repr_eq_if]
  split
  · exact isWord_repr _
  · rw [String.toList_append]
    refine isWord_of_plain (by simp) (List.all_eq_true.2 fun c hc => ?_)
    rcases List.mem_append.1 hc with hc | hc
    · cases List.mem_singleton.1 hc
      decide
    · exact isPlain_of_isDigit (Text.Numeral.isDigit_of_mem (Nat.toList_repr ▸ hc))

theorem isWord_operands {op : Op String} {k : Keyword} (hk : op.keyword? = some k)
    (h : ∀ name ∈ op.targets, IsReference name) : ∀ t ∈ op.operands, IsWord t.toList := by
  intro t ht
  cases op with
  | comment | empty | pragma | label | instr => cases hk
  | retsub | err | ret => cases ht
  | branch kind target | callsub target => exact (h t ht).isWord
  | switch targets | matchCases targets => exact (h t ht).isWord
  | int form value =>
    cases List.mem_singleton.1 ht
    exact isWord_repr _
  | bytes form value =>
    cases List.mem_singleton.1 ht
    simpa using isWord_hex value
  | proto args results =>
    simp only [Op.operands, List.mem_cons, List.not_mem_nil, or_false] at ht
    rcases ht with rfl | rfl
    · exact isWord_repr _
    · exact isWord_repr _
  | load slot | store slot =>
    cases List.mem_singleton.1 ht
    exact isWord_repr _
  | frameDig offset | frameBury offset =>
    cases List.mem_singleton.1 ht
    exact isWord_offset offset

/-- An instruction is rendered as its words with a blank between them. -/
theorem render_instruction {op : Op String} {name : String} (hname : op.mnemonic? = some name)
    (h : ∀ t ∈ name :: op.operands, t.toList ≠ [] ∧ Trimmed t.toList) :
    op.render.toList = [' '].intercalate ((name :: op.operands).map String.toList) := by
  have hwords : ∀ t ∈ (name :: op.operands).map String.toList, t ≠ [] ∧ Trimmed t :=
    List.forall_mem_map.2 h
  have htext : (" ".intercalate (name :: op.operands)).toList =
      [' '].intercalate ((name :: op.operands).map String.toList) := by
    rw [String.toList_intercalate]
    rfl
  cases op with
  | comment | empty | pragma | label => cases hname
  | switch targets | matchCases targets =>
    cases hname
    -- Trimming the line does nothing, since its last word ends in no white space.
    have htrim := Text.trimEnd_eq_self (trimmed_intercalate hwords).last
    rw [← htext] at htrim ⊢
    exact String.toList_ofList.trans htrim
  | _ =>
    cases hname
    exact htext

/-- A text that is a whole line, and reads as the given one. -/
structure ReadsAs (text : List Char) (op : Op String) : Prop where
  trimmed : Trimmed text
  newline : '\n' ∉ text
  line : lineOfChars text = .ok op

theorem readsAs_words {ts : List (List Char)} {op : Op String} (h : ∀ t ∈ ts, IsWord t)
    (hline : lineOfChars ([' '].intercalate ts) = .ok op) : ReadsAs ([' '].intercalate ts) op :=
  ⟨trimmed_words h, newline_intercalate fun t ht => (h t ht).newline, hline⟩

theorem ofTokens_toList {name : String} {args : List String}
    (hcolon : name.toList.getLast? ≠ some ':') :
    ofTokens ((name :: args).map String.toList) =
      match Keyword.ofText? name with
      | some keyword => instruction keyword args
      | none => .ok (.instr name args) := by
  have hargs : (args.map String.toList).map String.ofList = args := by
    simp [List.map_map, Function.comp_def]
  cases hkeyword : Keyword.ofText? name <;>
    simp only [List.map_cons, ofTokens, if_neg hcolon, String.ofList_toList, hargs, hkeyword]

theorem readsAs_instruction {op : Op String} {name : String} (hname : op.mnemonic? = some name)
    (hwords : ∀ t ∈ name :: op.operands, IsWord t.toList)
    (hpragma : pragmaWord.isPrefixOf name.toList = false)
    (hop : ofTokens ((name :: op.operands).map String.toList) = .ok op) :
    ReadsAs op.render.toList op := by
  have hwords' : ∀ t ∈ (name :: op.operands).map String.toList, IsWord t :=
    List.forall_mem_map.2 hwords
  rw [render_instruction hname fun t ht => ⟨(hwords t ht).token.ne_nil, (hwords t ht).trimmed⟩]
  refine readsAs_words hwords' ?_
  rw [← hop]
  exact lineOfChars_intercalate hwords' hpragma

theorem readsAs_keyword {op : Op String} {k : Keyword} (hk : op.keyword? = some k)
    (h : ∀ name ∈ op.targets, IsReference name) : ReadsAs op.render.toList op := by
  have hname : op.mnemonic? = some k.text := by
    cases op <;> simp_all [Op.mnemonic?, Op.keyword?]
  have hspelling : k.text.toList.getLast? ≠ some ':' ∧
      pragmaWord.isPrefixOf k.text.toList = false := by
    cases k with
    | int form => cases form <;> decide
    | bytes form => cases form <;> decide
    | branch kind => cases kind <;> decide
    | _ => decide
  refine readsAs_instruction hname ?_ hspelling.2 ?_
  · intro t ht
    rcases List.mem_cons.1 ht with rfl | ht
    · exact isWord_keyword k
    · exact isWord_operands hk h t ht
  · rw [ofTokens_toList hspelling.1, Keyword.ofText?_text]
    exact instruction_operands hk h

theorem readsAs_comment {text : String} (hnl : '\n' ∉ text.toList)
    (hlast : ∀ c, text.toList.getLast? = some c → isSpace c = false) :
    ReadsAs (Op.comment text).render.toList (.comment text) := by
  have htext : (Op.comment text).render.toList = '/' :: '/' :: text.toList := String.toList_append
  have htrim : Trimmed ('/' :: '/' :: text.toList) := by
    refine ⟨fun c hc => ?_, fun c hc => ?_⟩
    · cases hc
      rfl
    · cases hl : text.toList.getLast? with
      | none =>
        simp only [List.getLast?_cons, hl, Option.getD_none, Option.some.injEq] at hc
        rw [← hc]
        rfl
      | some d =>
        simp only [List.getLast?_cons, hl, Option.getD_some, Option.some.injEq] at hc
        exact hc ▸ hlast d hl
  rw [htext]
  refine ⟨htrim, by simpa using hnl, ?_⟩
  rw [lineOfChars, htrim.trim_eq]
  exact congrArg (fun s => Except.ok (Op.comment s)) (String.ofList_toList)

theorem readsAs_label {name : String} (h : IsReference name)
    (hpragma : pragmaWord.isPrefixOf (name.toList ++ [':']) = false) :
    ReadsAs (Op.label name).render.toList (.label name) := by
  have htext : (Op.label name).render.toList = [' '].intercalate [name.toList ++ [':']] := by
    rw [List.intercalate_singleton]
    exact String.toList_append
  obtain ⟨c, cs, hcons, hquote, hall⟩ := h.cases
  have hspace : ∀ d ∈ c :: (cs ++ [':']), isSpace d = false := by
    intro d hd
    rcases List.mem_append.1 (List.cons_append ▸ hd) with hd | hd
    · exact (hall d hd).1
    · cases List.mem_singleton.1 hd
      rfl
  have hcomment : startsComment (c :: (cs ++ [':'])) = false := by
    rw [← List.cons_append, ← hcons, startsComment_concat (by decide), h.comment]
  have hword : IsWord (name.toList ++ [':']) := by
    rw [hcons, List.cons_append]
    exact isWord_of_spaceless hspace hquote hcomment
  have hwords : ∀ t ∈ [name.toList ++ [':']], IsWord t :=
    fun t ht => List.mem_singleton.1 ht ▸ hword
  rw [htext]
  refine readsAs_words hwords ?_
  rw [lineOfChars_intercalate hwords hpragma, ofTokens, if_pos (by simp), if_pos List.isEmpty_nil,
    List.dropLast_concat, String.ofList_toList, labelName_reference h]
  rfl

theorem readsAs_pragma (v : UInt8) : ReadsAs (Op.pragma v).render.toList (.pragma v) := by
  have htext : (Op.pragma v).render.toList =
      [' '].intercalate [pragmaWord, versionWord, Nat.toDigits 10 v.toNat] := by
    have hstart : "#pragma version ".toList = pragmaWord ++ [' '] ++ (versionWord ++ [' ']) := rfl
    refine String.toList_append.trans ?_
    rw [Nat.toString_eq_repr, Nat.toList_repr, hstart]
    simp only [List.intercalate_cons_cons, List.intercalate_singleton, List.append_assoc]
  have hplain : ∀ t ∈ [pragmaWord, versionWord, Nat.toDigits 10 v.toNat],
      t ≠ [] ∧ t.all isPlain = true := by
    intro t ht
    simp only [List.mem_cons, List.not_mem_nil, or_false] at ht
    rcases ht with rfl | rfl | rfl
    · decide
    · decide
    · refine ⟨Nat.toDigits_ne_nil, List.all_eq_true.2 fun c hc => ?_⟩
      exact isPlain_of_isDigit (Text.Numeral.isDigit_of_mem hc)
  have hwords : ∀ t ∈ [pragmaWord, versionWord, Nat.toDigits 10 v.toNat], IsWord t :=
    fun t ht => isWord_of_plain (hplain t ht).1 (hplain t ht).2
  have hread : Text.words ([' '].intercalate [pragmaWord, versionWord, Nat.toDigits 10 v.toNat]) =
      [pragmaWord, versionWord, Nat.toDigits 10 v.toNat] := by
    refine Text.words_intercalate fun t ht => ⟨(hplain t ht).1, fun c hc => ?_⟩
    exact isSpace_of_isPlain (List.all_eq_true.1 (hplain t ht).2 c hc)
  have hpragma : pragma ([' '].intercalate [pragmaWord, versionWord, Nat.toDigits 10 v.toNat]) =
      .ok (.pragma v) := by
    rw [pragma, hread]
    refine (if_pos ⟨rfl, rfl⟩).trans ?_
    rw [Text.Numeral.byte?_toDigits]
  rw [htext]
  refine readsAs_words hwords ?_
  rw [lineOfChars, (trimmed_words hwords).trim_eq, ← hpragma]
  rfl

/-- Every line that source text can hold is read back. -/
theorem readsAs_render {op : Op String} (h : op.Writable) : ReadsAs op.render.toList op := by
  cases op with
  | comment text => exact readsAs_comment h.1 h.2
  | empty => exact ⟨⟨nofun, nofun⟩, nofun, rfl⟩
  | pragma version => exact readsAs_pragma version
  | label name => exact readsAs_label h.1 h.2
  | instr name immediates =>
    obtain ⟨hwords, hkeyword, hcolon, hpragma⟩ := h
    refine readsAs_instruction rfl hwords hpragma ?_
    rw [ofTokens_toList hcolon, hkeyword]
    rfl
  | _ => exact readsAs_keyword rfl h

/-! ## Reading lines -/

theorem map_eq_ok {ε α β : Type} {f : α → β} {x : Except ε α} {b : β} (h : x.map f = .ok b) :
    ∃ a, x = .ok a ∧ b = f a := by
  cases x with
  | error => cases h
  | ok a => exact ⟨a, rfl, (Except.ok.inj h).symm⟩

theorem of_mapM_labelName {names out : List String} (h : names.mapM labelName = .ok out) :
    out = names ∧ ∀ name ∈ names, isLabelName name.toList = true := by
  induction names generalizing out with
  | nil =>
    cases h
    exact ⟨rfl, nofun⟩
  | cons raw names ih =>
    rw [List.mapM_cons] at h
    cases hraw : labelName raw with
    | error => rw [hraw] at h; cases h
    | ok first =>
      cases hrest : names.mapM labelName with
      | error => rw [hraw, hrest] at h; cases h
      | ok rest =>
        rw [hraw, hrest] at h
        cases h
        obtain ⟨rfl, hlabel⟩ := labelName_eq_ok hraw
        obtain ⟨rfl, hlabels⟩ := ih hrest
        exact ⟨rfl, List.forall_mem_cons.2 ⟨hlabel, hlabels⟩⟩

theorem of_labelName {raw name : String} {names : List String} (h : labelName raw = .ok name)
    (hmem : raw ∈ names) : ∀ n ∈ [name], n ∈ names ∧ isLabelName n.toList = true := by
  intro n hn
  cases List.mem_singleton.1 hn
  obtain ⟨rfl, hlabel⟩ := labelName_eq_ok h
  exact ⟨hmem, hlabel⟩

/-- An instruction that is read has the keyword it was read by, and refers to what its operands
name. -/
theorem of_instruction {k : Keyword} {args : List String} {op : Op String}
    (h : instruction k args = .ok op) :
    op.keyword? = some k ∧ ∀ name ∈ op.targets, name ∈ args ∧ isLabelName name.toList = true := by
  revert h
  fun_cases instruction k args with
  | case1 | case2 | case11 | case12 | case13 | case14 =>
    intro h
    obtain ⟨v, -, rfl⟩ := map_eq_ok h
    exact ⟨rfl, nofun⟩
  | case3 kind name | case4 name =>
    intro h
    obtain ⟨target, htarget, rfl⟩ := map_eq_ok h
    exact ⟨rfl, of_labelName htarget List.mem_cons_self⟩
  | case5 | case6 =>
    intro h
    obtain ⟨targets, htargets, rfl⟩ := map_eq_ok h
    obtain ⟨rfl, hlabels⟩ := of_mapM_labelName htargets
    exact ⟨rfl, fun name hname => ⟨hname, hlabels name hname⟩⟩
  | case7 | case8 | case9 =>
    intro h
    cases h
    exact ⟨rfl, nofun⟩
  | case10 args results =>
    intro h
    cases ha : byte args with
    | error => rw [ha] at h; cases h
    | ok a =>
      cases hr : byte results with
      | error => rw [ha, hr] at h; cases h
      | ok r =>
        rw [ha, hr] at h
        cases h
        exact ⟨rfl, nofun⟩
  | case15 => exact nofun

/-- What tokens are read as: nothing, a declaration, an instruction by its keyword, or an
instruction by their text alone. -/
theorem ofTokens_cases {ts : List (List Char)} {op : Op String} (h : ofTokens ts = .ok op) :
    (ts = [] ∧ op = .empty) ∨
    (∃ name, isLabelName name.toList = true ∧ ts = [name.toList ++ [':']] ∧ op = .label name) ∨
    (∃ k args, ts = (Keyword.text k :: args).map String.toList ∧ instruction k args = .ok op) ∨
    (∃ name args, ts = (name :: args).map String.toList ∧ op = .instr name args) := by
  have hargs (args : List (List Char)) :
      (args.map String.ofList).map String.toList = args := by
    simp [List.map_map, Function.comp_def]
  cases ts with
  | nil =>
    cases h
    exact .inl ⟨rfl, rfl⟩
  | cons head args =>
    rw [ofTokens] at h
    split at h
    · rename_i hcolon
      split at h
      · rename_i hnone
        obtain ⟨name, hname, rfl⟩ := map_eq_ok h
        obtain ⟨rfl, hlabel⟩ := labelName_eq_ok hname
        refine .inr (.inl ⟨_, hlabel, ?_, rfl⟩)
        rw [List.isEmpty_iff.1 hnone, String.toList_ofList,
          List.dropLast_append_getLast? ':' hcolon]
      · cases h
    · split at h
      · rename_i k hk
        refine .inr (.inr (.inl ⟨k, _, ?_, h⟩))
        rw [List.map_cons, hargs, Keyword.text_of_ofText? hk, String.toList_ofList]
      · cases h
        refine .inr (.inr (.inr ⟨_, _, ?_, rfl⟩))
        rw [List.map_cons, hargs, String.toList_ofList]

theorem writable_of_keyword {op : Op String} {k : Keyword} (hk : op.keyword? = some k)
    (h : ∀ name ∈ op.targets, IsReference name) : op.Writable := by
  cases op with
  | comment | label | instr => cases hk
  | _ => exact h

/-- What tokens are read as is a line that source text can hold. -/
theorem writable_of_ofTokens {toks : List (List Char)} {op : Op String}
    (hwords : ∀ t ∈ toks, IsWord t)
    (hpragma : ∀ t ts, toks = t :: ts → pragmaWord.isPrefixOf t = false)
    (h : ofTokens toks = .ok op) : op.Writable := by
  cases toks with
  | nil =>
    cases h
    exact nofun
  | cons head args =>
    have hhead := hwords head List.mem_cons_self
    have hpragma := hpragma head args rfl
    rw [ofTokens] at h
    split at h
    · -- A declaration: the head ends in a colon and nothing follows it.
      rename_i hcolon
      split at h
      · obtain ⟨name, hname, rfl⟩ := map_eq_ok h
        obtain ⟨rfl, hlabel⟩ := labelName_eq_ok hname
        have hsplit : head.dropLast ++ [':'] = head := List.dropLast_append_getLast? ':' hcolon
        have hcomment := hhead.token.startsComment
        rw [← hsplit, startsComment_concat (by decide)] at hcomment
        refine ⟨⟨hlabel, ?_⟩, ?_⟩
        · rwa [String.toList_ofList]
        · rwa [String.toList_ofList, hsplit]
      · cases h
    · rename_i hcolon
      split at h
      · rename_i k hk
        obtain ⟨hkey, htargets⟩ := of_instruction h
        refine writable_of_keyword hkey fun name hname => ?_
        obtain ⟨hmem, hlabel⟩ := htargets name hname
        obtain ⟨t, ht, rfl⟩ := List.mem_map.1 hmem
        have hword := hwords t (List.mem_cons_of_mem head ht)
        exact ⟨hlabel, by rw [String.toList_ofList, hword.token.startsComment]⟩
      · rename_i hk
        cases h
        refine ⟨fun t ht => ?_, hk, ?_, ?_⟩
        · rw [← List.map_cons] at ht
          obtain ⟨u, hu, rfl⟩ := List.mem_map.1 ht
          rw [String.toList_ofList]
          exact hwords u hu
        · rwa [String.toList_ofList]
        · rwa [String.toList_ofList]

theorem pragma_of_ok {cs : List Char} {op : Op String} (h : pragma cs = .ok op) :
    ∃ v, op = .pragma v := by
  unfold pragma at h
  split at h
  · split at h
    · split at h
      · cases h
        exact ⟨_, rfl⟩
      · cases h
    · cases h
  · cases h

/-- A line that is read from text whose white space is all blanks is one that source text can
hold. -/
theorem writable_of_line {text : List Char} {op : Op String}
    (hspace : ∀ c ∈ text, isSpace c = true → isBlank c = true) (hnl : '\n' ∉ text)
    (h : lineOfChars text = .ok op) : op.Writable := by
  have hsub := (Text.trim_sublist text).subset
  have htrim := Text.trimmed_trim text
  unfold lineOfChars at h
  dsimp only at h
  generalize Text.trim text = cs at hsub htrim h
  split at h
  · cases h
    exact nofun
  · rename_i hne
    split at h
    · rename_i hcomment
      cases h
      refine ⟨fun hmem => ?_, fun c hc => htrim.last c ?_⟩
      · rw [String.toList_ofList] at hmem
        exact hnl (hsub (List.mem_of_mem_drop hmem))
      · rw [String.toList_ofList] at hc
        obtain ⟨rest, hrest⟩ := List.drop_suffix 2 cs
        rw [← hrest, List.getLast?_append, hc]
        rfl
    · split at h
      · obtain ⟨v, rfl⟩ := pragma_of_ok h
        exact nofun
      · rename_i hpragma
        split at h
        · rename_i toks htoks
          have htokens := isToken_of_mem htoks
          refine writable_of_ofTokens (fun t ht => ?_) (fun t ts heq => ?_) h
          · obtain ⟨htoken, hmem⟩ := htokens t ht
            exact isWord_of_token htoken (fun h' => hnl (hsub (hmem _ h')))
              fun c hc => hspace c (hsub (hmem c hc))
          · -- The first token starts the line, so it cannot start with a pragma either.
            subst heq
            obtain ⟨c, rest, rfl⟩ := List.exists_cons_of_ne_nil (by simpa using hne)
            have hblank : isBlank c = false := by
              cases hb : isBlank c with
              | false => rfl
              | true => cases (htrim.head c rfl).symm.trans (Text.isSpace_of_isBlank hb)
            have hprefix := prefix_of_tokens? hblank htoks
            rw [List.isPrefixOf_iff_prefix] at hpragma
            rw [← Bool.not_eq_true, List.isPrefixOf_iff_prefix]
            exact fun h' => hpragma (h'.trans hprefix)
        · cases h

end Source

end Teal
