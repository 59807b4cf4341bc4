import Teal.Source.Program
import Teal.Proofs.Listing
import Teal.Proofs.Source.Line
/-!
# Line numbers from source to listing

Every line of a source text becomes one line of the program and one line of its listing, so a line
number means the same line in all three. Two things could break this. A line that is refused might
leave no line behind, and a line that is read might mention a label without a name, so that the
program had no listing. Neither happens: a refused line counts as blank, and every name that is read
from a line, in whatever place, has been checked.

What the lines of a text are is said by rules: `Text.SplitsInto`.
-/

namespace Teal

/-! ## The lines of a text -/

namespace Text

/-- A text has the given lines. A newline ends a line, and a carriage return right before it belongs
to the ending; a line at the end of the text needs no ending. -/
inductive SplitsInto : List Char → List (List Char) → Prop
  | nil : SplitsInto [] []
  | last {l} : l ≠ [] → '\n' ∉ l → SplitsInto l [l]
  | newline {l rest ls} : '\n' ∉ l → l.getLast? ≠ some '\r' → SplitsInto rest ls →
      SplitsInto (l ++ '\n' :: rest) (l :: ls)
  | carriage {l rest ls} : '\n' ∉ l → SplitsInto rest ls →
      SplitsInto (l ++ '\r' :: '\n' :: rest) (l :: ls)

section Lines
variable {l rest cs : List Char} {ls : List (List Char)} {c : Char}

theorem lines_of_not_mem (hne : l ≠ []) (hnl : '\n' ∉ l) : lines l = [l] := by
  induction l with
  | nil => exact absurd rfl hne
  | cons c l ih =>
    simp only [List.mem_cons, not_or] at hnl
    have hhead : l.head? ≠ some '\n' := fun h => hnl.2 (List.mem_of_head? h)
    rw [lines_cons (Ne.symm hnl.1) fun _ => hhead]
    by_cases hl : l = []
    · subst hl
      simp [lines]
    · rw [ih hl hnl.2]

theorem lines_append_carriage (hnl : '\n' ∉ l) (rest : List Char) :
    lines (l ++ '\r' :: '\n' :: rest) = l :: lines rest := by
  induction l with
  | nil => simp [lines]
  | cons c l ih =>
    simp only [List.mem_cons, not_or] at hnl
    have hhead : (l ++ '\r' :: '\n' :: rest).head? ≠ some '\n' := by
      intro h
      cases l with
      | nil => simp at h
      | cons d l =>
        simp only [List.cons_append, List.head?_cons, Option.some.injEq] at h
        exact hnl.2 (by simp [h])
    rw [List.cons_append, lines_cons (Ne.symm hnl.1) fun _ => hhead, ih hnl.2]

theorem SplitsInto.lines_eq (h : SplitsInto cs ls) : lines cs = ls := by
  induction h with
  | nil => simp [lines]
  | last hne hnl => exact lines_of_not_mem hne hnl
  | newline hnl hcr _ ih => rw [lines_append hnl hcr, ih]
  | carriage hnl _ ih => rw [lines_append_carriage hnl, ih]

/-- A character that is not part of a line ending goes before the first line. -/
theorem SplitsInto.cons (hc : c ≠ '\n') (hcr : c = '\r' → cs.head? ≠ some '\n')
    (h : SplitsInto cs (l :: ls)) : SplitsInto (c :: cs) ((c :: l) :: ls) := by
  have hmem {l : List Char} (hnl : '\n' ∉ l) : '\n' ∉ c :: l := by
    rw [List.mem_cons, not_or]
    exact ⟨Ne.symm hc, hnl⟩
  cases h with
  | last hne hnl => exact .last (List.cons_ne_nil c _) (hmem hnl)
  | @newline _ rest _ hnl hlast hrest =>
    refine .newline (hmem hnl) ?_ hrest
    cases l with
    | nil =>
      intro hc'
      exact hcr (by simpa using hc') rfl
    | cons d l => rwa [List.getLast?_cons_cons]
  | carriage hnl hrest => exact .carriage (hmem hnl) hrest

theorem splitsInto_lines (cs : List Char) : SplitsInto cs (lines cs) := by
  fun_induction lines cs with
  | case1 => exact .nil
  | case2 cs ih => exact .newline (l := []) List.not_mem_nil (by simp) ih
  | case3 cs ih => exact .carriage (l := []) List.not_mem_nil ih
  | case4 c cs hnl hcr hlines ih =>
    rw [hlines] at ih
    cases ih
    exact .last (List.cons_ne_nil c _) (by simpa using Ne.symm hnl)
  | case5 c cs hnl hcr first rest hlines ih =>
    rw [hlines] at ih
    refine ih.cons hnl ?_
    rintro rfl hhead
    obtain ⟨rest, rfl⟩ : ∃ rest, cs = '\n' :: rest := List.head?_eq_some_iff.1 hhead
    exact hcr rest rfl rfl

end Lines

/-- The rules give every text its lines, and no others. -/
theorem splitsInto_iff {cs : List Char} {ls : List (List Char)} :
    SplitsInto cs ls ↔ ls = lines cs :=
  ⟨fun h => h.lines_eq.symm, fun h => h ▸ splitsInto_lines cs⟩

end Text

namespace Source

/-! ## Names in lines that are read -/

theorem ne_empty_of_isLabelName {name : String} (h : isLabelName name.toList = true) :
    name ≠ "" := by
  rintro rfl
  cases h

theorem declared?_of_keyword {op : Op String} {k : Keyword} (h : op.keyword? = some k) :
    op.declared? = none := by
  cases op with
  | label => cases h
  | _ => rfl

theorem isLabelName_of_ofTokens {tokens : List (List Char)} {op : Op String}
    (h : ofTokens tokens = .ok op) : ∀ name ∈ op.mentions, isLabelName name.toList = true := by
  obtain ⟨-, rfl⟩ | ⟨label, hlabel, -, rfl⟩ | ⟨k, args, -, hop⟩ | ⟨_, _, -, rfl⟩ := ofTokens_cases h
  · exact List.forall_mem_nil _
  · exact List.forall_mem_singleton.2 hlabel
  · obtain ⟨hkey, htargets⟩ := of_instruction hop
    intro name hname
    rw [Op.mentions, declared?_of_keyword hkey] at hname
    exact (htargets name hname).2
  · exact List.forall_mem_nil _

/-- No line that is read mentions a label by what is no name, whatever characters its text holds. -/
theorem isLabelName_of_line {text : List Char} {op : Op String} (h : lineOfChars text = .ok op) :
    ∀ name ∈ op.mentions, isLabelName name.toList = true := by
  unfold lineOfChars at h
  dsimp only at h
  split at h
  · cases h
    exact List.forall_mem_nil _
  · split at h
    · cases h
      exact List.forall_mem_nil _
    · split at h
      · obtain ⟨v, rfl⟩ := pragma_of_ok h
        exact List.forall_mem_nil _
      · split at h
        · exact isLabelName_of_ofTokens h
        · cases h

/-! ## Lines of the program -/

/-- The line of a program that a line of source stands for: blank if it is refused. -/
def lineOp (text : List Char) : Op String :=
  match lineOfChars text with
  | .ok op => op
  | .error _ => .empty

theorem lineOp_of_error {text : List Char} {e : SourceError} (h : lineOfChars text = .error e) :
    lineOp text = .empty := by
  simp only [lineOp, h]

theorem isLabelName_lineOp (text : List Char) :
    ∀ name ∈ (lineOp text).mentions, isLabelName name.toList = true := by
  unfold lineOp
  split
  · rename_i op h
    exact isLabelName_of_line h
  · exact List.forall_mem_nil _

theorem mentions_lineOp (text : List Char) : ∀ name ∈ (lineOp text).mentions, name ≠ "" :=
  fun name hname => ne_empty_of_isLabelName (isLabelName_lineOp text name hname)

theorem parseFrom_cons_ok {text : List Char} {op : Op String} (h : lineOfChars text = .ok op)
    (number : Nat) (rest : List (List Char)) :
    parseFrom number (text :: rest) =
      { ops := op :: (parseFrom (number + 1) rest).ops
        diagnostics := (parseFrom (number + 1) rest).diagnostics } := by
  simp only [parseFrom, h]

theorem parseFrom_cons_error {text : List Char} {e : SourceError} (h : lineOfChars text = .error e)
    (number : Nat) (rest : List (List Char)) :
    parseFrom number (text :: rest) =
      { ops := .empty :: (parseFrom (number + 1) rest).ops
        diagnostics := report number text e :: (parseFrom (number + 1) rest).diagnostics } := by
  simp only [parseFrom, h]

theorem parseFrom_ops (number : Nat) (ls : List (List Char)) :
    (parseFrom number ls).ops = ls.map lineOp := by
  induction ls generalizing number with
  | nil => rfl
  | cons text rest ih =>
    cases h : lineOfChars text with
    | ok op => rw [parseFrom_cons_ok h, ih, List.map_cons, lineOp, h]
    | error e => rw [parseFrom_cons_error h, ih, List.map_cons, lineOp_of_error h]

/-! ## Reports -/

section Reports
variable {number : Nat} {ls : List (List Char)} {d : Diagnostic}

/-- A report is on a line that is refused, and every such line has one. -/
theorem mem_parseFrom_diagnostics :
    d ∈ (parseFrom number ls).diagnostics ↔
      ∃ k text e, ls[k]? = some text ∧ lineOfChars text = .error e ∧
        d = report (number + k) text e := by
  induction ls generalizing number with
  | nil =>
    constructor
    · exact nofun
    · rintro ⟨k, text, e, hk, -⟩
      cases hk
  | cons first rest ih =>
    -- The lines after the first one are counted from the next number.
    have hlater : d ∈ (parseFrom (number + 1) rest).diagnostics ↔
        ∃ k text e, (first :: rest)[k + 1]? = some text ∧ lineOfChars text = .error e ∧
          d = report (number + (k + 1)) text e := by
      rw [ih]
      simp only [List.getElem?_cons_succ, Nat.add_right_comm number 1, Nat.add_assoc]
    constructor
    · intro hd
      cases h : lineOfChars first with
      | ok op =>
        rw [parseFrom_cons_ok h] at hd
        obtain ⟨k, hk⟩ := hlater.1 hd
        exact ⟨k + 1, hk⟩
      | error e =>
        rw [parseFrom_cons_error h] at hd
        rcases List.mem_cons.1 hd with rfl | hd
        · exact ⟨0, first, e, rfl, h, rfl⟩
        · obtain ⟨k, hk⟩ := hlater.1 hd
          exact ⟨k + 1, hk⟩
    · rintro ⟨k, text, e, hk, he, hd⟩
      cases k with
      | zero =>
        cases hk
        rw [parseFrom_cons_error he, hd]
        exact List.mem_cons_self
      | succ k =>
        have hmem := hlater.2 ⟨k, text, e, hk, he, hd⟩
        cases h : lineOfChars first with
        | ok op => exact parseFrom_cons_ok h number rest ▸ hmem
        | error e' => exact parseFrom_cons_error h number rest ▸ List.mem_cons_of_mem _ hmem

/-- The reports come in the order of their lines, one for each. -/
theorem pairwise_parseFrom_diagnostics (number : Nat) (ls : List (List Char)) :
    ((parseFrom number ls).diagnostics.map Diagnostic.line).Pairwise (· < ·) := by
  induction ls generalizing number with
  | nil => exact .nil
  | cons text rest ih =>
    cases h : lineOfChars text with
    | ok op => exact parseFrom_cons_ok h number rest ▸ ih (number + 1)
    | error e =>
      rw [parseFrom_cons_error h, List.map_cons]
      refine List.pairwise_cons.2 ⟨?_, ih (number + 1)⟩
      intro line hline
      obtain ⟨d, hd, rfl⟩ := List.mem_map.1 hline
      obtain ⟨k, text', e', -, -, rfl⟩ := mem_parseFrom_diagnostics.1 hd
      show number < number + 1 + k
      omega

end Reports

/-! ## Lines of the listing -/

/-- A line of a listing is the line it was made of, with each name replaced by its number. -/
theorem getElem?_ofLines {ops : List (Op String)} {k : Nat} {op : Op String}
    (h : ops[k]? = some op) :
    ∃ line, (Listing.ofLines ops).ops[k]? = some line ∧
      line = op.map (Listing.ofLines ops).labels.idOf ∧
      line.map (Listing.ofLines ops).labels.name = op := by
  have hline : (Listing.ofLines ops).ops[k]? =
      some (op.map (Listing.ofLines ops).labels.idOf) := by
    simp only [Listing.ofLines, List.getElem?_map, h, Option.map_some]
  have hsource : (Listing.ofLines ops).source[k]? = some op := by
    rw [Listing.source_ofLines, h]
  rw [Listing.source, List.getElem?_map, hline] at hsource
  exact ⟨_, hline, rfl, Option.some.inj hsource⟩

/-- A text with the lines `ls` is read as one line of the program for each of them, and has a
listing with one line for each. Line `k` of the listing is what line `k` of the text stands for,
with its names replaced by their numbers. The lines that are refused are blank, and they are those
that are reported, in order and once each. -/
theorem parse_keeps_numbers (text : String) :
    ∃ ls, (∀ ls', Text.SplitsInto text.toList ls' ↔ ls' = ls) ∧
      (parse text).ops.length = ls.length ∧
      (∀ (k : Nat) cs, ls[k]? = some cs → (parse text).ops[k]? = some (lineOp cs)) ∧
      (∃ l, Listing.ofExprs ((parse text).ops.map .line) = .ok l ∧ l.size = ls.length ∧
        ∀ (k : Nat) cs, ls[k]? = some cs → ∃ op, l.ops[k]? = some op ∧
          op = (lineOp cs).map l.labels.idOf ∧ op.map l.labels.name = lineOp cs) ∧
      ((parse text).diagnostics.map Diagnostic.line).Pairwise (· < ·) ∧
      (∀ d, d ∈ (parse text).diagnostics ↔
        ∃ k cs e, ls[k]? = some cs ∧ lineOfChars cs = .error e ∧
          d = { line := k, start := 0, stop := (String.ofList cs).utf8ByteSize, severity := .error,
                message := e.message, rule := "parse", suggestion := none }) ∧
      ∀ (k : Nat) cs e, ls[k]? = some cs → lineOfChars cs = .error e →
        (parse text).ops[k]? = some .empty := by
  have hops : (parse text).ops = (Text.lines text.toList).map lineOp := parseFrom_ops 0 _
  have hnamed : ∀ op ∈ (parse text).ops, ∀ name ∈ op.mentions, name ≠ "" := by
    intro op hop
    rw [hops] at hop
    obtain ⟨cs, -, rfl⟩ := List.mem_map.1 hop
    exact mentions_lineOp cs
  have hget : ∀ (k : Nat) cs, (Text.lines text.toList)[k]? = some cs →
      (parse text).ops[k]? = some (lineOp cs) := by
    intro k cs hk
    rw [hops, List.getElem?_map, hk, Option.map_some]
  refine ⟨Text.lines text.toList, fun ls' => Text.splitsInto_iff, ?_, hget,
    ⟨.ofLines (parse text).ops, Listing.ofExprs_lines hnamed, ?_, ?_⟩,
    pairwise_parseFrom_diagnostics 0 _, ?_, ?_⟩
  · rw [hops, List.length_map]
  · rw [Listing.size, Listing.ofLines, hops, List.length_map, List.length_map]
  · exact fun k cs hk => getElem?_ofLines (hget k cs hk)
  · intro d
    rw [parse, mem_parseFrom_diagnostics]
    simp only [Nat.zero_add]
    exact Iff.rfl
  · intro k cs e hk he
    rw [hget k cs hk, lineOp_of_error he]

end Source

end Teal
