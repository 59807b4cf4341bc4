import Teal.Proofs.Expr
import Teal.Proofs.Lint.Canonical
import Teal.Proofs.Lint.Removal
import Teal.Proofs.Source.Numbering
import Teal.Proofs.Source.Operand
/-!
# Columns of missing labels

The remark on a missing label has the columns where its name first occurs in the rendered line. A
name holds no white space, so it occurs within one of the words of the line. The columns are those
of an operand if the first word that holds the name is that operand, and not the mnemonic or an
earlier operand of which the name is only a part, `delimited_iff`.
-/

namespace Teal

namespace Text

open Source (Spaceless)

/-! ## First occurrences -/

/-- What stands before the first occurrence of a word: the word does not end any earlier. -/
def Before (word pre : List Char) : Prop := ¬ word <:+: pre ++ word.dropLast

theorem not_infix_dropLast {word : List Char} (hne : word ≠ []) : ¬ word <:+: word.dropLast := by
  intro h
  have hle := h.length_le
  have hpos := List.length_pos_iff.2 hne
  rw [List.length_dropLast] at hle
  omega

theorem prefix_of_dropLast (pre word post : List Char) :
    pre ++ word.dropLast <+: pre ++ (word ++ post) :=
  (List.prefix_append_right_inj pre).2
    ((List.dropLast_prefix word).trans (List.prefix_append word post))

theorem utf8ByteSize_ofList_cons (c : Char) (cs : List Char) :
    (String.ofList (c :: cs)).utf8ByteSize = c.utf8Size + (String.ofList cs).utf8ByteSize := by
  rw [← List.singleton_append, String.ofList_append, String.utf8ByteSize_append,
    ← String.singleton_eq_ofList, String.utf8ByteSize_singleton]

theorem find?_of_infix {word cs : List Char} (hne : word ≠ []) (h : word <:+: cs) :
    ∃ pre post, cs = pre ++ (word ++ post) ∧ Before word pre ∧
      find? word cs = some (String.ofList pre).utf8ByteSize := by
  induction cs with
  | nil => exact absurd (List.infix_nil.1 h) hne
  | cons c cs ih =>
    by_cases hhere : word <+: c :: cs
    · obtain ⟨post, hpost⟩ := hhere
      refine ⟨[], post, hpost.symm, not_infix_dropLast hne, ?_⟩
      rw [find?, if_pos (List.isPrefixOf_iff_prefix.2 ⟨post, hpost⟩)]
      rfl
    · obtain ⟨pre, post, rfl, hbefore, hfind⟩ := ih ((List.infix_cons_iff.1 h).resolve_left hhere)
      refine ⟨c :: pre, post, rfl, fun hwithin => ?_, ?_⟩
      · -- The word starts at `c`, which it does not, or later, and then it is too early.
        refine (List.infix_cons_iff.1 hwithin).elim (fun hstart => hhere (hstart.trans ?_)) hbefore
        exact List.cons_prefix_cons.2 ⟨rfl, prefix_of_dropLast pre word post⟩
      · rw [find?, if_neg fun hstart => hhere (List.isPrefixOf_iff_prefix.1 hstart), hfind,
          Option.map_some, utf8ByteSize_ofList_cons]

theorem Before.length_le {word pre post pre' post' : List Char} (hne : word ≠ [])
    (heq : pre ++ (word ++ post) = pre' ++ (word ++ post')) (h : Before word pre') :
    pre'.length ≤ pre.length := by
  by_contra hlt
  have hpos := List.length_pos_iff.2 hne
  have hfront : pre ++ word <+: pre' ++ (word ++ post') :=
    ⟨post, by rw [List.append_assoc, heq]⟩
  have hshort : (pre ++ word).length ≤ (pre' ++ word.dropLast).length := by
    rw [List.length_append, List.length_append, List.length_dropLast]
    omega
  have hearly := List.prefix_of_prefix_length_le hfront (prefix_of_dropLast pre' word post') hshort
  exact h ((List.suffix_append pre word).isInfix.trans hearly.isInfix)

/-- There is only one first occurrence. -/
theorem Before.unique {word pre post pre' post' : List Char} (hne : word ≠ [])
    (heq : pre ++ (word ++ post) = pre' ++ (word ++ post')) (h : Before word pre)
    (h' : Before word pre') : pre = pre' ∧ post = post' := by
  have hlength := Nat.le_antisymm (Before.length_le hne heq.symm h) (Before.length_le hne heq h')
  obtain ⟨hpre, hrest⟩ := List.append_inj heq hlength
  exact ⟨hpre, List.append_cancel_left hrest⟩

/-! ## Occurrences within words -/

theorem prefix_of_append {word front back : List Char} {c : Char} (hmem : c ∉ word)
    (h : word <+: front ++ c :: back) : word <+: front := by
  by_contra hnot
  have hfront : front <+: front ++ c :: back := List.prefix_append _ _
  have hlt : front.length < word.length := by
    by_contra hle
    exact hnot (List.prefix_of_prefix_length_le h hfront (Nat.le_of_not_lt hle))
  have hthrough : front ++ [c] <+: word := by
    refine List.prefix_of_prefix_length_le ⟨back, by simp⟩ h ?_
    rw [List.length_append, List.length_singleton]
    exact hlt
  exact hmem (hthrough.subset (by simp))

/-- Without white space in it, a word is on one side of any white space. -/
theorem infix_of_append {word front back : List Char} {c : Char} (hword : Spaceless word)
    (hc : isSpace c = true) (h : word <:+: front ++ c :: back) :
    word <:+: front ∨ word <:+: back := by
  have hmem : c ∉ word := fun hmem => by cases (hword c hmem).symm.trans hc
  induction front with
  | nil =>
    rcases List.infix_cons_iff.1 h with hstart | hback
    · exact .inl (prefix_of_append hmem hstart).isInfix
    · exact .inr hback
  | cons d front ih =>
    rcases List.infix_cons_iff.1 h with hstart | hlater
    · exact .inl (prefix_of_append hmem hstart).isInfix
    · exact (ih hlater).imp_left fun hfront => hfront.trans (List.suffix_cons d front).isInfix

theorem not_infix_intercalate {word : List Char} {ws : List (List Char)} (hne : word ≠ [])
    (hword : Spaceless word) (h : ∀ w ∈ ws, ¬ word <:+: w) :
    ¬ word <:+: [' '].intercalate ws := by
  induction ws with
  | nil => exact fun hnil => hne (List.infix_nil.1 hnil)
  | cons w ws ih =>
    obtain ⟨hw, hws⟩ := List.forall_mem_cons.1 h
    cases ws with
    | nil => rwa [List.intercalate_singleton]
    | cons u us =>
      rw [List.intercalate_cons_cons, List.append_assoc, List.singleton_append]
      exact fun hwithin => (infix_of_append hword (by decide) hwithin).elim hw (ih hws)

theorem pieces_cons (c : Char) (cs : List Char) :
    ∃ w ws, pieces isSpace cs = w :: ws ∧
      pieces isSpace (c :: cs) = if isSpace c then [] :: w :: ws else (c :: w) :: ws := by
  obtain ⟨w, ws, hcs⟩ := List.exists_cons_of_ne_nil (pieces_ne_nil isSpace cs)
  exact ⟨w, ws, hcs, by rw [pieces, hcs]⟩

theorem prefix_of_pieces {cs w : List Char} {ws : List (List Char)}
    (h : pieces isSpace cs = w :: ws) : w <+: cs := by
  induction cs generalizing w ws with
  | nil =>
    cases h
    exact List.prefix_rfl
  | cons c cs ih =>
    obtain ⟨v, vs, hcs, hpieces⟩ := pieces_cons c cs
    rw [hpieces] at h
    split at h
    · cases h
      exact List.nil_prefix
    · cases h
      exact List.cons_prefix_cons.2 ⟨rfl, ih hcs⟩

theorem infix_of_mem_pieces {cs w : List Char} (h : w ∈ pieces isSpace cs) : w <:+: cs := by
  induction cs with
  | nil =>
    cases List.mem_singleton.1 h
    exact List.infix_rfl
  | cons c cs ih =>
    have htail (hw : w ∈ pieces isSpace cs) : w <:+: c :: cs :=
      (ih hw).trans (List.suffix_cons c cs).isInfix
    obtain ⟨v, vs, hcs, hpieces⟩ := pieces_cons c cs
    rw [hpieces] at h
    split at h
    · rcases List.mem_cons.1 h with rfl | hw
      · exact List.nil_infix
      · exact htail (hcs ▸ hw)
    · rcases List.mem_cons.1 h with rfl | hw
      · exact (List.cons_prefix_cons.2 ⟨rfl, prefix_of_pieces hcs⟩).isInfix
      · exact htail (hcs ▸ List.mem_cons_of_mem v hw)

/-- The places where an operand can be: behind a space, and in front of a space or the end. -/
def Delimited (pre post : List Char) : Prop :=
  pre.getLast? = some ' ' ∧ ∀ c, post.head? = some c → c = ' '

theorem intercalate_cons_append (w : List Char) (ws us : List (List Char)) (u : List Char) :
    [' '].intercalate (w :: (ws ++ u :: us)) =
      [' '].intercalate (w :: ws) ++ ' ' :: [' '].intercalate (u :: us) := by
  induction ws generalizing w with
  | nil => simp [List.intercalate_cons_cons]
  | cons v ws ih =>
    rw [List.cons_append, List.intercalate_cons_cons, ih, List.intercalate_cons_cons]
    simp

theorem exists_intercalate_cons (w : List Char) (ws : List (List Char)) :
    ∃ rest, [' '].intercalate (w :: ws) = w ++ rest ∧ ∀ c, rest.head? = some c → c = ' ' := by
  cases ws with
  | nil => exact ⟨[], by simp, nofun⟩
  | cons u us =>
    refine ⟨' ' :: [' '].intercalate (u :: us), ?_, fun c hc => (Option.some.inj hc).symm⟩
    rw [List.intercalate_cons_cons, List.append_assoc, List.singleton_append]

theorem exists_pieces {word post : List Char} (hword : Spaceless word)
    (hpost : ∀ c, post.head? = some c → c = ' ') :
    ∃ ws, pieces isSpace (word ++ post) = word :: ws := by
  cases post with
  | nil => exact ⟨[], by rw [List.append_nil, pieces_word hword]⟩
  | cons c post =>
    obtain rfl := hpost c rfl
    exact ⟨_, by rw [pieces_append (by decide), pieces_word hword]; rfl⟩

/-- Among words, the first occurrence of a word is one of them unless a word before the first such
one has it for a part. -/
theorem delimited_iff {word pre post w : List Char} {ws : List (List Char)} (hne : word ≠ [])
    (hword : Spaceless word) (hws : ∀ u ∈ w :: ws, Spaceless u)
    (heq : [' '].intercalate (w :: ws) = pre ++ (word ++ post)) (hbefore : Before word pre) :
    Delimited pre post ↔
      ∃ front back, ws = front ++ word :: back ∧ ∀ u ∈ w :: front, ¬ word <:+: u := by
  constructor
  · rintro ⟨hpre, hpost⟩
    obtain ⟨lead, rfl⟩ := List.getLast?_eq_some_iff.1 hpre
    obtain ⟨back, hback⟩ := exists_pieces hword hpost
    obtain ⟨v, front, hfront⟩ := List.exists_cons_of_ne_nil (pieces_ne_nil isSpace lead)
    -- Both sides of the equation are cut at the same spaces.
    have hcut := congrArg (pieces isSpace) heq
    rw [pieces_intercalate hws, List.append_assoc, List.singleton_append,
      pieces_append (by decide), hfront, hback, List.cons_append] at hcut
    obtain ⟨rfl, rfl⟩ := List.cons.inj hcut
    refine ⟨front, back, rfl, fun u hu hwithin => hbefore ?_⟩
    rw [List.append_assoc]
    exact (hwithin.trans (infix_of_mem_pieces (hfront ▸ hu))).trans (List.prefix_append _ _).isInfix
  · rintro ⟨front, back, rfl, hfront⟩
    obtain ⟨rest, hrest, hdelim⟩ := exists_intercalate_cons word back
    have hlead : Before word ([' '].intercalate (w :: front) ++ [' ']) := by
      intro hwithin
      rw [List.append_assoc, List.singleton_append] at hwithin
      exact (infix_of_append hword (by decide) hwithin).elim
        (not_infix_intercalate hne hword hfront) (not_infix_dropLast hne)
    rw [intercalate_cons_append, hrest] at heq
    have hsame : ([' '].intercalate (w :: front) ++ [' ']) ++ (word ++ rest) =
        pre ++ (word ++ post) := by
      rw [← heq, List.append_assoc, List.singleton_append]
    obtain ⟨rfl, rfl⟩ := Before.unique hne hsame hlead hbefore
    exact ⟨List.getLast?_concat, hdelim⟩

end Text

open Source (Spaceless isLabelName)

namespace Diagnostic

/-- The columns of a remark are those of a word, between two parts of its text. -/
structure Marks (d : Diagnostic) (text word pre post : String) : Prop where
  text_eq : text = pre ++ word ++ post
  start_eq : d.start = pre.utf8ByteSize
  stop_eq : d.stop = (pre ++ word).utf8ByteSize

theorem marks_spanningWord (d : Diagnostic) {text word : String} (hne : word.toList ≠ [])
    (h : word.toList <:+: text.toList) :
    ∃ pre post, (d.spanningWord text word).Marks text word pre post ∧
      Text.Before word.toList pre.toList := by
  obtain ⟨pre, post, htext, hbefore, hfind⟩ := Text.find?_of_infix hne h
  refine ⟨String.ofList pre, String.ofList post, ⟨?_, ?_, ?_⟩, ?_⟩
  · rw [← String.toList_inj, htext]
    simp
  · simp only [spanningWord, hfind]
  · simp only [spanningWord, hfind, String.utf8ByteSize_append]
  · rwa [String.toList_ofList]

end Diagnostic

namespace Source

theorem isLabelName_of_parse {text : String} {op : Op String} (hop : op ∈ (parse text).ops) :
    ∀ name ∈ op.mentions, isLabelName name.toList = true := by
  rw [parse, parseFrom_ops] at hop
  obtain ⟨cs, -, rfl⟩ := List.mem_map.1 hop
  exact isLabelName_lineOp cs

theorem ofExprs_parse {text : String} {l : Listing}
    (hl : Listing.ofExprs ((parse text).ops.map .line) = .ok l) :
    l = .ofLines (parse text).ops := by
  rw [Listing.ofExprs_lines fun op hop name hname =>
    ne_empty_of_isLabelName (isLabelName_of_parse hop name hname)] at hl
  exact (Except.ok.inj hl).symm

/-- A line that refers to labels is rendered as a keyword and these labels, which are words without
white space. -/
theorem render_of_targets {op : Op String} {name : String} (hname : name ∈ op.targets)
    (hlabels : ∀ n ∈ op.targets, isLabelName n.toList = true) :
    name ∈ op.operands ∧ ∃ mnemonic, op.mnemonic? = some mnemonic ∧
      (∀ w ∈ mnemonic :: op.operands, w.toList ≠ [] ∧ Spaceless w.toList) ∧
      op.render.toList = [' '].intercalate ((mnemonic :: op.operands).map String.toList) := by
  obtain ⟨hoperands, k, hk⟩ :
      op.operands = op.targets ∧ ∃ k, op.mnemonic? = some (Keyword.text k) := by
    cases op with
    | branch | callsub | switch | matchCases => exact ⟨rfl, _, rfl⟩
    | _ => cases hname
  have hwords : ∀ w ∈ k.text :: op.operands, w.toList ≠ [] ∧ Spaceless w.toList := by
    rw [hoperands]
    refine List.forall_mem_cons.2 ⟨⟨(isPlain_keyword k).1, spaceless_keyword k⟩, fun w hw => ?_⟩
    have hlabel := hlabels w hw
    refine ⟨?_, spaceless_of_isLabelName hlabel⟩
    simpa using ne_empty_of_isLabelName hlabel
  refine ⟨hoperands ▸ hname, k.text, hk, hwords, ?_⟩
  exact render_instruction hk fun w hw => ⟨(hwords w hw).1, (hwords w hw).2.trimmed⟩

end Source

namespace Listing

theorem idOf_name {lines : List (Op String)} {id : LabelId} {op : Op LabelId}
    (hop : op ∈ (ofLines lines).ops) (hid : id ∈ op.mentions) :
    (ofLines lines).labels.idOf ((ofLines lines).labels.name id) = id := by
  have hmem : id ∈ (ofLines lines).ops.flatMap Op.mentions := List.mem_flatMap.2 ⟨op, hop, hid⟩
  rw [mentions_ofLines] at hmem
  obtain ⟨name, hname, rfl⟩ := List.mem_map.1 hmem
  have htable : name ∈ (ofLines lines).labels.names := LabelTable.mem_ofList.2 hname
  rw [LabelTable.name_idOf htable]

/-- A label that no line declares by its number is declared nowhere by its name. -/
theorem undeclared_name {lines : List (Op String)} {op : Op LabelId} {id : LabelId}
    (hop : op ∈ (ofLines lines).ops) (hid : id ∈ op.targets)
    (hnone : (ofLines lines).declarations id = []) :
    ∀ op ∈ (ofLines lines).source, op.declared? ≠ some ((ofLines lines).labels.name id) := by
  intro named hnamed hdeclared
  obtain ⟨op', hop', rfl⟩ := List.mem_map.1 hnamed
  rw [Op.declared?_map] at hdeclared
  obtain ⟨id', hid', hsame⟩ := Option.map_eq_some_iff.1 hdeclared
  have heq : id' = id := by
    rw [← idOf_name hop' (List.mem_append_left _ (Option.mem_toList.2 hid')), hsame,
      idOf_name hop (List.mem_append_right _ hid)]
  obtain ⟨line, hline⟩ := List.mem_iff_getElem?.1 hop'
  have hmem := mem_declarations_iff.2 ⟨op', hline, heq ▸ hid'⟩
  rw [hnone] at hmem
  exact List.not_mem_nil hmem

theorem renderLine_of_source {l : Listing} {k : Nat} {op : Op String} (h : l.source[k]? = some op) :
    l.renderLine k = op.render := by
  rw [source, List.getElem?_map] at h
  obtain ⟨op', hop', rfl⟩ := Option.map_eq_some_iff.1 h
  simp only [renderLine, hop']

end Listing

namespace Lint

theorem eq_missingLabel {rule : Rule} (hrule : rule ∈ registry)
    (hname : rule.name = "missing-label") : rule = missingLabel := by
  simp only [registry, List.mem_cons, List.not_mem_nil, or_false] at hrule
  rcases hrule with rfl | rfl | rfl | rfl | rfl | rfl | rfl | rfl | rfl | rfl
  case inr.inr.inr.inr.inl => rfl
  all_goals exact absurd hname (by decide)

/-- The remarks on missing labels are made for references to labels that are nowhere declared. -/
theorem of_mem_lint {lines : List (Op String)} {catalog : Catalog} {config : Config}
    {d : Diagnostic} (hd : d ∈ (Listing.ofLines lines).lint catalog config)
    (hrule : d.rule = "missing-label") :
    ∃ line op name, (Listing.ofLines lines).source[line]? = some op ∧ name ∈ op.targets ∧
      (∀ op ∈ (Listing.ofLines lines).source, op.declared? ≠ some name) ∧
      d = ({ line, severity := .error, rule := "missing-label"
             message := s!"label {name} is not declared" } :
            Diagnostic).spanningWord op.render name := by
  obtain ⟨rule, hmem, hfound⟩ := List.mem_flatMap.1 (Diagnostic.mem_sortByLine.1 hd)
  have hregistry := List.mem_of_mem_filter hmem
  obtain rfl := eq_missingLabel hregistry ((rule_of_mem_found hregistry hfound).symm.trans hrule)
  obtain ⟨⟨line, id⟩, hmissing, rfl⟩ := List.mem_map.1 hfound
  obtain ⟨⟨op, line'⟩, hop, hid⟩ := List.mem_flatMap.1 hmissing
  obtain ⟨id', hid', heq⟩ := List.mem_map.1 hid
  cases heq
  obtain ⟨htarget, hnone⟩ := List.mem_filter.1 hid'
  have hget := List.mem_zipIdx_iff_getElem?.1 hop
  have hsource : (Listing.ofLines lines).source[line]? =
      some (op.map (Listing.ofLines lines).labels.name) := by
    rw [Listing.source, List.getElem?_map, hget, Option.map_some]
  refine ⟨line, _, (Listing.ofLines lines).labels.name id, hsource, ?_, ?_, ?_⟩
  · rw [Op.targets_map]
    exact List.mem_map_of_mem htarget
  · exact Listing.undeclared_name (List.mem_of_getElem? hget) htarget (List.isEmpty_iff.1 hnone)
  · rw [← Listing.renderLine_of_source hsource]

/-- The columns of a name that a line refers to. -/
theorem marks_target {op : Op String} {name : String} (hname : name ∈ op.targets)
    (hlabels : ∀ n ∈ op.targets, isLabelName n.toList = true) (d : Diagnostic) :
    ∃ mnemonic pre post, op.mnemonic? = some mnemonic ∧
      (d.spanningWord op.render name).Marks op.render name pre post ∧
      (Text.Delimited pre.toList post.toList ↔
        ∃ front back, op.operands = front ++ name :: back ∧
          ∀ w ∈ mnemonic :: front, ¬ name.toList <:+: w.toList) := by
  obtain ⟨hoperand, mnemonic, hmnemonic, hwords, hrender⟩ := Source.render_of_targets hname hlabels
  obtain ⟨hne, hspaceless⟩ := hwords name (List.mem_cons_of_mem _ hoperand)
  have hall : ∀ u ∈ mnemonic.toList :: op.operands.map String.toList, Spaceless u := by
    rw [← List.map_cons]
    exact List.forall_mem_map.2 fun w hw => (hwords w hw).2
  rw [List.map_cons] at hrender
  have hwithin : name.toList <:+: op.render.toList := by
    refine Text.infix_of_mem_pieces ?_
    rw [hrender, Text.pieces_intercalate hall]
    exact List.mem_cons_of_mem _ (List.mem_map_of_mem hoperand)
  obtain ⟨pre, post, hmarks, hbefore⟩ := d.marks_spanningWord hne hwithin
  refine ⟨mnemonic, pre, post, hmnemonic, hmarks, ?_⟩
  have htext := hrender.symm.trans (congrArg String.toList hmarks.text_eq)
  rw [String.toList_append, String.toList_append, List.append_assoc] at htext
  rw [Text.delimited_iff hne hspaceless hall htext hbefore]
  constructor
  · rintro ⟨front, back, hsplit, hfront⟩
    obtain ⟨front, rest, hoperands, rfl, hrest⟩ := List.map_eq_append_iff.1 hsplit
    obtain ⟨word, back, rfl, hword, -⟩ := List.map_eq_cons_iff.1 hrest
    obtain rfl := String.toList_inj.1 hword
    rw [← List.map_cons] at hfront
    exact ⟨front, back, hoperands, fun w hw => hfront w.toList (List.mem_map_of_mem hw)⟩
  · rintro ⟨front, back, hoperands, hfront⟩
    refine ⟨front.map String.toList, back.map String.toList, ?_, ?_⟩
    · rw [hoperands, List.map_append, List.map_cons]
    · rw [← List.map_cons]
      exact List.forall_mem_map.2 hfront

/-- A remark on a missing label is on a line that refers to the label, and has the columns of its
name. The name stands there as an operand, between spaces, exactly if neither the mnemonic nor an
operand before the first such one has it for a part. -/
theorem missing_labels_pointed_at {text : String} {l : Listing}
    (hl : Listing.ofExprs ((Source.parse text).ops.map .line) = .ok l) {catalog : Catalog}
    {config : Config} {d : Diagnostic} (hd : d ∈ l.lint catalog config)
    (hrule : d.rule = "missing-label") :
    ∃ op name mnemonic pre post,
      l.source[d.line]? = some op ∧ name ∈ op.targets ∧
      (∀ op ∈ l.source, op.declared? ≠ some name) ∧
      d.message = s!"label {name} is not declared" ∧ op.mnemonic? = some mnemonic ∧
      d.Marks (l.renderLine d.line) name pre post ∧
      (Text.Delimited pre.toList post.toList ↔
        ∃ front back, op.operands = front ++ name :: back ∧
          ∀ w ∈ mnemonic :: front, ¬ name.toList <:+: w.toList) := by
  obtain rfl := Source.ofExprs_parse hl
  obtain ⟨line, op, name, hop, hname, hundeclared, rfl⟩ := of_mem_lint hd hrule
  have hlabels : ∀ n ∈ op.targets, isLabelName n.toList = true := by
    have hmem := List.mem_of_getElem? hop
    rw [Listing.source_ofLines] at hmem
    exact fun n hn => Source.isLabelName_of_parse hmem n (List.mem_append_right _ hn)
  obtain ⟨mnemonic, pre, post, hmnemonic, hmarks, hdelimited⟩ := marks_target hname hlabels _
  refine ⟨op, name, mnemonic, pre, post, ?_, hname, hundeclared, ?_, hmnemonic, ?_, hdelimited⟩
  · rw [Diagnostic.line_spanningWord, hop]
  · rw [Diagnostic.message_spanningWord]
  · rw [Diagnostic.line_spanningWord, Listing.renderLine_of_source hop]
    exact hmarks

/-- A `switch` of which only the first label is declared. -/
theorem missing_labels_pointed_at_second :
    let l := Listing.ofLines (Source.parse "switch loop done\nloop:\n").ops
    let d : Diagnostic :=
      { line := 0, start := 12, stop := 16, severity := .error, rule := "missing-label"
        message := "label done is not declared" }
    Listing.ofExprs ((Source.parse "switch loop done\nloop:\n").ops.map .line) = .ok l ∧
      d ∈ l.lint .standard {} ∧ l.renderLine d.line = "switch loop done" ∧
      ∃ pre post, d.Marks (l.renderLine d.line) "done" pre post ∧
        Text.Delimited pre.toList post.toList := by
  intro l d
  have hl : Listing.ofExprs ((Source.parse "switch loop done\nloop:\n").ops.map .line) = .ok l := by
    decide +kernel
  have hd : d ∈ l.lint .standard {} := by decide +kernel
  obtain ⟨op, name, mnemonic, pre, post, hop, hname, hnone, -, hmnemonic, hmarks, hiff⟩ :=
    missing_labels_pointed_at hl hd rfl
  have hsource : l.source = [.switch ["loop", "done"], .label "loop"] := by decide +kernel
  rw [hsource] at hop hnone
  cases hop
  cases hmnemonic
  obtain rfl : name = "done" := by
    simp only [Op.targets, List.mem_cons, List.not_mem_nil, or_false] at hname
    exact hname.resolve_left fun h => hnone (.label "loop") (by simp) (congrArg some h.symm)
  exact ⟨hl, hd, by decide +kernel, pre, post, hmarks,
    hiff.2 ⟨["loop"], [], rfl, by decide⟩⟩

/-- The columns of a label that is a part of its mnemonic are those of the mnemonic. -/
theorem mnemonic_pointed_at :
    let l := Listing.ofLines (Source.parse "b b\n").ops
    let d : Diagnostic :=
      { line := 0, start := 0, stop := 1, severity := .error, rule := "missing-label"
        message := "label b is not declared" }
    Listing.ofExprs ((Source.parse "b b\n").ops.map .line) = .ok l ∧ d ∈ l.lint .standard {} ∧
      l.renderLine d.line = "b b" ∧
      ∀ pre post, d.Marks (l.renderLine d.line) "b" pre post →
        ¬ Text.Delimited pre.toList post.toList := by
  refine ⟨by decide +kernel, by decide +kernel, by decide +kernel, fun pre post hmarks h => ?_⟩
  obtain rfl := String.utf8ByteSize_eq_zero_iff.1 hmarks.start_eq.symm
  cases h.1

end Lint

end Teal
