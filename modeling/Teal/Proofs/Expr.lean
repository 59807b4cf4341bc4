import Mathlib.Data.List.Induction
import Mathlib.Data.List.Nodup
import Teal.Proofs.Listing
/-!
# The layout of program trees

`Expr.Lays` says by rules which lines trees come to, and `Expr.mentionsAll` lists the names that are
met on the way through them. A program has a listing if none of these names is empty. Its lines are
then the ones laid out, and its table holds the names in the order in which they are first met:
`Listing.ofExprs_represents`.
-/

namespace Teal

/-! ## The names in a program -/

/-- A place where a program names something. -/
inductive Mention where
  /-- A label is declared or referred to. -/
  | label (name : String)
  /-- A subroutine is declared. -/
  | subroutine (name : String)

namespace Mention

def name : Mention → String
  | .label name | .subroutine name => name

/-- What a program is refused for if the name is empty. -/
def refusal : Mention → CompileError
  | .label _ => .emptyLabel
  | .subroutine _ => .unnamedSubroutine

end Mention

namespace Expr

mutual

/-- The places where a tree names something, in order. -/
def mentions : Expr → List Mention
  | .line op => op.mentions.map .label
  | .block label body => label.toList.map .label ++ mentionsAll body
  | .subroutine name _ _ body => .subroutine name :: mentionsAll body

/-- The places where trees name something, one tree after the other. -/
def mentionsAll : List Expr → List Mention
  | [] => []
  | e :: es => mentions e ++ mentionsAll es

end

/-- The names in trees, in order. -/
def names (exprs : List Expr) : List String :=
  (mentionsAll exprs).map Mention.name

end Expr

/-! ## The rules of the layout -/

/-- Nothing but comments and blank lines follows a last `retsub`. -/
def Returning (lines : List (Op String)) : Prop :=
  ∃ before after, lines = before ++ .retsub :: after ∧ ∀ op ∈ after, op.isNop = true

/-- Trees one after the other come to these lines. -/
inductive Expr.Lays : List Expr → List (Op String) → Prop
  | nil : Lays [] []
  | line {op rest lines} : Lays rest lines → Lays (.line op :: rest) (op :: lines)
  | block {body inner rest lines} : Lays body inner → Lays rest lines →
      Lays (.block none body :: rest) (inner ++ lines)
  | labelled {name body inner rest lines} : Lays body inner → Lays rest lines →
      Lays (.block (some name) body :: rest) (.label name :: inner ++ lines)
  /-- The body returns by itself. -/
  | returns {name args results body inner rest lines} : Lays body inner → Returning inner →
      Lays rest lines →
      Lays (.subroutine name args results body :: rest)
        (.label name :: .proto args results :: inner ++ lines)
  /-- The body is left at its end, so a `retsub` is added. -/
  | closes {name args results body inner rest lines} : Lays body inner → ¬ Returning inner →
      Lays rest lines →
      Lays (.subroutine name args results body :: rest)
        (.label name :: .proto args results :: inner ++ .retsub :: lines)

theorem endsWithRetsub_iff {lines : List (Op String)} :
    endsWithRetsub lines = true ↔ Returning lines := by
  have hlast : endsWithRetsub lines = true ↔ lines.reverse.find? (!·.isNop) = some .retsub := by
    unfold endsWithRetsub
    split
    · rename_i h
      simp [h]
    · rename_i h
      exact ⟨nofun, fun hret => absurd hret h⟩
  rw [hlast, List.find?_eq_some_iff_append]
  constructor
  · rintro ⟨-, after, before, hlines, hnop⟩
    refine ⟨before.reverse, after.reverse, ?_, fun op hop => ?_⟩
    · have := congrArg List.reverse hlines
      simpa using this
    · simpa using hnop op (List.mem_reverse.1 hop)
  · rintro ⟨before, after, rfl, hnop⟩
    refine ⟨rfl, after.reverse, before.reverse, by simp, fun op hop => ?_⟩
    simpa using hnop op (List.mem_reverse.1 hop)

namespace Expr

/-- The rules leave no choice. -/
theorem Lays.unique {es : List Expr} {lines lines' : List (Op String)} (h : Lays es lines)
    (h' : Lays es lines') : lines = lines' := by
  induction h generalizing lines' with
  | nil =>
    cases h'
    rfl
  | line _ ih =>
    cases h' with
    | line hrest => rw [ih hrest]
  | block _ _ ihbody ihrest =>
    cases h' with
    | block hbody hrest => rw [ihbody hbody, ihrest hrest]
  | labelled _ _ ihbody ihrest =>
    cases h' with
    | labelled hbody hrest => rw [ihbody hbody, ihrest hrest]
  | returns _ hret _ ihbody ihrest =>
    cases h' with
    | returns hbody _ hrest => rw [ihbody hbody, ihrest hrest]
    | closes hbody hnot => exact absurd (ihbody hbody ▸ hret) hnot
  | closes _ hnot _ ihbody ihrest =>
    cases h' with
    | returns hbody hret => exact absurd (ihbody hbody ▸ hret) hnot
    | closes hbody _ hrest => rw [ihbody hbody, ihrest hrest]

/-- A subroutine returns, whatever its body does. -/
theorem Lays.returning {name : String} {args results : UInt8} {body : List Expr}
    {lines : List (Op String)} (h : Lays [.subroutine name args results body] lines) :
    Returning lines := by
  cases h with
  | returns _ hret hrest =>
    cases hrest
    obtain ⟨before, after, rfl, hnop⟩ := hret
    exact ⟨.label name :: .proto args results :: before, after, by simp, hnop⟩
  | @closes _ _ _ _ inner _ _ _ _ hrest =>
    cases hrest
    exact ⟨.label name :: .proto args results :: inner, [], by simp, nofun⟩

/-- The lines name what the trees name, in the same order. -/
theorem Lays.mentions {es : List Expr} {lines : List (Op String)} (h : Lays es lines) :
    lines.flatMap Op.mentions = names es := by
  have hlabels (names : List String) : (names.map Mention.label).map Mention.name = names := by
    simp [Mention.name, Function.comp_def]
  induction h with
  | nil => rfl
  | line _ ih => simp [names, mentionsAll, Expr.mentions, hlabels, ih]
  | block _ _ ihbody ihrest => simp [names, mentionsAll, Expr.mentions, ihbody, ihrest]
  | labelled _ _ ihbody ihrest | returns _ _ _ ihbody ihrest | closes _ _ _ ihbody ihrest =>
    simp [names, mentionsAll, Expr.mentions, Mention.name, Op.mentions, Op.declared?, Op.targets,
      ihbody, ihrest]

/-! ## Which programs are laid out -/

/-- What a program is refused for: the first empty name in it. -/
def refusal? (mentions : List Mention) : Option CompileError :=
  (mentions.find? (·.name.isEmpty)).map Mention.refusal

theorem refusal?_append (ms ms' : List Mention) :
    refusal? (ms ++ ms') = (refusal? ms).or (refusal? ms') := by
  rw [refusal?, List.find?_append, Option.map_or]
  rfl

/-- The result goes by the names that were met: refused for the first empty one, or `P` holds of the
lines. -/
def Answers (ms : List Mention) (P : List (Op String) → Prop) :
    Except CompileError (List (Op String)) → Prop
  | .error e => refusal? ms = some e
  | .ok lines => refusal? ms = none ∧ P lines

theorem Answers.imp {ms : List Mention} {P Q : List (Op String) → Prop}
    {x : Except CompileError (List (Op String))} (hx : Answers ms P x)
    (h : ∀ lines, P lines → Q lines) : Answers ms Q x := by
  cases x with
  | error e => exact hx
  | ok lines => exact ⟨hx.1, h lines hx.2⟩

theorem answers_ok {P : List (Op String) → Prop} {lines : List (Op String)} (h : P lines) :
    Answers [] P (.ok lines) :=
  ⟨rfl, h⟩

/-- Where one part follows another, the first empty name is in the first part if there is one. -/
theorem Answers.bind {ms ms' : List Mention} {P Q : List (Op String) → Prop}
    {x : Except CompileError (List (Op String))}
    {f : List (Op String) → Except CompileError (List (Op String))} (hx : Answers ms P x)
    (hf : ∀ lines, P lines → Answers ms' Q (f lines)) : Answers (ms ++ ms') Q (x >>= f) := by
  cases x with
  | error e =>
    have hx : refusal? ms = some e := hx
    show refusal? (ms ++ ms') = some e
    rw [refusal?_append, hx]
    rfl
  | ok lines =>
    obtain ⟨hnone, hlines⟩ := hx
    have happend : refusal? (ms ++ ms') = refusal? ms' := by
      rw [refusal?_append, hnone]
      rfl
    show Answers (ms ++ ms') Q (f lines)
    have hrest := hf lines hlines
    revert hrest
    cases f lines with
    | error e => exact fun hrest => happend.trans hrest
    | ok lines' => exact fun hrest => ⟨happend.trans hrest.1, hrest.2⟩

theorem answers_named (op : Op String) :
    Answers (op.mentions.map .label) (· = [op]) op.named := by
  have hrefusal (names : List String) : refusal? (names.map .label) =
      if names.any String.isEmpty then some .emptyLabel else none := by
    induction names with
    | nil => rfl
    | cons name names ih =>
      rw [List.map_cons, List.any_cons, refusal?, List.find?_cons]
      cases hname : (Mention.label name).name.isEmpty with
      | true => rw [show name.isEmpty = true from hname]; rfl
      | false => rw [show name.isEmpty = false from hname]; exact ih
  unfold Op.named
  split
  · rename_i h
    exact (hrefusal _).trans (if_pos h)
  · rename_i h
    exact ⟨(hrefusal _).trans (if_neg h), rfl⟩

/-- A subroutine is refused before anything in it. -/
theorem Answers.subroutine {ms : List Mention} {P : List (Op String) → Prop}
    {x : Except CompileError (List (Op String))} (hx : Answers ms P x) (name : String) :
    Answers (.subroutine name :: ms) P
      (if name.isEmpty then .error .unnamedSubroutine else x) := by
  cases hname : (Mention.subroutine name).name.isEmpty with
  | true =>
    rw [show name.isEmpty = true from hname]
    show refusal? (.subroutine name :: ms) = some .unnamedSubroutine
    rw [refusal?, List.find?_cons, hname]
    rfl
  | false =>
    rw [show name.isEmpty = false from hname]
    have hms : refusal? (.subroutine name :: ms) = refusal? ms := by
      rw [refusal?, List.find?_cons, hname]
      rfl
    cases x with
    | error e => exact hms.trans hx
    | ok lines => exact ⟨hms.trans hx.1, hx.2⟩

mutual

/-- A tree is laid out in front of whatever follows it. -/
theorem flatten_lays (e : Expr) :
    Answers (mentions e)
      (fun first => ∀ rest lines, Lays rest lines → Lays (e :: rest) (first ++ lines))
      (flatten e) := by
  cases e with
  | line op =>
    rw [mentions, flatten]
    refine (answers_named op).imp ?_
    rintro first rfl rest lines hrest
    exact .line hrest
  | block label body =>
    rw [mentions, ← List.append_nil (mentionsAll body)]
    cases label with
    | none =>
      have hopening : Answers [] (· = []) (.ok []) := answers_ok rfl
      refine hopening.bind fun opening hopening => ?_
      refine (flattenAll_lays body).bind fun inner hinner => answers_ok ?_
      intro rest lines hrest
      rw [hopening]
      exact .block hinner hrest
    | some name =>
      refine (answers_named (.label name)).bind fun opening hopening => ?_
      refine (flattenAll_lays body).bind fun inner hinner => answers_ok ?_
      intro rest lines hrest
      rw [hopening]
      exact .labelled hinner hrest
  | subroutine name args results body =>
    rw [mentions, flatten, ← List.append_nil (mentionsAll body)]
    refine Answers.subroutine ?_ name
    refine (flattenAll_lays body).bind fun inner hinner => answers_ok ?_
    intro rest lines hrest
    split
    · rename_i hret
      rw [List.append_nil]
      exact .returns hinner (endsWithRetsub_iff.1 hret) hrest
    · rename_i hret
      rw [List.append_assoc]
      exact .closes hinner (fun h => hret (endsWithRetsub_iff.2 h)) hrest

/-- Trees are laid out by the rules, or refused for the first empty name in them. -/
theorem flattenAll_lays (es : List Expr) : Answers (mentionsAll es) (Lays es) (flattenAll es) := by
  cases es with
  | nil => exact answers_ok .nil
  | cons e es =>
    rw [mentionsAll, flattenAll]
    refine (flatten_lays e).bind fun first hfirst => ?_
    rw [← List.append_nil (mentionsAll es)]
    refine (flattenAll_lays es).bind fun rest hrest => ?_
    exact answers_ok (hfirst es rest hrest)

end

end Expr

/-! ## The table of a program -/

namespace LabelTable

/-- A table holds the names in the order in which they are first mentioned. -/
theorem names_ofList_pairwise (names : List String) :
    (ofList names).names.Pairwise fun a b => names.idxOf a < names.idxOf b := by
  induction names using List.reverseRecOn with
  | nil => exact .nil
  | append_singleton names name ih =>
    have hold {x : String} (hx : x ∈ (ofList names).names) :
        (names ++ [name]).idxOf x = names.idxOf x :=
      List.idxOf_append_of_mem (mem_ofList.1 hx)
    have hkept : (ofList names).names.Pairwise fun a b =>
        (names ++ [name]).idxOf a < (names ++ [name]).idxOf b := by
      refine ih.imp_of_mem fun ha hb hlt => ?_
      rwa [hold ha, hold hb]
    have hinsert : ofList (names ++ [name]) = (ofList names).insert name := by
      rw [ofList, List.foldl_append]
      rfl
    rw [hinsert, insert]
    split
    · exact hkept
    · rename_i hnew
      refine List.pairwise_append.2 ⟨hkept, List.pairwise_singleton _ _, fun a ha b hb => ?_⟩
      cases List.mem_singleton.1 hb
      have hmem := mem_ofList.1 ha
      rw [hold ha, List.idxOf_append_of_notMem fun h => hnew (mem_ofList.2 h)]
      exact Nat.lt_of_lt_of_le (List.idxOf_lt_length_of_mem hmem) (Nat.le_add_right _ _)

/-- Names and numbers determine each other. -/
theorem lookup?_eq_some_iff {t : LabelTable} {name : String} {id : LabelId} :
    t.lookup? name = some id ↔ id < t.size ∧ t.name id = name := by
  rw [lookup?, List.idxOf?_eq_some_iff]
  constructor
  · rintro ⟨hlt, hname, -⟩
    refine ⟨hlt, ?_⟩
    rw [LabelTable.name, List.getElem?_eq_getElem hlt, Option.getD_some, hname]
  · rintro ⟨hlt, hname⟩
    rw [LabelTable.name, List.getElem?_eq_getElem hlt, Option.getD_some] at hname
    refine ⟨hlt, hname, fun j hj heq => ?_⟩
    exact Nat.ne_of_lt hj ((t.nodup.getElem_inj_iff).1 (heq.trans hname.symm))

end LabelTable

theorem Op.mentions_map {ι κ : Type} (f : ι → κ) (op : Op ι) :
    (op.map f).mentions = op.mentions.map f := by
  rw [mentions, mentions, declared?_map, targets_map, List.map_append, Option.toList_map]

theorem Listing.mentions_ofLines (lines : List (Op String)) :
    (ofLines lines).ops.flatMap Op.mentions =
      (lines.flatMap Op.mentions).map (ofLines lines).labels.idOf := by
  simp only [ofLines, List.flatMap_map, Op.mentions_map, List.map_flatMap]

/-- The listing of a program, by what is in the program. -/
structure Listing.Represents (l : Listing) (exprs : List Expr) : Prop where
  /-- The lines are those of the layout, and no others are. -/
  lines : ∀ lines, Expr.Lays exprs lines ↔ lines = l.source
  /-- The table holds the names that are mentioned. -/
  named : ∀ name, name ∈ l.labels.names ↔ name ∈ Expr.names exprs
  /-- It holds them in the order in which they are first mentioned, and so each of them once. -/
  order : l.labels.names.Pairwise fun a b =>
    (Expr.names exprs).idxOf a < (Expr.names exprs).idxOf b
  /-- The number of a name and the name of a number undo each other. -/
  inverse : ∀ name id,
    l.labels.lookup? name = some id ↔ id < l.labels.size ∧ l.labels.name id = name
  /-- The lines mention labels of the table only. -/
  inTable : ∀ op ∈ l.ops, ∀ id ∈ op.mentions, id < l.labels.size
  /-- They mention as many labels as the program mentions names. -/
  count : (l.ops.flatMap Op.mentions).length = (Expr.names exprs).length
  /-- Two of these are one label if they have one name. -/
  identity : ∀ i j, i < (Expr.names exprs).length → j < (Expr.names exprs).length →
    ((l.ops.flatMap Op.mentions)[i]? = (l.ops.flatMap Op.mentions)[j]? ↔
      (Expr.names exprs)[i]? = (Expr.names exprs)[j]?)

theorem Expr.Lays.represents {exprs : List Expr} {lines : List (Op String)}
    (h : Expr.Lays exprs lines) : (Listing.ofLines lines).Represents exprs := by
  have hids := Listing.mentions_ofLines lines
  rw [h.mentions] at hids
  have htable (name : String) :
      name ∈ (Listing.ofLines lines).labels.names ↔ name ∈ Expr.names exprs := by
    rw [Listing.ofLines, LabelTable.mem_ofList, h.mentions]
  have hinj {a b : String} (ha : a ∈ Expr.names exprs) (hb : b ∈ Expr.names exprs)
      (hid : (Listing.ofLines lines).labels.idOf a = (Listing.ofLines lines).labels.idOf b) :
      a = b := by
    rw [← LabelTable.name_idOf ((htable a).2 ha), hid, LabelTable.name_idOf ((htable b).2 hb)]
  exact {
    lines := fun lines' => by
      rw [Listing.source_ofLines]
      exact ⟨fun h' => h'.unique h, fun heq => heq ▸ h⟩
    named := htable
    order := by
      rw [← h.mentions]
      exact LabelTable.names_ofList_pairwise _
    inverse := fun name id => LabelTable.lookup?_eq_some_iff
    inTable := fun op hop id hid => by
      have hmem : id ∈ (Listing.ofLines lines).ops.flatMap Op.mentions :=
        List.mem_flatMap.2 ⟨op, hop, hid⟩
      rw [hids] at hmem
      obtain ⟨name, hname, rfl⟩ := List.mem_map.1 hmem
      exact List.idxOf_lt_length_of_mem ((htable name).2 hname)
    count := by rw [hids, List.length_map]
    identity := fun i j hi hj => by
      rw [hids, List.getElem?_map, List.getElem?_map, List.getElem?_eq_getElem hi,
        List.getElem?_eq_getElem hj, Option.map_some, Option.map_some, Option.some.injEq,
        Option.some.injEq]
      exact ⟨hinj (List.getElem_mem hi) (List.getElem_mem hj), congrArg _⟩ }

/-- A program is refused if it mentions an empty name, for the first one that it mentions. Otherwise
its listing represents it. A subroutine returns at its end, wherever it stands. -/
theorem Listing.ofExprs_represents (exprs : List Expr) :
    (∀ e, Listing.ofExprs exprs = .error e ↔
      ∃ m, (Expr.mentionsAll exprs).find? (·.name.isEmpty) = some m ∧ m.refusal = e) ∧
    (∀ l, Listing.ofExprs exprs = .ok l → l.Represents exprs) ∧
    ∀ name args results body lines,
      Expr.Lays [.subroutine name args results body] lines → Returning lines := by
  have hlays := Expr.flattenAll_lays exprs
  refine ⟨fun e => ?_, fun l hl => ?_, fun _ _ _ _ _ h => h.returning⟩
  · rw [← Option.map_eq_some_iff, ← Expr.refusal?, Listing.ofExprs]
    revert hlays
    cases Expr.flattenAll exprs with
    | error e' =>
      intro hlays
      have hlays : Expr.refusal? (Expr.mentionsAll exprs) = some e' := hlays
      rw [hlays, Option.some.injEq]
      exact Except.error.injEq e' e ▸ Iff.rfl
    | ok lines =>
      rintro ⟨hnone, -⟩
      rw [hnone]
      exact ⟨fun h => (by cases h), fun h => (by cases h)⟩
  · revert hlays hl
    rw [Listing.ofExprs]
    cases Expr.flattenAll exprs with
    | error e =>
      intro _ hl
      cases hl
    | ok lines =>
      rintro ⟨-, h⟩ ⟨⟩
      exact h.represents

end Teal
