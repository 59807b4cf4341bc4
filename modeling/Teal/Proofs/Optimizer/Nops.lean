import Teal.Proofs.Optimizer.Rounds
/-!
# Comments and blank lines do not matter to the optimizer

Every pass looks past comments and blank lines in a way of its own: for the first line with an
effect, with a flag that they leave alone, or with a label that survives them. So a pass decides
about a line with an effect as if the others were not there, and `strip`, which deletes the others,
commutes with each pass. It then commutes with rounds of passes as well, however many there are.

The comments and blank lines themselves all stay, in their order: `Prunes.nops_eq`.
-/

namespace Teal

namespace Op

variable {ι : Type} {op : Op ι}

theorem declared?_of_isNop (h : op.isNop = true) : op.declared? = none := by
  cases op <;> simp_all [isNop, declared?]

theorem targets_of_isNop (h : op.isNop = true) : op.targets = [] := by
  cases op <;> simp_all [isNop, targets]

theorem retarget_of_isNop (f : ι → ι) (h : op.isNop = true) : op.retarget f = op := by
  cases op <;> simp_all [isNop, retarget]

end Op

namespace Optimizer

/-- The comments and blank lines. -/
def nops (ops : List (Op LabelId)) : List (Op LabelId) :=
  ops.filter (·.isNop)

/-- The lines without comments and blank lines. -/
def strip (ops : List (Op LabelId)) : List (Op LabelId) :=
  ops.filter (!·.isNop)

section Lines
variable {op : Op LabelId} (rest : List (Op LabelId))

theorem strip_cons_of_isNop (h : op.isNop = true) : strip (op :: rest) = strip rest := by
  simp [strip, h]

theorem strip_cons_of_effect (h : op.isNop = false) : strip (op :: rest) = op :: strip rest := by
  simp [strip, h]

theorem firstEffect?_strip (ops : List (Op LabelId)) :
    firstEffect? (strip ops) = firstEffect? ops := by
  simp [firstEffect?, strip, List.find?_filter]

theorem opensSubroutine_strip (ops : List (Op LabelId)) :
    opensSubroutine (strip ops) = opensSubroutine ops := by
  simp only [opensSubroutine, firstEffect?_strip]

theorem branchesToNext_strip (op : Op LabelId) (ops : List (Op LabelId)) :
    branchesToNext op (strip ops) = branchesToNext op ops := by
  simp only [branchesToNext, firstEffect?_strip]

theorem strip_map_retarget (f : LabelId → LabelId) (ops : List (Op LabelId)) :
    strip (ops.map (·.retarget f)) = (strip ops).map (·.retarget f) := by
  simp [strip, List.filter_map, Function.comp_def, Op.isNop_retarget]

end Lines

/-! ## Passes on lines -/

theorem strip_dropLabels (used : LabelId → Bool) (ops : List (Op LabelId)) :
    strip (dropLabels used ops) = dropLabels used (strip ops) := by
  induction ops with
  | nil => rfl
  | cons op rest ih =>
    cases hnop : op.isNop with
    | true =>
      rw [dropLabels_cons_of_none used (Op.declared?_of_isNop hnop), strip_cons_of_isNop _ hnop,
        strip_cons_of_isNop _ hnop, ih]
    | false =>
      rw [strip_cons_of_effect _ hnop]
      cases hid : op.declared? with
      | none =>
        rw [dropLabels_cons_of_none used hid, dropLabels_cons_of_none used hid,
          strip_cons_of_effect _ hnop, ih]
      | some id =>
        -- Whether a subroutine opens here is told by the first line with an effect.
        simp only [dropLabels, hid, opensSubroutine_strip]
        split
        · rw [strip_cons_of_effect _ hnop, ih]
        · exact ih

theorem strip_dropDead (dead : Bool) (ops : List (Op LabelId)) :
    strip (dropDead dead ops) = dropDead dead (strip ops) := by
  induction ops generalizing dead with
  | nil => rfl
  | cons op rest ih =>
    cases hnop : op.isNop with
    | true =>
      have hflow := Op.endsFlow_of_skipped (Op.skipped_of_isNop hnop)
      have hkeep : dropDead dead (op :: rest) = op :: dropDead dead rest := by
        simp [dropDead, Op.declared?_of_isNop hnop, hnop, hflow]
      rw [hkeep, strip_cons_of_isNop _ hnop, strip_cons_of_isNop _ hnop, ih]
    | false =>
      rw [strip_cons_of_effect _ hnop]
      simp only [dropDead]
      split
      · exact ih true
      · rw [strip_cons_of_effect _ hnop, ih]

theorem strip_dropBranches (ops : List (Op LabelId)) :
    strip (dropBranches ops) = dropBranches (strip ops) := by
  induction ops with
  | nil => rfl
  | cons op rest ih =>
    cases hnop : op.isNop with
    | true =>
      rw [dropBranches_of_skipped (Op.skipped_of_isNop hnop), strip_cons_of_isNop _ hnop,
        strip_cons_of_isNop _ hnop, ih]
    | false =>
      rw [strip_cons_of_effect _ hnop]
      simp only [dropBranches, branchesToNext_strip]
      split
      · exact ih
      · rw [strip_cons_of_effect _ hnop, ih]

/-- The label that the lines follow survives comments, so the same labels are replaced. -/
theorem collapse_strip (survivor : Option LabelId) (ops : List (Op LabelId)) :
    collapse survivor (strip ops) =
      (strip (collapse survivor ops).1, (collapse survivor ops).2) := by
  induction ops generalizing survivor with
  | nil => rfl
  | cons op rest ih =>
    cases hop : op.declared? with
    | none =>
      rw [collapse_other rest hop]
      cases hnop : op.isNop with
      | true =>
        rw [strip_cons_of_isNop _ hnop, if_pos rfl, strip_cons_of_isNop _ hnop]
        exact ih survivor
      | false =>
        rw [strip_cons_of_effect _ hnop, strip_cons_of_effect _ hnop, collapse_other _ hop, ih,
          hnop]
    | some id =>
      have hnop := Op.isNop_of_declared hop
      rw [strip_cons_of_effect _ hnop]
      cases survivor with
      | none => rw [collapse_label _ hop, collapse_label _ hop, ih, strip_cons_of_effect _ hnop]
      | some first => rw [collapse_merged _ hop, collapse_merged _ hop, ih]

theorem Prunes.nops_eq {f : LabelId → LabelId} {ops ops' : List (Op LabelId)}
    (h : Prunes f ops ops') : nops ops' = nops ops := by
  induction h with
  | nil => rfl
  | @keep ops ops' op _ ih =>
    simp only [nops] at ih ⊢
    rw [List.filter_cons, List.filter_cons, Op.isNop_retarget, ih]
    split
    · rename_i hnop
      rw [Op.retarget_of_isNop f hnop]
    · rfl
  | drop hop _ ih =>
    rw [ih]
    simp [nops, hop]

end Optimizer

/-- The listing without comments and blank lines. -/
def Listing.strip (l : Listing) : Listing :=
  { l with ops := Optimizer.strip l.ops }

namespace Optimizer

/-! ## Passes on listings -/

/-- Comments and blank lines refer to nothing. -/
theorem references_strip (l : Listing) (id : LabelId) : l.strip.references id = l.references id := by
  have htargets : ∀ ops : List (Op LabelId),
      (strip ops).flatMap Op.targets = ops.flatMap Op.targets := by
    intro ops
    induction ops with
    | nil => rfl
    | cons op rest ih =>
      cases hnop : op.isNop with
      | true =>
        rw [strip_cons_of_isNop _ hnop, ih, List.flatMap_cons, Op.targets_of_isNop hnop,
          List.nil_append]
      | false => rw [strip_cons_of_effect _ hnop, List.flatMap_cons, List.flatMap_cons, ih]
  rw [Listing.references, Listing.references, Listing.strip, htargets]

theorem Pass.strip_apply (pass : Pass) (l : Listing) :
    (pass.apply l).strip = pass.apply l.strip := by
  cases pass with
  | unusedLabels =>
    simp only [Pass.apply, removeUnusedLabels, references_strip]
    simp only [Listing.strip, strip_dropLabels]
  | deadCode => simp only [Pass.apply, removeDeadCode, Listing.strip, strip_dropDead]
  | redundantBranches =>
    simp only [Pass.apply, removeRedundantBranches, Listing.strip, strip_dropBranches]
  | mergeLabels =>
    simp only [Pass.apply, Optimizer.mergeLabels, Listing.strip, collapse_strip, strip_map_retarget]

theorem strip_round (l : Listing) : (round l).strip = round l.strip := by
  have hpasses : ∀ (passes : List Pass) (l : Listing),
      (passes.foldl (fun l pass => pass.apply l) l).strip =
        passes.foldl (fun l pass => pass.apply l) l.strip := by
    intro passes
    induction passes with
    | nil => exact fun _ => rfl
    | cons pass rest ih =>
      intro l
      rw [List.foldl_cons, List.foldl_cons, ih, pass.strip_apply]
  exact hpasses Pass.all l

/-- However many rounds there may be: a round that changes a listing changes what is left of it
without comments, so with and without them the rounds come to an end at the same time. -/
theorem strip_rounds (limit : Nat) (l : Listing) : (rounds limit l).strip = rounds limit l.strip := by
  rw [rounds_eq_iterate, rounds_eq_iterate]
  exact Function.Semiconj.iterate_right strip_round limit l

/-- Comments and blank lines do not matter to a pass, and neither do they to the optimizer: all of
them stay, in their order, and the other lines become what they become without them. -/
theorem nops_inert (l : Listing) :
    (∀ pass : Pass, nops (pass.apply l).ops = nops l.ops ∧
      (pass.apply l).strip = pass.apply l.strip) ∧
    nops l.optimize.ops = nops l.ops ∧ l.optimize.strip = l.strip.optimize := by
  have hnops : ∀ (l : Listing) (pass : Pass), nops (pass.apply l).ops = nops l.ops := by
    intro l pass
    obtain ⟨f, hprunes, -⟩ := pass.prunes l
    exact hprunes.nops_eq
  refine ⟨fun pass => ⟨hnops l pass, pass.strip_apply l⟩, ?_, strip_rounds maxRounds l⟩
  exact optimize_induction (P := fun l' => nops l'.ops = nops l.ops)
    (fun h pass => (hnops _ pass).trans h) rfl

-- A comment between two labels, one before the label that a branch goes to, and one in dead code.
example : (Listing.optimize { ops := [.branch .ifZero 1, .label 0, .empty, .label 1, .err,
    .comment "dead", .int .pseudo 1, .branch .always 2, .comment "next", .label 2] }).ops =
      [.branch .ifZero 1, .empty, .label 1, .err, .comment "dead", .comment "next"] := by
  decide

end Optimizer

end Teal
