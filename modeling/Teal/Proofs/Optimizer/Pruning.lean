import Mathlib.Order.Fin.Basic
import Teal.Proofs.Optimizer
/-!
# What the optimizer keeps of a listing

A pass deletes lines, keeps the order of the others and changes them at most by renaming what they
refer to. It deletes no comment and no blank line. `Prunes` says this of lines, and `Retains` of
listings, together with what becomes of references: one to a declared label leads to a declared
label again, and one to a label that is declared nowhere stays as it is.

Labels may be declared several times here. A label can then survive in one place and be replaced in
another; what it is replaced by survives where it is declared, so no reference is left without a
declaration.
-/

namespace Teal

namespace Op

variable {ι : Type}

theorem isNop_retarget (f : ι → ι) (op : Op ι) : (op.retarget f).isNop = op.isNop := by
  cases op <;> rfl

theorem targets_retarget (f : ι → ι) (op : Op ι) :
    (op.retarget f).targets = op.targets.map f := by
  cases op <;> rfl

theorem retarget_retarget (f g : ι → ι) (op : Op ι) :
    (op.retarget f).retarget g = op.retarget (g ∘ f) := by
  cases op <;> simp [retarget]

end Op

namespace Optimizer

/-! ## Lines -/

/-- The lines `ops'` are `ops` with some lines deleted, none of them a comment or a blank line, and
the references of the others renamed by `f`. -/
inductive Prunes (f : LabelId → LabelId) : List (Op LabelId) → List (Op LabelId) → Prop
  | nil : Prunes f [] []
  | keep {ops ops'} (op : Op LabelId) : Prunes f ops ops' →
      Prunes f (op :: ops) (op.retarget f :: ops')
  | drop {op : Op LabelId} {ops ops'} : op.isNop = false → Prunes f ops ops' →
      Prunes f (op :: ops) ops'

section Prunes
variable {f : LabelId → LabelId} {ops ops' : List (Op LabelId)}

/-- Without renaming, a line that stays is the same line. -/
theorem Prunes.keep_id (op : Op LabelId) (h : Prunes id ops ops') :
    Prunes id (op :: ops) (op :: ops') := by
  have hkeep := h.keep op
  rwa [Op.retarget_id] at hkeep

theorem prunes_dropLabels (used : LabelId → Bool) (ops : List (Op LabelId)) :
    Prunes id ops (dropLabels used ops) := by
  induction ops with
  | nil => exact .nil
  | cons op rest ih =>
    cases hop : op.declared? with
    | none => exact dropLabels_cons_of_none used hop rest ▸ ih.keep_id op
    | some a =>
      rcases dropLabels_cases used op rest with h | h
      · exact h ▸ ih.keep_id op
      · exact h ▸ ih.drop (Op.isNop_of_declared hop)

theorem prunes_dropDead (dead : Bool) (ops : List (Op LabelId)) :
    Prunes id ops (dropDead dead ops) := by
  induction ops generalizing dead with
  | nil => exact .nil
  | cons op rest ih =>
    simp only [dropDead]
    split
    · rename_i h
      simp only [Bool.and_eq_true, Bool.not_eq_true'] at h
      exact (ih true).drop h.2
    · exact (ih _).keep_id op

theorem prunes_dropBranches (ops : List (Op LabelId)) : Prunes id ops (dropBranches ops) := by
  induction ops with
  | nil => exact .nil
  | cons op rest ih =>
    rcases dropBranches_cases op rest with h | ⟨h, hnext⟩
    · exact h ▸ ih.keep_id op
    · -- Only a branch goes to the next label.
      refine h ▸ ih.drop ?_
      obtain ⟨target, k, rfl, -⟩ := branchesToNext_cases hnext
      rfl

theorem prunes_collapse (f : LabelId → LabelId) (survivor : Option LabelId)
    (ops : List (Op LabelId)) : Prunes f ops ((collapse survivor ops).1.map (·.retarget f)) := by
  induction ops generalizing survivor with
  | nil => exact .nil
  | cons op rest ih =>
    cases hop : op.declared? with
    | none => exact collapse_other rest hop survivor ▸ (ih _).keep op
    | some a =>
      cases survivor with
      | none => exact collapse_label rest hop ▸ (ih _).keep op
      | some first => exact collapse_merged rest hop first ▸ (ih _).drop (Op.isNop_of_declared hop)

theorem Prunes.declaredLabels_subset (h : Prunes f ops ops') :
    declaredLabels ops' ⊆ declaredLabels ops := by
  induction h with
  | nil => exact List.Subset.refl _
  | keep op _ ih =>
    intro a ha
    simp only [declaredLabels, List.mem_filterMap, List.mem_cons, exists_eq_or_imp,
      Op.declared?_retarget] at ha ⊢
    exact ha.imp_right fun ha => List.mem_filterMap.1 (ih (List.mem_filterMap.2 ha))
  | @drop op ops ops' _ _ ih =>
    exact fun a ha =>
      (declaredLabels_sublist (List.sublist_cons_self op ops)).subset (ih ha)

/-- Where the lines that are left come from. -/
theorem Prunes.exists_place (h : Prunes f ops ops') :
    ∃ place : Fin ops'.length → Fin ops.length, StrictMono place ∧
      (∀ j, ops'.get j = (ops.get (place j)).retarget f) ∧
      ∀ i, (ops.get i).isNop = true → ∃ j, place j = i := by
  induction h with
  | nil => exact ⟨id, strictMono_id, fun j => j.elim0, fun i => i.elim0⟩
  | keep op _ ih =>
    obtain ⟨place, hmono, hline, hnop⟩ := ih
    refine ⟨Fin.cases 0 fun j => (place j).succ, ?_, ?_, ?_⟩
    · intro a b hab
      induction b using Fin.cases with
      | zero => exact absurd hab (Nat.not_lt_zero _)
      | succ b =>
        induction a using Fin.cases with
        | zero => exact Fin.succ_pos _
        | succ a => exact Fin.succ_lt_succ_iff.2 (hmono (Fin.succ_lt_succ_iff.1 hab))
    · intro j
      induction j using Fin.cases with
      | zero => rfl
      | succ j => exact hline j
    · intro i hi
      induction i using Fin.cases with
      | zero => exact ⟨0, rfl⟩
      | succ i =>
        obtain ⟨j, rfl⟩ := hnop i hi
        exact ⟨j.succ, rfl⟩
  | drop hop _ ih =>
    obtain ⟨place, hmono, hline, hnop⟩ := ih
    refine ⟨fun j => (place j).succ, ?_, hline, ?_⟩
    · intro a b hab
      exact Fin.succ_lt_succ_iff.2 (hmono hab)
    · intro i hi
      induction i using Fin.cases with
      | zero => cases hop.symm.trans hi
      | succ i =>
        obtain ⟨j, rfl⟩ := hnop i hi
        exact ⟨j, rfl⟩

end Prunes

/-! ## References -/

/-- The label `id'` takes the place of `id` in references: it is declared if `id` was, and otherwise
it is the same label. -/
def Replaces (ops ops' : List (Op LabelId)) (id id' : LabelId) : Prop :=
  (id ∈ declaredLabels ops → id' ∈ declaredLabels ops') ∧ (id ∉ declaredLabels ops → id' = id)

theorem StandsFor.replaces {trim : List (Op LabelId) → List (Op LabelId)}
    {ops ops' : List (Op LabelId)} {id id' : LabelId} (h : StandsFor trim ops ops' id id') :
    Replaces ops ops' id id' := by
  rcases h with ⟨hi, -, hid⟩ | ⟨i, j, hi, hj, -⟩
  · exact ⟨fun hmem => absurd hmem (place?_eq_none.1 hi), fun _ => hid⟩
  · exact ⟨fun _ => mem_declaredLabels_of_place? hj,
      fun hmem => absurd (mem_declaredLabels_of_place? hi) hmem⟩

theorem replaces_mergeLabels (l : Listing) (id : LabelId) :
    Replaces l.ops (mergeLabels l).ops id (replacement (collapse none l.ops).2 id) := by
  have hops : declaredLabels (mergeLabels l).ops = declaredLabels (collapse none l.ops).1 :=
    declaredLabels_map_retarget _ _
  rw [Replaces, hops]
  by_cases hkey : id ∈ (collapse none l.ops).2.map Prod.fst
  · -- The replacement counts that was made last; any of them names a label that stays.
    refine ⟨fun _ => (renames_survive (replacement_mem hkey)).resolve_left nofun, fun hid => ?_⟩
    exact absurd ((renames_sublist none l.ops).subset hkey) hid
  · rw [replacement_of_not_mem hkey]
    refine ⟨fun hid => ?_, fun _ => rfl⟩
    exact ((declared_or_renamed none hid).resolve_left nofun).resolve_right hkey

-- Label 0 stays in one place and is replaced in another, and what replaces label 1 is replaced too.
example : (mergeLabels { ops := [.callsub 0, .callsub 1, .label 0, .label 1, .err, .label 2,
    .label 0] }).ops = [.callsub 2, .callsub 0, .label 0, .err, .label 2] := by
  decide

/-- A pass deletes lines, and the references that are left still lead somewhere. -/
theorem Pass.prunes (pass : Pass) (l : Listing) :
    ∃ f, Prunes f l.ops (pass.apply l).ops ∧
      ∀ op ∈ l.ops, ∀ id ∈ op.targets, Replaces l.ops (pass.apply l).ops id (f id) := by
  cases pass with
  | unusedLabels =>
    refine ⟨id, prunes_dropLabels _ l.ops, fun op hop a ha => ?_⟩
    exact (standsFor_dropLabels (fun id => l.references id != 0) (references_ne_zero hop ha)
      l.ops).replaces
  | deadCode =>
    exact ⟨id, prunes_dropDead false l.ops,
      fun _ _ a _ => (standsFor_dropDead a false l.ops).replaces⟩
  | redundantBranches =>
    exact ⟨id, prunes_dropBranches l.ops, fun _ _ a _ => (standsFor_dropBranches a l.ops).replaces⟩
  | mergeLabels =>
    exact ⟨_, prunes_collapse _ none l.ops, fun _ _ a _ => replaces_mergeLabels l a⟩

theorem Pass.labels (pass : Pass) (l : Listing) : (pass.apply l).labels = l.labels := by
  cases pass <;> rfl

/-! ## Listings -/

/-- What is left of `l` in `l'`: each line of `l'` comes from the line of `l` that `place` gives,
with its references renamed. -/
structure Retains (l l' : Listing) (place : Fin l'.ops.length → Fin l.ops.length)
    (rename : LabelId → LabelId) : Prop where
  labels : l'.labels = l.labels
  order : StrictMono place
  line : ∀ j, l'.ops.get j = (l.ops.get (place j)).retarget rename
  /-- Comments and blank lines are left. -/
  nop : ∀ i, (l.ops.get i).isNop = true → ∃ j, place j = i
  /-- A reference that was left without a declaration is so still. -/
  missing : ∀ j, ∀ id ∈ (l.ops.get (place j)).targets, id ∉ declaredLabels l.ops →
    rename id = id ∧ id ∉ declaredLabels l'.ops
  /-- A reference to a declared label leads to a declared label. -/
  declared : ∀ j, ∀ id ∈ (l.ops.get (place j)).targets, id ∈ declaredLabels l.ops →
    rename id ∈ declaredLabels l'.ops

theorem Retains.refl (l : Listing) : Retains l l id id where
  labels := rfl
  order := strictMono_id
  line _ := (Op.retarget_id _).symm
  nop i _ := ⟨i, rfl⟩
  missing _ _ _ hid := ⟨rfl, hid⟩
  declared _ _ _ hid := hid

theorem Retains.trans {l₁ l₂ l₃ : Listing} {place : Fin l₂.ops.length → Fin l₁.ops.length}
    {place' : Fin l₃.ops.length → Fin l₂.ops.length} {rename rename' : LabelId → LabelId}
    (h : Retains l₁ l₂ place rename) (h' : Retains l₂ l₃ place' rename') :
    Retains l₁ l₃ (place ∘ place') (rename' ∘ rename) := by
  -- A reference of a line that is left in the end was renamed to one of the line in the middle.
  have hmid : ∀ j, ∀ id ∈ (l₁.ops.get (place (place' j))).targets,
      rename id ∈ (l₂.ops.get (place' j)).targets := by
    intro j id hid
    rw [h.line, Op.targets_retarget]
    exact List.mem_map_of_mem hid
  refine ⟨h'.labels.trans h.labels, h.order.comp h'.order, ?_, ?_, ?_, ?_⟩
  · intro j
    rw [h'.line, h.line, Op.retarget_retarget]
    rfl
  · intro i hi
    obtain ⟨k, rfl⟩ := h.nop i hi
    rw [← Op.isNop_retarget rename, ← h.line] at hi
    obtain ⟨j, rfl⟩ := h'.nop k hi
    exact ⟨j, rfl⟩
  · intro j id hid hnot
    obtain ⟨hsame, hnot'⟩ := h.missing (place' j) id hid hnot
    have hmem := hmid j id hid
    rw [hsame] at hmem
    obtain ⟨hsame', hnot''⟩ := h'.missing j id hmem hnot'
    exact ⟨by rw [Function.comp_apply, hsame, hsame'], hnot''⟩
  · intro j id hid hdecl
    exact h'.declared j (rename id) (hmid j id hid) (h.declared (place' j) id hid hdecl)

theorem Pass.retains (pass : Pass) (l : Listing) :
    ∃ place rename, Retains l (pass.apply l) place rename := by
  obtain ⟨f, hprunes, hreplaces⟩ := pass.prunes l
  obtain ⟨place, hmono, hline, hnop⟩ := hprunes.exists_place
  refine ⟨place, f, pass.labels l, hmono, hline, hnop, ?_, ?_⟩
  · intro j id hid hnot
    refine ⟨(hreplaces _ (List.get_mem _ _) id hid).2 hnot, fun hmem => hnot ?_⟩
    exact hprunes.declaredLabels_subset hmem
  · intro j id hid hdecl
    exact (hreplaces _ (List.get_mem _ _) id hid).1 hdecl

/-- Whatever passes are applied to a listing, in whatever order, and so whatever the optimizer does:
the label table stays, the lines that are left keep their order and are the same but for what they
refer to, no comment and no blank line is lost, and no reference loses its declaration. Labels may
be declared any number of times. -/
theorem labels_and_order_kept (l : Listing) :
    (∀ passes : List Pass, ∃ place rename,
      Retains l (passes.foldl (fun l pass => pass.apply l) l) place rename) ∧
    ∃ place rename, Retains l l.optimize place rename := by
  have hpass : ∀ {l' : Listing}, (∃ place rename, Retains l l' place rename) → ∀ pass : Pass,
      ∃ place rename, Retains l (pass.apply l') place rename := by
    rintro l' ⟨place, rename, h⟩ pass
    obtain ⟨place', rename', h'⟩ := pass.retains l'
    exact ⟨_, _, h.trans h'⟩
  have hrefl : ∃ place rename, Retains l l place rename := ⟨id, id, .refl l⟩
  refine ⟨fun passes => ?_, ?_⟩
  · exact passes_induction (P := fun l' => ∃ place rename, Retains l l' place rename) hpass passes
      hrefl
  · exact optimize_induction (P := fun l' => ∃ place rename, Retains l l' place rename) hpass hrefl

end Optimizer

end Teal
