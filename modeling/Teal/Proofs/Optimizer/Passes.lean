import Teal.Optimizer
import Teal.Proofs.Flow
import Teal.Proofs.Optimizer.Alignment
/-!
# Passes that delete lines

A pass works on the rest of a listing line by line, so what it makes of the rest ahead of a line is
the rest ahead of the corresponding line of its result. That is the relation `Trimmed`, and
`Trims.alignment` turns it into an alignment from a few facts about the pass: what it does to
lines that do not execute, to one that does, and to declarations.

Three of the passes delete lines and keep the others as they are.
-/

namespace Teal.Optimizer

variable {l l' : Listing} {f : LabelId → LabelId}

/-- Lines `i` of `ops` and `j` of `ops'` correspond if what lies ahead of `j` is what the pass
`trim` makes of what lies ahead of `i`. -/
def Trimmed (trim : List (Op LabelId) → List (Op LabelId)) (ops ops' : List (Op LabelId))
    (i j : Nat) : Prop :=
  ahead (ops'.drop j) = ahead (trim (ahead (ops.drop i)))

/-- The label `id'` of `ops'` stands for the label `id` of `ops`: their declarations correspond, or
neither is declared and they are one label. -/
def StandsFor (trim : List (Op LabelId) → List (Op LabelId)) (ops ops' : List (Op LabelId))
    (id id' : LabelId) : Prop :=
  (place? id ops = none ∧ place? id' ops' = none ∧ id' = id) ∨
    ∃ i j, place? id ops = some i ∧ place? id' ops' = some j ∧ Trimmed trim ops ops' i j

/-- What a pass has to do to the rest of a listing, for its result to be aligned with it. -/
structure Trims (trim : List (Op LabelId) → List (Op LabelId)) (l l' : Listing)
    (f : LabelId → LabelId) : Prop where
  labels : l'.labels = l.labels
  start : ahead l'.ops = ahead (trim (ahead l.ops))
  nil : trim [] = []
  /-- An instruction stays, or it is a branch to the label ahead of it. -/
  instruction : ∀ {i op}, l.ops.drop i = op :: l.ops.drop (i + 1) → op.isExecutable = true →
    (∃ rest, trim (op :: l.ops.drop (i + 1)) = op.retarget f :: rest ∧
      (op.endsFlow = false → ahead rest = ahead (trim (ahead (l.ops.drop (i + 1)))))) ∨
    ∃ id t, op = .branch .always id ∧ l.target? id = some t ∧ i < t ∧ t ≤ l.size ∧
      ahead (trim (op :: l.ops.drop (i + 1))) = ahead (trim (ahead (l.ops.drop t)))
  /-- References still lead to the same place. -/
  declaration : ∀ {op id}, op ∈ l.ops → id ∈ op.targets → StandsFor trim l.ops l'.ops id (f id)

theorem Trims.alignment {trim : List (Op LabelId) → List (Op LabelId)} (h : Trims trim l l' f) :
    Alignment l l' f (Trimmed trim l.ops l'.ops) where
  start := by simpa [Trimmed] using h.start
  fetch {i j} hij := by
    rcases l.fetch?_cases i with ⟨hahead, hf⟩ | ⟨pc, op, hahead, hf, hle, hdrop⟩
    · -- Nothing lies ahead on the left, so nothing does on the right.
      rw [Trimmed, hahead, h.nil] at hij
      rcases l'.fetch?_cases j with ⟨-, hf'⟩ | ⟨pc', op', hahead', -⟩
      · exact .inl ⟨hf, hf'⟩
      · cases hahead'.symm.trans hij
    · rw [Trimmed, hahead] at hij
      have hexec := executable_of_ahead hahead
      rcases h.instruction hdrop hexec with ⟨rest, htrim, hrest⟩ | ⟨id, t, rfl, ht, hlt, hle', heq⟩
      · rw [htrim, ahead_cons_of_executable (Op.isExecutable_retarget f op ▸ hexec)] at hij
        rcases l'.fetch?_cases j with ⟨hahead', -⟩ | ⟨pc', op', hahead', hf', -, -⟩
        · cases hahead'.symm.trans hij
        · obtain ⟨rfl, hrest'⟩ := List.cons.inj (hahead'.symm.trans hij)
          refine .inr (.inl ⟨pc, pc', op, hf, hf', fun hflow => ?_, fun id hid => ?_⟩)
          · rw [Trimmed, hrest', hrest hflow]
          · have hmem : op ∈ l.ops := List.mem_of_mem_drop (hdrop ▸ List.mem_cons_self)
            rcases h.declaration hmem hid with ⟨ht, ht', hid'⟩ | ⟨i', j', ht, ht', hline⟩
            · exact .inr ⟨ht, ht', by rw [h.labels, hid']⟩
            · exact .inl ⟨i', j', ht, ht', hline⟩
      · -- The instruction is a branch that the pass deletes.
        refine .inr (.inr ⟨pc, id, t, hf, ht, Nat.lt_of_le_of_lt hle hlt, hle', ?_⟩)
        rw [Trimmed, hij, heq]

/-! ## Declarations that stay in place -/

section StandsFor
variable {trim : List (Op LabelId) → List (Op LabelId)} {ops ops' : List (Op LabelId)}
  {op : Op LabelId} {id : LabelId}

theorem StandsFor.nil : StandsFor trim [] [] id id := .inl ⟨rfl, rfl, rfl⟩

theorem StandsFor.here (hop : op.declared? = some id)
    (htrim : ahead ops' = ahead (trim (ahead ops))) :
    StandsFor trim (op :: ops) (op :: ops') id id := by
  refine .inr ⟨0, 0, place?_cons_self hop ops, place?_cons_self hop ops', ?_⟩
  have hskip := Op.executable_of_declared hop
  rw [Trimmed, List.drop_zero, List.drop_zero, ahead_cons_of_skipped hskip,
    ahead_cons_of_skipped hskip, htrim]

theorem StandsFor.keep (hop : op.declared? ≠ some id) (h : StandsFor trim ops ops' id id) :
    StandsFor trim (op :: ops) (op :: ops') id id := by
  rw [StandsFor, place?_cons_ne hop, place?_cons_ne hop]
  rcases h with ⟨hi, hj, -⟩ | ⟨i, j, hi, hj, htrim⟩
  · exact .inl ⟨by rw [hi]; rfl, by rw [hj]; rfl, rfl⟩
  · exact .inr ⟨i + 1, j + 1, by rw [hi]; rfl, by rw [hj]; rfl, htrim⟩

theorem StandsFor.drop (hop : op.declared? ≠ some id) (h : StandsFor trim ops ops' id id) :
    StandsFor trim (op :: ops) ops' id id := by
  rw [StandsFor, place?_cons_ne hop]
  rcases h with ⟨hi, hj, -⟩ | ⟨i, j, hi, hj, htrim⟩
  · exact .inl ⟨by rw [hi]; rfl, hj, rfl⟩
  · exact .inr ⟨i + 1, j, by rw [hi]; rfl, hj, htrim⟩

end StandsFor

/-! ## Unused labels -/

section UnusedLabels
variable (used : LabelId → Bool)

theorem dropLabels_cons_of_none {op : Op LabelId} (h : op.declared? = none)
    (rest : List (Op LabelId)) : dropLabels used (op :: rest) = op :: dropLabels used rest := by
  simp only [dropLabels, h]

theorem dropLabels_cons_of_used {op : Op LabelId} {id : LabelId} (h : op.declared? = some id)
    (hused : used id = true) (rest : List (Op LabelId)) :
    dropLabels used (op :: rest) = op :: dropLabels used rest := by
  simp only [dropLabels, h, hused, Bool.true_or, if_true]

theorem dropLabels_cases (op : Op LabelId) (rest : List (Op LabelId)) :
    dropLabels used (op :: rest) = op :: dropLabels used rest ∨
      dropLabels used (op :: rest) = dropLabels used rest := by
  cases hid : op.declared? with
  | none => exact .inl (dropLabels_cons_of_none used hid rest)
  | some id =>
    simp only [dropLabels, hid]
    split
    · exact .inl rfl
    · exact .inr rfl

theorem dropLabels_sublist (ops : List (Op LabelId)) : (dropLabels used ops).Sublist ops := by
  induction ops with
  | nil => exact .slnil
  | cons op rest ih =>
    rcases dropLabels_cases used op rest with h | h
    · exact h ▸ ih.cons_cons op
    · exact h ▸ ih.cons op

theorem ahead_dropLabels (ops : List (Op LabelId)) :
    ahead (dropLabels used ops) = ahead (dropLabels used (ahead ops)) := by
  induction ops with
  | nil => rfl
  | cons op rest ih =>
    cases hexec : op.isExecutable with
    | true => rw [ahead_cons_of_executable hexec]
    | false =>
      rw [ahead_cons_of_skipped hexec, ← ih]
      rcases dropLabels_cases used op rest with h | h
      · rw [h, ahead_cons_of_skipped hexec]
      · rw [h]

theorem standsFor_dropLabels {id : LabelId} (hused : used id = true) (ops : List (Op LabelId)) :
    StandsFor (dropLabels used) ops (dropLabels used ops) id id := by
  induction ops with
  | nil => exact .nil
  | cons op rest ih =>
    by_cases hop : op.declared? = some id
    · rw [dropLabels_cons_of_used used hop hused]
      exact .here hop (ahead_dropLabels used rest)
    · rcases dropLabels_cases used op rest with h | h
      · exact h ▸ ih.keep hop
      · exact h ▸ ih.drop hop

end UnusedLabels

theorem trims_removeUnusedLabels (l : Listing) :
    Trims (dropLabels fun id => l.references id != 0) l (removeUnusedLabels l) id where
  labels := rfl
  start := ahead_dropLabels _ l.ops
  nil := rfl
  instruction {i op} _ hexec := by
    refine .inl ⟨_, ?_, fun _ => ahead_dropLabels _ _⟩
    rw [Op.retarget_id, dropLabels_cons_of_none _ (Op.declared?_of_executable hexec)]
  declaration hop hid :=
    standsFor_dropLabels (fun id => l.references id != 0) (references_ne_zero hop hid) l.ops

/-! ## Dead code -/

section DeadCode

theorem dropDead_false (op : Op LabelId) (rest : List (Op LabelId)) :
    dropDead false (op :: rest) = op :: dropDead op.endsFlow rest := by
  simp [dropDead]

theorem dropDead_of_declared {op : Op LabelId} {id : LabelId} (h : op.declared? = some id)
    (dead : Bool) (rest : List (Op LabelId)) :
    dropDead dead (op :: rest) = op :: dropDead false rest := by
  simp [dropDead, h, Op.endsFlow_of_skipped (Op.executable_of_declared h)]

theorem dropDead_cases (dead : Bool) (op : Op LabelId) (rest : List (Op LabelId)) :
    ∃ dead', dropDead dead (op :: rest) = op :: dropDead dead' rest ∨
      dropDead dead (op :: rest) = dropDead dead' rest := by
  by_cases h : (dead && op.declared?.isNone && !op.isNop) = true
  · exact ⟨true, .inr (by simp only [dropDead, if_pos h])⟩
  · exact ⟨dead && op.declared?.isNone || op.endsFlow, .inl (by simp only [dropDead, if_neg h])⟩

theorem dropDead_sublist (dead : Bool) (ops : List (Op LabelId)) :
    (dropDead dead ops).Sublist ops := by
  induction ops generalizing dead with
  | nil => exact .slnil
  | cons op rest ih =>
    obtain ⟨dead', h | h⟩ := dropDead_cases dead op rest
    · exact h ▸ (ih dead').cons_cons op
    · exact h ▸ (ih dead').cons op

theorem ahead_dropDead (ops : List (Op LabelId)) :
    ahead (dropDead false ops) = ahead (dropDead false (ahead ops)) := by
  induction ops with
  | nil => rfl
  | cons op rest ih =>
    cases hexec : op.isExecutable with
    | true => rw [ahead_cons_of_executable hexec]
    | false =>
      rw [ahead_cons_of_skipped hexec, ← ih, dropDead_false, ahead_cons_of_skipped hexec,
        Op.endsFlow_of_skipped hexec]

/-- A label ends a dead stretch, so what follows its declaration stays as it is. -/
theorem standsFor_dropDead (id : LabelId) (dead : Bool) (ops : List (Op LabelId)) :
    StandsFor (dropDead false) ops (dropDead dead ops) id id := by
  induction ops generalizing dead with
  | nil => exact .nil
  | cons op rest ih =>
    by_cases hop : op.declared? = some id
    · rw [dropDead_of_declared hop]
      exact .here hop (ahead_dropDead rest)
    · obtain ⟨dead', h | h⟩ := dropDead_cases dead op rest
      · exact h ▸ (ih dead').keep hop
      · exact h ▸ (ih dead').drop hop

theorem trims_removeDeadCode (l : Listing) : Trims (dropDead false) l (removeDeadCode l) id where
  labels := rfl
  start := ahead_dropDead l.ops
  nil := rfl
  instruction {i op} _ _ := by
    refine .inl ⟨_, by rw [Op.retarget_id, dropDead_false], fun hflow => ?_⟩
    rw [hflow, ahead_dropDead]
  declaration _ _ := standsFor_dropDead _ false l.ops

end DeadCode

/-! ## Redundant branches -/

section RedundantBranches

theorem branchesToNext_of_skipped {op : Op LabelId} (h : op.isExecutable = false)
    (rest : List (Op LabelId)) : branchesToNext op rest = false := by
  cases op <;> simp_all [branchesToNext, Op.isExecutable]

theorem dropBranches_cases (op : Op LabelId) (rest : List (Op LabelId)) :
    dropBranches (op :: rest) = op :: dropBranches rest ∨
      dropBranches (op :: rest) = dropBranches rest ∧ branchesToNext op rest = true := by
  cases h : branchesToNext op rest with
  | false => exact .inl (by simp only [dropBranches, h, if_false, Bool.false_eq_true])
  | true => exact .inr ⟨by simp only [dropBranches, h, if_true], rfl⟩

theorem dropBranches_of_skipped {op : Op LabelId} (h : op.isExecutable = false)
    (rest : List (Op LabelId)) : dropBranches (op :: rest) = op :: dropBranches rest := by
  rcases dropBranches_cases op rest with h' | ⟨-, h'⟩
  · exact h'
  · cases h'.symm.trans (branchesToNext_of_skipped h rest)

theorem dropBranches_sublist (ops : List (Op LabelId)) : (dropBranches ops).Sublist ops := by
  induction ops with
  | nil => exact .slnil
  | cons op rest ih =>
    rcases dropBranches_cases op rest with h | ⟨h, -⟩
    · exact h ▸ ih.cons_cons op
    · exact h ▸ ih.cons op

theorem ahead_dropBranches (ops : List (Op LabelId)) :
    ahead (dropBranches ops) = ahead (dropBranches (ahead ops)) := by
  induction ops with
  | nil => rfl
  | cons op rest ih =>
    cases hexec : op.isExecutable with
    | true => rw [ahead_cons_of_executable hexec]
    | false =>
      rw [ahead_cons_of_skipped hexec, ← ih, dropBranches_of_skipped hexec,
        ahead_cons_of_skipped hexec]

theorem standsFor_dropBranches (id : LabelId) (ops : List (Op LabelId)) :
    StandsFor dropBranches ops (dropBranches ops) id id := by
  induction ops with
  | nil => exact .nil
  | cons op rest ih =>
    by_cases hop : op.declared? = some id
    · rw [dropBranches_of_skipped (Op.executable_of_declared hop)]
      exact .here hop (ahead_dropBranches rest)
    · rcases dropBranches_cases op rest with h | ⟨h, -⟩
      · exact h ▸ ih.keep hop
      · exact h ▸ ih.drop hop

/-- Only comments and blank lines come before the first line with an effect. -/
theorem place?_of_firstEffect? {id : LabelId} {next : Op LabelId} {ops : List (Op LabelId)}
    (hfirst : firstEffect? ops = some next) (hnext : next.declared? = some id) :
    ∃ k, place? id ops = some k ∧ ahead ops = ahead (ops.drop k) := by
  induction ops with
  | nil => cases hfirst
  | cons op rest ih =>
    cases hnop : op.isNop with
    | false =>
      have hop : op = next := by simpa [firstEffect?, List.find?_cons, hnop] using hfirst
      exact ⟨0, place?_cons_self (hop ▸ hnext) rest, rfl⟩
    | true =>
      have hskip := Op.skipped_of_isNop hnop
      have hne : op.declared? ≠ some id := fun h => by
        cases hnop.symm.trans (Op.isNop_of_declared h)
      obtain ⟨k, hk, hahead⟩ := ih (by simpa [firstEffect?, List.find?_cons, hnop] using hfirst)
      refine ⟨k + 1, by rw [place?_cons_ne hne, hk]; rfl, ?_⟩
      rw [ahead_cons_of_skipped hskip, hahead, List.drop_succ_cons]

/-- A redundant branch leads to the label that comes next, and nothing executes before that. -/
theorem branchesToNext_cases {op : Op LabelId} {rest : List (Op LabelId)}
    (h : branchesToNext op rest = true) :
    ∃ id k, op = .branch .always id ∧ place? id rest = some k ∧
      ahead rest = ahead (rest.drop k) := by
  unfold branchesToNext at h
  split at h
  · rename_i id
    cases hfirst : firstEffect? rest with
    | none => simp [hfirst] at h
    | some next =>
      rw [hfirst] at h
      obtain ⟨k, hk, hahead⟩ := place?_of_firstEffect? hfirst (by simpa using h)
      exact ⟨id, k, rfl, hk, hahead⟩
  · cases h

/-- The label of a redundant branch is not declared before the branch as well, so the branch goes
ahead. -/
def BranchesAhead (l : Listing) : Prop :=
  ∀ x ∈ l.ops.zipIdx, branchesToNext x.1 (l.ops.drop (x.2 + 1)) = true →
    ∀ id ∈ x.1.targets, ∀ t ∈ l.target? id, x.2 < t

instance (l : Listing) : Decidable (BranchesAhead l) :=
  inferInstanceAs (Decidable (∀ x ∈ l.ops.zipIdx, _))

theorem branchesAhead_of_unambiguous {l : Listing} (hl : l.Unambiguous) : BranchesAhead l := by
  intro x _ hnext id hid t ht
  obtain ⟨id', k, hop, hk, -⟩ := branchesToNext_cases hnext
  rw [hop] at hid
  cases List.mem_singleton.1 hid
  cases ht.symm.trans (place?_of_drop hl hk)
  omega

/-- A redundant branch that goes ahead goes to the label that comes next. -/
theorem target?_of_branchesAhead {l : Listing} (hl : BranchesAhead l) {i k : Nat} {id : LabelId}
    (hop : l.ops[i]? = some (.branch .always id))
    (hnext : branchesToNext (.branch .always id) (l.ops.drop (i + 1)) = true)
    (hk : place? id (l.ops.drop (i + 1)) = some k) : l.target? id = some (i + 1 + k) := by
  cases ht : l.target? id with
  | none =>
    have hmem := mem_declaredLabels_of_place? hk
    have hsub := declaredLabels_sublist (List.drop_sublist (i + 1) l.ops)
    exact absurd (hsub.subset hmem) (place?_eq_none.1 ht)
  | some t =>
    have hlt : i < t := hl (.branch .always id, i) (List.mem_zipIdx_iff_getElem?.2 hop) hnext id
      List.mem_cons_self t ht
    cases hk.symm.trans (place?_drop ht hlt)
    rw [Nat.add_sub_cancel' hlt]

theorem trims_removeRedundantBranches {l : Listing} (hl : BranchesAhead l) :
    Trims dropBranches l (removeRedundantBranches l) id where
  labels := rfl
  start := ahead_dropBranches l.ops
  nil := rfl
  instruction {i op} hdrop _ := by
    rcases dropBranches_cases op (l.ops.drop (i + 1)) with h | ⟨h, hnext⟩
    · exact .inl ⟨_, by rw [Op.retarget_id, h], fun _ => ahead_dropBranches _⟩
    · obtain ⟨id, k, rfl, hk, hahead⟩ := branchesToNext_cases hnext
      have hop : l.ops[i]? = some (.branch .always id) := by
        rw [← List.head?_drop, hdrop]
        rfl
      have ht := target?_of_branchesAhead hl hop hnext hk
      refine .inr ⟨id, i + 1 + k, rfl, ht, by omega, place?_le ht, ?_⟩
      rw [h, ahead_dropBranches, hahead, List.drop_drop]
  declaration _ _ := standsFor_dropBranches _ l.ops

end RedundantBranches

end Teal.Optimizer
