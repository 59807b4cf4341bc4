import Mathlib.Logic.Function.Iterate
import Teal.Proofs.Optimizer.Pruning
/-!
# How many rounds settle a listing

A pass that changes a listing deletes a line with an effect, so a listing with `n` such lines is
settled after `n` rounds: `settled_iterate`. For the same reason no pass undoes what another one
did, and a settled listing is one that each pass alone leaves as it is: `settled_iff`.

The optimizer makes 32 rounds at most, and is idempotent on exactly the listings that these settle.
Not all are: in `cascade n` each round deletes one label and the branch behind it, which was all
that the next label was used for.
-/

namespace Teal.Optimizer

/-- The number of lines with an effect. -/
def effects (ops : List (Op LabelId)) : Nat :=
  ops.countP (!·.isNop)

/-- A round changes nothing any more. -/
def Settled (l : Listing) : Prop := round l = l

/-! ## Passes -/

theorem effects_map_retarget (f : LabelId → LabelId) (ops : List (Op LabelId)) :
    effects (ops.map (·.retarget f)) = effects ops := by
  simp [effects, List.countP_map, Function.comp_def, Op.isNop_retarget]

/-- Lines are deleted, or all of them stay. -/
theorem Prunes.effects_cases {f : LabelId → LabelId} {ops ops' : List (Op LabelId)}
    (h : Prunes f ops ops') : ops' = ops.map (·.retarget f) ∨ effects ops' < effects ops := by
  induction h with
  | nil => exact .inl rfl
  | keep op _ ih =>
    rcases ih with rfl | hlt
    · exact .inl rfl
    · right
      simp only [effects, List.countP_cons, Op.isNop_retarget] at hlt ⊢
      omega
  | @drop op ops ops' hop _ ih =>
    have hle : effects ops' ≤ effects ops := by
      rcases ih with rfl | hlt
      · exact Nat.le_of_eq (effects_map_retarget f ops)
      · exact Nat.le_of_lt hlt
    right
    simp only [effects, List.countP_cons, hop] at hle ⊢
    simp only [Bool.not_false, if_true]
    omega

/-- Every label that is replaced is a line that is deleted. -/
theorem length_collapse_le (survivor : Option LabelId) (ops : List (Op LabelId)) :
    (collapse survivor ops).1.length + (collapse survivor ops).2.length ≤ ops.length := by
  induction ops generalizing survivor with
  | nil => exact Nat.le_refl _
  | cons op rest ih =>
    cases hop : op.declared? with
    | none =>
      have hle := ih (if op.isNop then survivor else none)
      rw [collapse_other rest hop]
      simp only [List.length_cons]
      omega
    | some a =>
      cases survivor with
      | none =>
        have hle := ih (some a)
        rw [collapse_label rest hop]
        simp only [List.length_cons]
        omega
      | some first =>
        have hle := ih (some first)
        rw [collapse_merged rest hop]
        dsimp only
        split
        · simp only [List.length_cons]
          omega
        · simp only [List.length_cons]
          omega

theorem mergeLabels_cases (l : Listing) :
    mergeLabels l = l ∨ effects (mergeLabels l).ops < effects l.ops := by
  rcases (prunes_collapse (replacement (collapse none l.ops).2) none l.ops).effects_cases with
    heq | hlt
  · -- No line was deleted, so no label was replaced.
    left
    have hlen : (collapse none l.ops).1.length = l.ops.length := by
      simpa using congrArg List.length heq
    have hsame : (collapse none l.ops).1 = l.ops := (collapse_sublist none l.ops).eq_of_length hlen
    have hnil : (collapse none l.ops).2 = [] := by
      have hle := length_collapse_le none l.ops
      exact List.length_eq_zero_iff.1 (by omega)
    have hid : ∀ op : Op LabelId, op.retarget (replacement []) = op := Op.retarget_id
    simp [mergeLabels, hnil, hsame, hid]
  · exact .inr hlt

theorem apply_cases_of_prunes {l l' : Listing} (hlabels : l'.labels = l.labels)
    (h : Prunes id l.ops l'.ops) : l' = l ∨ effects l'.ops < effects l.ops := by
  rcases h.effects_cases with heq | hlt
  · left
    obtain ⟨ops', labels'⟩ := l'
    obtain ⟨ops, labels⟩ := l
    simp only [Op.retarget_id, List.map_id'] at heq hlabels
    rw [heq, hlabels]
  · exact .inr hlt

/-- A pass changes nothing, or leaves fewer lines with an effect. -/
theorem Pass.apply_cases (pass : Pass) (l : Listing) :
    pass.apply l = l ∨ effects (pass.apply l).ops < effects l.ops := by
  cases pass with
  | unusedLabels => exact apply_cases_of_prunes rfl (prunes_dropLabels _ l.ops)
  | deadCode => exact apply_cases_of_prunes rfl (prunes_dropDead false l.ops)
  | redundantBranches => exact apply_cases_of_prunes rfl (prunes_dropBranches l.ops)
  | mergeLabels => exact mergeLabels_cases l

/-! ## Rounds -/

theorem passes_cases (passes : List Pass) (l : Listing) :
    passes.foldl (fun l pass => pass.apply l) l = l ∨
      effects (passes.foldl (fun l pass => pass.apply l) l).ops < effects l.ops := by
  induction passes generalizing l with
  | nil => exact .inl rfl
  | cons pass rest ih =>
    rw [List.foldl_cons]
    rcases pass.apply_cases l with heq | hlt
    · rw [heq]
      exact ih l
    · rcases ih (pass.apply l) with heq' | hlt'
      · rw [heq']
        exact .inr hlt
      · exact .inr (Nat.lt_trans hlt' hlt)

theorem round_cases (l : Listing) : Settled l ∨ effects (round l).ops < effects l.ops :=
  passes_cases Pass.all l

/-- The rounds of the optimizer stop early only where they would change nothing. -/
theorem rounds_eq_iterate (n : Nat) (l : Listing) : rounds n l = round^[n] l := by
  induction n generalizing l with
  | zero => rfl
  | succ n ih =>
    rw [Function.iterate_succ_apply, ← ih]
    simp only [rounds]
    split
    · rename_i hops
      have hsettled : round l = l := by
        rcases round_cases l with hsettled | hlt
        · exact hsettled
        · exact absurd (congrArg effects hops) (Nat.ne_of_lt hlt)
      rw [hsettled, ih, Function.iterate_fixed hsettled]
    · rfl

theorem optimize_eq_iterate (l : Listing) : l.optimize = round^[maxRounds] l :=
  rounds_eq_iterate maxRounds l

/-- Rounds leave fewer and fewer lines with an effect until nothing changes. -/
theorem settled_or_effects_iterate (n : Nat) (l : Listing) :
    Settled (round^[n] l) ∨ effects (round^[n] l).ops + n ≤ effects l.ops := by
  induction n with
  | zero => exact .inr (Nat.le_refl _)
  | succ n ih =>
    rw [Function.iterate_succ_apply']
    rcases round_cases (round^[n] l) with hsettled | hlt
    · left
      rw [show round (round^[n] l) = round^[n] l from hsettled]
      exact hsettled
    · rcases ih with hsettled | hle
      · exact absurd (congrArg (effects ·.ops) hsettled) (Nat.ne_of_lt hlt)
      · right
        omega

/-- As many rounds as there are lines with an effect settle a listing. -/
theorem settled_iterate {n : Nat} {l : Listing} (h : effects l.ops ≤ n) :
    Settled (round^[n] l) := by
  rcases settled_or_effects_iterate n l with hsettled | hle
  · exact hsettled
  · rcases round_cases (round^[n] l) with hsettled | hlt
    · exact hsettled
    · omega

theorem iterate_of_settled {n m : Nat} {l : Listing} (h : Settled (round^[n] l)) (hle : n ≤ m) :
    round^[m] l = round^[n] l := by
  obtain ⟨k, rfl⟩ := Nat.exists_eq_add_of_le' hle
  rw [Function.iterate_add_apply, Function.iterate_fixed h]

/-- A listing that rounds leave as it is, the first of them leaves as it is. -/
theorem settled_of_rounds_eq {limit : Nat} {l : Listing} (hpos : 0 < limit)
    (h : rounds limit l = l) : Settled l := by
  have hcases := settled_or_effects_iterate limit l
  rw [← rounds_eq_iterate, h] at hcases
  rcases hcases with hsettled | hle
  · exact hsettled
  · omega

theorem optimize_of_settled {l : Listing} (h : Settled l) : l.optimize = l := by
  rw [optimize_eq_iterate, Function.iterate_fixed h]

/-- The optimizer is idempotent on exactly the listings that are settled within the limit. Those
that have no more lines with an effect than there may be rounds are. -/
theorem optimize_idempotent_iff (l : Listing) :
    (l.optimize.optimize = l.optimize ↔ ∃ n ≤ maxRounds, Settled (round^[n] l)) ∧
      (effects l.ops ≤ maxRounds → l.optimize.optimize = l.optimize) := by
  have hiff : l.optimize.optimize = l.optimize ↔ ∃ n ≤ maxRounds, Settled (round^[n] l) := by
    constructor
    · intro h
      have hsettled : Settled l.optimize := settled_of_rounds_eq (by decide) h
      rw [optimize_eq_iterate] at hsettled
      exact ⟨maxRounds, Nat.le_refl _, hsettled⟩
    · rintro ⟨n, hle, hsettled⟩
      rw [optimize_eq_iterate l, iterate_of_settled hsettled hle]
      exact optimize_of_settled hsettled
  exact ⟨hiff, fun h => hiff.2 ⟨effects l.ops, h, settled_iterate (Nat.le_refl _)⟩⟩

/-! ## What passes alone leave as it is -/

theorem passes_fixed {l : Listing} (h : ∀ pass : Pass, pass.apply l = l) (passes : List Pass) :
    passes.foldl (fun l pass => pass.apply l) l = l := by
  induction passes with
  | nil => rfl
  | cons pass rest ih => rw [List.foldl_cons, h pass, ih]

/-- No pass brings back what an earlier one has deleted. -/
theorem apply_eq_of_passes_eq {passes : List Pass} {l : Listing}
    (h : passes.foldl (fun l pass => pass.apply l) l = l) : ∀ pass ∈ passes, pass.apply l = l := by
  induction passes with
  | nil => exact List.forall_mem_nil _
  | cons pass rest ih =>
    rw [List.foldl_cons] at h
    have hpass : pass.apply l = l := by
      rcases pass.apply_cases l with heq | hlt
      · exact heq
      · rcases passes_cases rest (pass.apply l) with hrest | hrest
        · exact hrest.symm.trans h
        · rw [h] at hrest
          exact absurd hlt (Nat.lt_asymm hrest)
    rw [hpass] at h
    exact List.forall_mem_cons.2 ⟨hpass, ih h⟩

/-- A listing is settled if no pass changes it. -/
theorem settled_iff {l : Listing} : Settled l ↔ ∀ pass : Pass, pass.apply l = l := by
  constructor
  · intro h pass
    have hmem : pass ∈ Pass.all := by
      cases pass <;> decide
    exact apply_eq_of_passes_eq h pass hmem
  · intro h
    exact passes_fixed h Pass.all

/-- A pass changes nothing or deletes a line with an effect. So a listing comes, after as many
rounds as it has such lines or fewer, to one that no pass changes, and stays there. Where it has no
more of them than the optimizer makes rounds, the optimizer gives this listing, and nothing is left
to do for passes in any order. -/
theorem passes_converge (l : Listing) :
    (∀ pass : Pass, pass.apply l = l ∨ effects (pass.apply l).ops < effects l.ops) ∧
    (∃ n ≤ effects l.ops, (∀ pass : Pass, pass.apply (round^[n] l) = round^[n] l) ∧
      ∀ m ≥ n, round^[m] l = round^[n] l) ∧
    (effects l.ops ≤ 32 → (∀ pass : Pass, pass.apply l.optimize = l.optimize) ∧
      ∀ passes : List Pass, passes.foldl (fun l pass => pass.apply l) l.optimize = l.optimize) := by
  have hsettled : Settled (round^[effects l.ops] l) := settled_iterate (Nat.le_refl _)
  refine ⟨fun pass => pass.apply_cases l, ?_, ?_⟩
  · refine ⟨effects l.ops, Nat.le_refl _, settled_iff.1 hsettled, ?_⟩
    intro m hle
    exact iterate_of_settled hsettled hle
  · intro hle
    have hfixed : ∀ pass : Pass, pass.apply l.optimize = l.optimize := by
      rw [optimize_eq_iterate]
      exact settled_iff.1 (settled_iterate hle)
    exact ⟨hfixed, passes_fixed hfixed⟩

/-- Each pass has something to do in the first of two rounds. -/
theorem passes_converge_two_rounds :
    let l : Listing :=
      { ops := [.err, .label 0, .branch .ifZero 1, .label 1, .branch .always 2, .label 2, .ret] }
    effects l.ops = 7 ∧ (round l).ops = [.err, .label 1, .ret] ∧ l.optimize.ops = [.err] ∧
      [Pass.mergeLabels, .deadCode, .unusedLabels].foldl (fun l pass => pass.apply l) l.optimize =
        l.optimize := by
  intro l
  have heffects : effects l.ops = 7 := by decide
  obtain ⟨-, hfixed⟩ := (passes_converge l).2.2 (by omega)
  exact ⟨heffects, by decide, by decide, hfixed _⟩

/-! ## A listing for any number of rounds -/

/-- Labels `i`, `i + 1` and so on, `n` of them, each followed by a branch to the next. -/
def chain (i : Nat) : Nat → List (Op LabelId)
  | 0 => []
  | n + 1 => .label i :: .branch .ifZero (i + 1) :: chain (i + 1) n

/-- A chain that control does not fall into. Its first label is not used, and every other one only
by the branch before it. -/
def cascade (labels : LabelTable) (i n : Nat) : Listing :=
  { ops := .err :: chain i n, labels }

theorem targets_chain (i n : Nat) : (chain i n).flatMap Op.targets = List.range' (i + 1) n := by
  induction n generalizing i with
  | zero => rfl
  | succ n ih => simp [chain, Op.targets, ih, List.range'_succ]

theorem dropLabels_chain {used : Nat → Bool} {i n : Nat}
    (h : ∀ id, i ≤ id → id < i + n → used id = true) : dropLabels used (chain i n) = chain i n := by
  induction n generalizing i with
  | zero => rfl
  | succ n ih =>
    have hfirst := h i (Nat.le_refl i) (by omega)
    have hrest := ih fun id hle hlt => h id (Nat.le_of_succ_le hle) (by omega)
    rw [chain, dropLabels_cons_of_used used rfl hfirst, dropLabels_cons_of_none used rfl, hrest]

theorem dropDead_chain (i n : Nat) : dropDead false (chain i n) = chain i n := by
  induction n generalizing i with
  | zero => rfl
  | succ n ih =>
    have hrest : dropDead false (chain i (n + 1)) =
        .label i :: .branch .ifZero (i + 1) :: dropDead false (chain (i + 1) n) := rfl
    rw [hrest, ih, chain]

theorem dropDead_true_chain (i n : Nat) : dropDead true (chain i n) = chain i n := by
  cases n with
  | zero => rfl
  | succ n => exact dropDead_chain i (n + 1)

theorem dropBranches_chain (i n : Nat) : dropBranches (chain i n) = chain i n := by
  induction n generalizing i with
  | zero => rfl
  | succ n ih =>
    have hrest : dropBranches (chain i (n + 1)) =
        .label i :: .branch .ifZero (i + 1) :: dropBranches (chain (i + 1) n) := rfl
    rw [hrest, ih, chain]

theorem collapse_chain (i n : Nat) : collapse none (chain i n) = (chain i n, []) := by
  induction n generalizing i with
  | zero => rfl
  | succ n ih =>
    have hrest : collapse none (chain i (n + 1)) =
        (.label i :: .branch .ifZero (i + 1) :: (collapse none (chain (i + 1) n)).1,
          (collapse none (chain (i + 1) n)).2) := rfl
    rw [hrest, ih, chain]

section Cascade
variable (labels : LabelTable)

theorem references_cascade (i n id : Nat) :
    ((cascade labels i n).references id != 0) = true ↔ i < id ∧ id ≤ i + n := by
  have hmem : id ∈ (cascade labels i n).ops.flatMap Op.targets ↔ i < id ∧ id ≤ i + n := by
    simp only [cascade, List.flatMap_cons, targets_chain, Op.targets, List.nil_append,
      List.mem_range'_1]
    omega
  rw [bne_iff_ne, Listing.references, ← hmem, ← List.count_pos_iff, Nat.pos_iff_ne_zero]

theorem removeUnusedLabels_cascade (i n : Nat) :
    removeUnusedLabels (cascade labels i (n + 1)) =
      { ops := .err :: .branch .ifZero (i + 1) :: chain (i + 1) n, labels } := by
  have hrefs := references_cascade labels i (n + 1)
  have hops : (cascade labels i (n + 1)).ops =
      .err :: .label i :: .branch .ifZero (i + 1) :: chain (i + 1) n := rfl
  rw [removeUnusedLabels, hops]
  generalize (cascade labels i (n + 1)).references = refs at hrefs ⊢
  have hfirst : (refs i != 0) = false := by
    rw [Bool.eq_false_iff, Ne, hrefs]
    omega
  have hrest : dropLabels (fun id => refs id != 0) (chain (i + 1) n) = chain (i + 1) n :=
    dropLabels_chain fun id hle hlt => (hrefs id).2 (by omega)
  have hopen : opensSubroutine (.branch .ifZero (i + 1) :: chain (i + 1) n) = false := rfl
  rw [dropLabels_cons_of_none _ rfl]
  simp only [dropLabels, Op.declared?, hfirst, hopen, hrest, Bool.or_self, Bool.false_eq_true,
    if_false]
  rfl

theorem removeDeadCode_cascade (i n : Nat) :
    removeDeadCode { ops := .err :: .branch .ifZero i :: chain i n, labels } =
      cascade labels i n := by
  have hops : dropDead false (.err :: .branch .ifZero i :: chain i n) =
      .err :: dropDead true (chain i n) := rfl
  rw [removeDeadCode, hops, dropDead_true_chain]
  rfl

theorem removeRedundantBranches_cascade (i n : Nat) :
    removeRedundantBranches (cascade labels i n) = cascade labels i n := by
  have hops : dropBranches (cascade labels i n).ops = .err :: dropBranches (chain i n) := rfl
  rw [removeRedundantBranches, hops, dropBranches_chain]
  rfl

theorem mergeLabels_cascade (i n : Nat) :
    mergeLabels (cascade labels i n) = cascade labels i n := by
  have hops : collapse none (cascade labels i n).ops =
      (.err :: (collapse none (chain i n)).1, (collapse none (chain i n)).2) := rfl
  have hid : ∀ op : Op LabelId, op.retarget (replacement []) = op := Op.retarget_id
  rw [mergeLabels, hops, collapse_chain]
  simp only [hid, List.map_id']
  rfl

/-- A round deletes the first link of the chain and no more. -/
theorem round_cascade (i n : Nat) :
    round (cascade labels i (n + 1)) = cascade labels (i + 1) n := by
  simp only [round, Pass.all, List.foldl_cons, List.foldl_nil, Pass.apply,
    removeUnusedLabels_cascade, removeDeadCode_cascade, removeRedundantBranches_cascade,
    mergeLabels_cascade]

theorem rounds_cascade (k i n : Nat) :
    rounds k (cascade labels i (k + n)) = cascade labels (i + k) n := by
  rw [rounds_eq_iterate]
  induction k generalizing i with
  | zero =>
    rw [Nat.zero_add]
    rfl
  | succ k ih =>
    rw [Function.iterate_succ_apply, Nat.add_right_comm, round_cascade, ih, Nat.add_right_comm]
    rfl

theorem not_settled_cascade (i n : Nat) : ¬Settled (cascade labels i (n + 1)) := by
  intro h
  have hlen := congrArg Listing.size ((round_cascade labels i n).symm.trans h)
  have hshort : (cascade labels (i + 1) n).size + 2 = (cascade labels i (n + 1)).size := rfl
  omega

/-- Whatever the limit on the number of rounds, some listing needs more. -/
theorem rounds_not_idempotent {limit : Nat} (h : 0 < limit) :
    let l := cascade labels 0 (limit + 1)
    rounds limit (rounds limit l) ≠ rounds limit l := by
  intro l
  rw [rounds_cascade]
  intro heq
  exact not_settled_cascade labels _ 0 (settled_of_rounds_eq h heq)

end Cascade

theorem optimize_not_idempotent :
    let l := cascade (.ofList ((List.range 34).map fun i => "l" ++ toString i)) 0 33
    l.optimize.optimize ≠ l.optimize :=
  rounds_not_idempotent _ (by decide : 0 < maxRounds)

end Teal.Optimizer
