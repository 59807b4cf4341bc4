import Teal.Proofs.Lint.Removal
/-!
# Dead code is unreachable code

The pass `deadCode` and the rule `unreachable-code` are two scans, each with a flag of its own. Both
flags are raised by a line that ends the flow; the one of the pass is lowered by every label, that
of the rule only by a label in use. So the flag of the pass is never raised where that of the rule
is not, and if all labels are in use the flags are the same.

Which lines the pass deletes is told by `deadLines`, and `mem_deadLines_iff` by the pass itself: it
makes the same of the lines up to a deleted one as of those before it.
-/

namespace Teal

open Optimizer

/-- The lines that `dropDead` leaves out, numbered from `line`. -/
def deadFrom (dead : Bool) (line : Nat) : List (Op LabelId) → List Nat
  | [] => []
  | op :: rest =>
    let dead := dead && op.declared?.isNone
    if dead && !op.isNop then line :: deadFrom true (line + 1) rest
    else deadFrom (dead || op.endsFlow) (line + 1) rest

/-- The lines that the pass `deadCode` deletes. -/
def deadLines (l : Listing) : List Nat :=
  deadFrom false 0 l.ops

section Scan
variable {dead : Bool} {line : Nat} {ops : List (Op LabelId)}

/-- A line is deleted, and its number listed, or stays. -/
theorem deadFrom_cases (dead : Bool) (line : Nat) (op : Op LabelId) (rest : List (Op LabelId)) :
    ∃ dead', (deadFrom dead line (op :: rest) = line :: deadFrom dead' (line + 1) rest ∧
        ∀ ops, dropDead dead (op :: ops) = dropDead dead' ops) ∨
      deadFrom dead line (op :: rest) = deadFrom dead' (line + 1) rest ∧
        ∀ ops, dropDead dead (op :: ops) = op :: dropDead dead' ops := by
  by_cases h : (dead && op.declared?.isNone && !op.isNop) = true
  · refine ⟨true, .inl ⟨?_, fun ops => ?_⟩⟩
    · simp only [deadFrom, if_pos h]
    · simp only [dropDead, if_pos h]
  · refine ⟨dead && op.declared?.isNone || op.endsFlow, .inr ⟨?_, fun ops => ?_⟩⟩
    · simp only [deadFrom, if_neg h]
    · simp only [dropDead, if_neg h]

theorem le_of_mem_deadFrom {i : Nat} (h : i ∈ deadFrom dead line ops) : line ≤ i := by
  induction ops generalizing dead line with
  | nil => cases h
  | cons op rest ih =>
    obtain ⟨dead', ⟨hlines, -⟩ | ⟨hlines, -⟩⟩ := deadFrom_cases dead line op rest
    · rw [hlines] at h
      rcases List.mem_cons.1 h with rfl | h
      · exact Nat.le_refl i
      · exact Nat.le_of_succ_le (ih h)
    · rw [hlines] at h
      exact Nat.le_of_succ_le (ih h)

theorem not_mem_deadFrom (dead : Bool) (line : Nat) (ops : List (Op LabelId)) :
    line ∉ deadFrom dead (line + 1) ops :=
  fun h => absurd (le_of_mem_deadFrom h) (Nat.not_succ_le_self line)

theorem dropLines_congr {gone gone' : List Nat} (h : ∀ i, line ≤ i → (i ∈ gone ↔ i ∈ gone')) :
    dropLines gone line ops = dropLines gone' line ops := by
  induction ops generalizing line with
  | nil => rfl
  | cons op rest ih =>
    have hrest := ih fun i hi => h i (Nat.le_of_succ_le hi)
    simp only [dropLines, h line (Nat.le_refl line), hrest]

theorem dropDead_eq_dropLines (dead : Bool) (line : Nat) (ops : List (Op LabelId)) :
    dropDead dead ops = dropLines (deadFrom dead line ops) line ops := by
  induction ops generalizing dead line with
  | nil => rfl
  | cons op rest ih =>
    obtain ⟨dead', ⟨hlines, hops⟩ | ⟨hlines, hops⟩⟩ := deadFrom_cases dead line op rest
    · rw [hlines, hops, dropLines_cons_of_mem List.mem_cons_self, ih dead' (line + 1)]
      refine dropLines_congr fun i hi => ?_
      rw [List.mem_cons, or_iff_right (Nat.ne_of_gt hi)]
    · have hstays := not_mem_deadFrom dead' line rest
      rw [hlines, hops, dropLines_cons_of_not_mem hstays, ih dead' (line + 1)]

theorem mem_deadFrom_iff {i : Nat} :
    line + i ∈ deadFrom dead line ops ↔
      i < ops.length ∧ dropDead dead (ops.take (i + 1)) = dropDead dead (ops.take i) := by
  induction ops generalizing dead line i with
  | nil => simp [deadFrom]
  | cons op rest ih =>
    obtain ⟨dead', ⟨hlines, hops⟩ | ⟨hlines, hops⟩⟩ := deadFrom_cases dead line op rest
    · rw [hlines]
      cases i with
      | zero => simp [hops, dropDead]
      | succ i =>
        have hline : line + (i + 1) = line + 1 + i := by omega
        have hne : line + 1 + i ≠ line := by omega
        rw [hline, List.mem_cons, or_iff_right hne, ih, List.length_cons, Nat.add_lt_add_iff_right,
          List.take_succ_cons, List.take_succ_cons, hops, hops]
    · rw [hlines]
      cases i with
      | zero => simp [hops, dropDead, not_mem_deadFrom dead' line rest]
      | succ i =>
        have hline : line + (i + 1) = line + 1 + i := by omega
        rw [hline, ih, List.length_cons, Nat.add_lt_add_iff_right, List.take_succ_cons,
          List.take_succ_cons, hops, hops, List.cons_inj_right]

/-- A line is deleted if the pass makes the same of the lines up to it as of those before it. -/
theorem mem_deadLines_iff {l : Listing} {i : Nat} : i ∈ deadLines l ↔ i < l.size ∧
    dropDead false (l.ops.take (i + 1)) = dropDead false (l.ops.take i) := by
  rw [deadLines, ← Nat.zero_add i, mem_deadFrom_iff, Nat.zero_add, Listing.size]

end Scan

namespace Lint

section Flags
variable {used : LabelId → Bool} {dead dead' : Bool} {line : Nat} {ops : List (Op LabelId)}

/-- The flag of the pass is raised only where that of the rule is. -/
theorem deadFrom_subset (h : dead = true → dead' = true) :
    deadFrom dead line ops ⊆ unreachableFrom used dead' line ops := by
  induction ops generalizing dead dead' line with
  | nil => exact List.nil_subset _
  | cons op rest ih =>
    have hflag : (dead && op.declared?.isNone) = true → (dead' && !op.declared?.any used) = true := by
      intro hdead
      rw [Bool.and_eq_true, Option.isNone_iff_eq_none] at hdead
      rw [h hdead.1, hdead.2]
      rfl
    simp only [deadFrom, unreachableFrom]
    generalize (dead && op.declared?.isNone) = flag at hflag ⊢
    generalize (dead' && !op.declared?.any used) = flag' at hflag ⊢
    cases flag with
    | true =>
      rw [hflag rfl]
      -- A line in dead code is deleted and flagged, or is a comment and neither.
      cases op.isNop with
      | true => exact ih fun _ => rfl
      | false => exact List.cons_subset_cons line (ih fun _ => rfl)
    | false =>
      have hrest : deadFrom op.endsFlow (line + 1) rest ⊆
          unreachableFrom used (flag' || op.endsFlow) (line + 1) rest := by
        refine ih fun hflow => ?_
        rw [hflow, Bool.or_true]
      simp only [Bool.false_and, Bool.false_eq_true, if_false, Bool.false_or]
      split
      · exact List.subset_cons_of_subset line hrest
      · exact hrest

/-- Where every label is in use, both scans go with one flag. -/
theorem unreachableFrom_eq (h : ∀ id ∈ declaredLabels ops, used id = true) :
    unreachableFrom used dead line ops = deadFrom dead line ops := by
  induction ops generalizing dead line with
  | nil => rfl
  | cons op rest ih =>
    have hrest : ∀ dead, unreachableFrom used dead (line + 1) rest =
        deadFrom dead (line + 1) rest := by
      intro dead
      refine ih fun id hid => h id ?_
      exact (declaredLabels_sublist (List.sublist_cons_self op rest)).subset hid
    have hflag : (!op.declared?.any used) = op.declared?.isNone := by
      cases hop : op.declared? with
      | none => rfl
      | some id =>
        have hid : id ∈ declaredLabels (op :: rest) := by
          rw [declaredLabels, List.filterMap_cons_some hop]
          exact List.mem_cons_self
        rw [Option.any_some, h id hid]
        rfl
    simp only [deadFrom, unreachableFrom, hflag, hrest]
    split
    · rename_i hdead
      rw [Bool.and_eq_true] at hdead
      rw [hdead.1, Bool.true_or]
    · rfl

end Flags

/-- The rule remarks on unreachable lines, one by one. -/
theorem lines_unreachableCode (c : Context) {flagged : List Diagnostic}
    (h : unreachableCode.check c = some flagged) :
    flagged.map (·.line) = unreachableLines c.listing := by
  cases h
  rw [List.map_map]
  exact List.map_id' _

/-- The pass `deadCode` deletes only lines that the rule `unreachable-code` flags. If every label
that is declared is referred to, the rule flags these lines and no others. -/
theorem deadLines_unreachable (c : Context) :
    removeDeadCode c.listing = c.listing.without (deadLines c.listing) ∧
    (∀ i, i ∈ deadLines c.listing ↔ i < c.listing.size ∧
      dropDead false (c.listing.ops.take (i + 1)) = dropDead false (c.listing.ops.take i)) ∧
    ∃ flagged, unreachableCode.check c = some flagged ∧
      (∀ line ∈ deadLines c.listing, ∃ d ∈ flagged, d.line = line) ∧
      ((∀ id ∈ declaredLabels c.listing.ops, ∃ op ∈ c.listing.ops, id ∈ op.targets) →
        flagged.map (·.line) = deadLines c.listing) := by
  refine ⟨?_, fun i => mem_deadLines_iff, _, rfl, ?_, ?_⟩
  · rw [removeDeadCode, Listing.without, deadLines, ← dropDead_eq_dropLines]
  · intro line hline
    rw [← List.mem_map, lines_unreachableCode c rfl]
    exact deadFrom_subset id hline
  · intro hused
    rw [lines_unreachableCode c rfl]
    refine unreachableFrom_eq fun id hid => ?_
    obtain ⟨op, hop, htarget⟩ := hused id hid
    exact references_ne_zero hop htarget

/-- The only label is in use; the comment in dead code is neither deleted nor flagged. -/
theorem deadLines_unreachable_of_used :
    let l : Listing :=
      { ops := [.branch .always 0, .int .pseudo 1, .comment "dead", .err, .label 0,
          .branch .ifZero 0, .ret, .ret] }
    (∀ id ∈ declaredLabels l.ops, ∃ op ∈ l.ops, id ∈ op.targets) ∧
      ∃ flagged, unreachableCode.check ⟨l, .standard, {}⟩ = some flagged ∧
        flagged.map (·.line) = [1, 3, 7] ∧
        (removeDeadCode l).ops = [.branch .always 0, .comment "dead", .label 0, .branch .ifZero 0,
          .ret] := by
  intro l
  have hused : ∀ id ∈ declaredLabels l.ops, ∃ op ∈ l.ops, id ∈ op.targets := by decide
  obtain ⟨-, -, flagged, hcheck, -, hlines⟩ := deadLines_unreachable ⟨l, .standard, {}⟩
  exact ⟨hused, flagged, hcheck, hlines hused, by decide⟩

-- A label that nothing refers to stops the pass and not the rule.
example : deadLines { ops := [.err, .label 0, .ret] } = [] ∧
    unreachableLines { ops := [.err, .label 0, .ret] } = [1, 2] := by
  decide

end Lint

end Teal
