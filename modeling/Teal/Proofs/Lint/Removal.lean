import Teal.Catalog.Standard
import Teal.Lint
import Teal.Proofs.Lint.Unreachable
import Teal.Proofs.Optimizer.Passes
/-!
# Deleting the lines that the linter offers to delete

Three rules offer to delete lines, each from what it sees in the whole listing: labels that nothing
refers to, lines that nothing reaches, and branches to the label that comes next. All of these
lines, or any of them, can be deleted at once without changing what the listing does.

The three judgements do not get in each other's way because control only ever is at open lines. An
open line that is deleted is a label, which control skips anyway, or a branch to the label ahead of
it; and a label that any line refers to stays, whether that line stays or not. So what lies ahead of
a line is, once the lines are deleted, what is left of what lay ahead of it before.
-/

namespace Teal

/-! ## Listings without some of their lines -/

/-- The lines, numbered from `line`, without those whose numbers are in `gone`. -/
def dropLines (gone : List Nat) (line : Nat) : List (Op LabelId) → List (Op LabelId)
  | [] => []
  | op :: rest =>
    if line ∈ gone then dropLines gone (line + 1) rest else op :: dropLines gone (line + 1) rest

/-- The listing with the given lines deleted. -/
def Listing.without (l : Listing) (gone : List Nat) : Listing :=
  { l with ops := dropLines gone 0 l.ops }

section DropLines
variable {gone : List Nat} {line : Nat} {op : Op LabelId} {ops : List (Op LabelId)}

theorem dropLines_cons_of_mem (h : line ∈ gone) (op : Op LabelId) (rest : List (Op LabelId)) :
    dropLines gone line (op :: rest) = dropLines gone (line + 1) rest :=
  if_pos h

theorem dropLines_cons_of_not_mem (h : line ∉ gone) (op : Op LabelId) (rest : List (Op LabelId)) :
    dropLines gone line (op :: rest) = op :: dropLines gone (line + 1) rest :=
  if_neg h

theorem dropLines_sublist (gone : List Nat) (line : Nat) (ops : List (Op LabelId)) :
    (dropLines gone line ops).Sublist ops := by
  induction ops generalizing line with
  | nil => exact .slnil
  | cons op rest ih =>
    by_cases h : line ∈ gone
    · rw [dropLines_cons_of_mem h]
      exact (ih (line + 1)).cons op
    · rw [dropLines_cons_of_not_mem h]
      exact (ih (line + 1)).cons_cons op

/-- A line that control skips can be deleted or not. -/
theorem ahead_dropLines_cons (h : op.isExecutable = false) (rest : List (Op LabelId)) :
    ahead (dropLines gone line (op :: rest)) = ahead (dropLines gone (line + 1) rest) := by
  by_cases hgone : line ∈ gone
  · rw [dropLines_cons_of_mem hgone]
  · rw [dropLines_cons_of_not_mem hgone, ahead_cons_of_skipped h]

/-- Where nothing executes among the first `k` lines, nothing does among those that are left. -/
theorem ahead_dropLines {k : Nat} (h : ahead ops = ahead (ops.drop k)) :
    ahead (dropLines gone line ops) = ahead (dropLines gone (line + k) (ops.drop k)) := by
  induction k generalizing ops line with
  | zero => rfl
  | succ k ih =>
    cases ops with
    | nil => rfl
    | cons op rest =>
      cases hexec : op.isExecutable with
      | true =>
        -- The rest of the listing would be as long as the listing.
        rw [ahead_cons_of_executable hexec, List.drop_succ_cons] at h
        have hle : (ahead (rest.drop k)).length ≤ rest.length :=
          ((List.dropWhile_sublist _).trans (List.drop_sublist k rest)).length_le
        rw [← h, List.length_cons] at hle
        omega
      | false =>
        rw [ahead_cons_of_skipped hexec, List.drop_succ_cons] at h
        rw [ahead_dropLines_cons hexec, ih h, List.drop_succ_cons, Nat.add_right_comm,
          Nat.add_assoc]

/-- A declaration that stays is followed by what is left of the lines after it. -/
theorem place?_dropLines {id : LabelId} {t : Nat} (h : place? id ops = some t)
    (hstays : line + t ∉ gone) :
    ∃ j, place? id (dropLines gone line ops) = some j ∧
      (dropLines gone line ops).drop j = dropLines gone (line + t) (ops.drop t) := by
  induction ops generalizing line t with
  | nil => cases h
  | cons op rest ih =>
    by_cases hop : op.declared? = some id
    · obtain rfl : 0 = t := Option.some.inj ((place?_cons_self hop rest).symm.trans h)
      refine ⟨0, ?_, rfl⟩
      rw [Nat.add_zero] at hstays
      rw [dropLines_cons_of_not_mem hstays]
      exact place?_cons_self hop _
    · rw [place?_cons_ne hop, Option.map_eq_some_iff] at h
      obtain ⟨t, ht, rfl⟩ := h
      have hline : line + (t + 1) = line + 1 + t := by omega
      rw [hline] at hstays ⊢
      obtain ⟨j, hj, hdrop⟩ := ih ht hstays
      by_cases hgone : line ∈ gone
      · rw [dropLines_cons_of_mem hgone]
        exact ⟨j, hj, hdrop⟩
      · rw [dropLines_cons_of_not_mem hgone]
        exact ⟨j + 1, by rw [place?_cons_ne hop, hj]; rfl, hdrop⟩

end DropLines

namespace Lint

/-! ## Lines that can be deleted -/

/-- A line that one of the three rules offers to delete. -/
inductive Removable (l : Listing) (line : Nat) : Prop
  /-- It declares a label that nothing refers to. -/
  | unused {op : Op LabelId} {id : LabelId} (hop : l.ops[line]? = some op)
      (hid : op.declared? = some id) (href : l.references id = 0)
  /-- Nothing reaches it. -/
  | unreachable (h : ¬Open l line)
  /-- It branches to the label that comes next. -/
  | redundant {op : Op LabelId} (hop : l.ops[line]? = some op)
      (h : Optimizer.branchesToNext op (l.ops.drop (line + 1)) = true)

section Removable
variable {l : Listing} {line : Nat} {op : Op LabelId}

/-- A line that refers to a label keeps its declaration from being deleted. -/
theorem not_removable_target {id : LabelId} (hop : op ∈ l.ops) (hid : id ∈ op.targets)
    (ht : l.target? id = some line) : ¬Removable l line := by
  obtain ⟨hlt, hdecl, -⟩ := List.findIdx?_eq_some_iff_getElem.1 ht
  replace hdecl : l.ops[line].declared? = some id := by simpa using hdecl
  have hget : l.ops[line]? = some l.ops[line] := List.getElem?_eq_getElem hlt
  intro h
  cases h with
  | unused hop' hid' href =>
    cases hget.symm.trans hop'
    cases hdecl.symm.trans hid'
    have hused := references_ne_zero hop hid
    rw [href] at hused
    cases hused
  | unreachable hshut => exact hshut (open_target hop hid ht)
  | redundant hop' hnext =>
    cases hget.symm.trans hop'
    cases (Optimizer.branchesToNext_of_skipped (Op.executable_of_declared hdecl) _).symm.trans hnext

/-- The only instructions deleted where control can be are branches to the label ahead. -/
theorem Removable.redundant_of_executable (h : Removable l line) (hopen : Open l line)
    (hop : l.ops[line]? = some op) (hexec : op.isExecutable = true) :
    Optimizer.branchesToNext op (l.ops.drop (line + 1)) = true := by
  cases h with
  | unused hop' hid =>
    cases hop.symm.trans hop'
    cases hexec.symm.trans (Op.executable_of_declared hid)
  | unreachable hshut => exact absurd hopen hshut
  | redundant hop' hnext =>
    cases hop.symm.trans hop'
    exact hnext

end Removable

/-! ## Alignment -/

/-- Line `i` is open, and what lies ahead of line `j` of the listing without the deleted lines is
what they leave of what lies ahead of `i`. -/
def LeftOf (l : Listing) (gone : List Nat) (i j : Nat) : Prop :=
  Open l i ∧ ahead ((l.without gone).ops.drop j) = ahead (dropLines gone i (l.ops.drop i))

section Alignment
variable {l : Listing} {gone : List Nat}

theorem labelRel_without (hgone : ∀ line ∈ gone, Removable l line) {op : Op LabelId} {id : LabelId}
    (hop : op ∈ l.ops) (hid : id ∈ op.targets) :
    (Comparison.shifted (LeftOf l gone)).LabelRel l (l.without gone) id id := by
  cases ht : l.target? id with
  | none =>
    refine .inr ⟨ht, place?_eq_none.2 fun hmem => ?_, rfl⟩
    exact place?_eq_none.1 ht
      ((declaredLabels_sublist (dropLines_sublist gone 0 l.ops)).subset hmem)
  | some t =>
    have hstays : 0 + t ∉ gone := by
      rw [Nat.zero_add]
      exact fun hmem => not_removable_target hop hid ht (hgone t hmem)
    obtain ⟨j, hj, hdrop⟩ := place?_dropLines ht hstays
    rw [Nat.zero_add] at hdrop
    exact .inl ⟨t, j, ht, hj, open_target hop hid ht, congrArg ahead hdrop⟩

/-- A deleted branch leads to a line with the same lines left ahead of it. -/
theorem leftOf_target (hl : l.Unambiguous) {pc j : Nat} {op : Op LabelId} (hop : op ∈ l.ops)
    (hnext : Optimizer.branchesToNext op (l.ops.drop (pc + 1)) = true)
    (hahead : ahead ((l.without gone).ops.drop j) =
      ahead (dropLines gone (pc + 1) (l.ops.drop (pc + 1)))) :
    ∃ id t, op = .branch .always id ∧ l.target? id = some t ∧ pc < t ∧ t ≤ l.size ∧
      LeftOf l gone t j := by
  obtain ⟨id, k, rfl, hk, hskip⟩ := Optimizer.branchesToNext_cases hnext
  -- Declared at most once, the label is declared nowhere before the branch.
  have ht : l.target? id = some (pc + 1 + k) := place?_of_drop hl hk
  refine ⟨id, pc + 1 + k, rfl, ht, by omega, place?_le ht, ?_, ?_⟩
  · exact open_target hop List.mem_cons_self ht
  · rw [hahead, ahead_dropLines hskip, List.drop_drop]

theorem alignment_without (hl : l.Unambiguous) (hgone : ∀ line ∈ gone, Removable l line) :
    Alignment l (l.without gone) id (LeftOf l gone) where
  start := ⟨open_zero l, rfl⟩
  fetch {i j} hij := by
    obtain ⟨hopen, hij⟩ := hij
    rcases l.fetch?_cases i with ⟨hahead, hf⟩ | ⟨pc, op, hahead, hf, hle, hdrop⟩
    · -- Nothing lies ahead, so nothing of it is left.
      have hnil : ahead (l.ops.drop i) = ahead ((l.ops.drop i).drop (l.ops.drop i).length) := by
        rw [hahead, List.drop_length]
        rfl
      rw [ahead_dropLines hnil, List.drop_length] at hij
      rcases (l.without gone).fetch?_cases j with ⟨-, hf'⟩ | ⟨pc', op', hahead', -⟩
      · exact .inl ⟨hf, hf'⟩
      · cases hahead'.symm.trans hij
    · obtain ⟨hop, hpc⟩ := hopen.fetch hf
      have hmem : op ∈ l.ops := List.mem_of_getElem? hop
      have hexec := executable_of_ahead hahead
      have hskip : ahead (l.ops.drop i) = ahead ((l.ops.drop i).drop (pc - i)) := by
        rw [List.drop_drop, Nat.add_sub_cancel' hle, hahead, hdrop, ahead_cons_of_executable hexec]
      rw [ahead_dropLines hskip, List.drop_drop, Nat.add_sub_cancel' hle, hdrop] at hij
      by_cases hdel : pc ∈ gone
      · have hnext := (hgone pc hdel).redundant_of_executable hpc hop hexec
        rw [dropLines_cons_of_mem hdel] at hij
        obtain ⟨id, t, rfl, ht, hlt, hsize, hline⟩ := leftOf_target hl hmem hnext hij
        exact .inr (.inr ⟨pc, id, t, hf, ht, Nat.lt_of_le_of_lt hle hlt, hsize, hline⟩)
      · rw [dropLines_cons_of_not_mem hdel, ahead_cons_of_executable hexec] at hij
        rcases (l.without gone).fetch?_cases j with ⟨hahead', -⟩ | ⟨pc', op', hahead', hf', -, -⟩
        · cases hahead'.symm.trans hij
        · obtain ⟨rfl, hrest⟩ := List.cons.inj (hahead'.symm.trans hij)
          refine .inr (.inl ⟨pc, pc', op', hf, by rw [Op.retarget_id]; exact hf', ?_, ?_⟩)
          · exact fun hflow => ⟨hpc.next hop hflow, by rw [hrest]⟩
          · exact fun id hid => labelRel_without hgone hmem hid

end Alignment

end Lint

/-! ## Suggestions -/

namespace Diagnostic

/-- The line that a remark suggests to delete. -/
def removal? (d : Diagnostic) : Option Nat :=
  d.suggestion.map fun (.removeLine line) => line

/-- The lines that remarks suggest to delete. -/
def removals (ds : List Diagnostic) : List Nat :=
  ds.filterMap removal?

theorem mem_place {d e : Diagnostic} {ds : List Diagnostic} :
    e ∈ place d ds ↔ e = d ∨ e ∈ ds := by
  induction ds with
  | nil => simp [place]
  | cons d' ds ih =>
    unfold place
    split
    · exact List.mem_cons
    · rw [List.mem_cons, ih, List.mem_cons]
      exact or_left_comm

theorem mem_sortByLine {e : Diagnostic} {ds : List Diagnostic} : e ∈ sortByLine ds ↔ e ∈ ds := by
  induction ds with
  | nil => rfl
  | cons d ds ih => rw [sortByLine, mem_place, ih, List.mem_cons]

theorem removal?_spanningWord (d : Diagnostic) (text needle : String) :
    (d.spanningWord text needle).removal? = d.removal? := by
  unfold spanningWord
  split <;> rfl

end Diagnostic

namespace Lint

section Rules
variable {c : Context} {ds : List Diagnostic} {d : Diagnostic} {line : Nat}

theorem removable_of_unusedLabel (h : unusedLabel.check c = some ds) (hd : d ∈ ds)
    (hline : d.removal? = some line) : Removable c.listing line := by
  cases h
  obtain ⟨⟨i, id⟩, hmem, rfl⟩ := List.mem_map.1 hd
  cases hline
  simp only [unusedLabels, List.mem_filterMap, Option.bind_eq_some_iff,
    Option.ite_none_right_eq_some, Option.some.injEq, Prod.mk.injEq] at hmem
  obtain ⟨⟨op, i⟩, hop, id, hid, href, rfl, rfl⟩ := hmem
  exact .unused (List.mem_zipIdx_iff_getElem?.1 hop) hid href

theorem removable_of_unreachableCode (h : unreachableCode.check c = some ds) (hd : d ∈ ds)
    (hline : d.removal? = some line) : Removable c.listing line := by
  cases h
  obtain ⟨i, hmem, rfl⟩ := List.mem_map.1 hd
  cases hline
  exact .unreachable (not_open_of_unreachable hmem)

theorem removable_of_redundantBranch (h : redundantBranch.check c = some ds) (hd : d ∈ ds)
    (hline : d.removal? = some line) : Removable c.listing line := by
  cases h
  obtain ⟨i, hmem, rfl⟩ := List.mem_map.1 hd
  cases hline
  simp only [redundantBranches, List.mem_filterMap, Option.ite_none_right_eq_some,
    Option.some.injEq] at hmem
  obtain ⟨⟨op, i⟩, hop, hnext, rfl⟩ := hmem
  exact .redundant (List.mem_zipIdx_iff_getElem?.1 hop) hnext

/-- Remarks made of the members of a list offer nothing if none of them does. -/
theorem not_removal_of_mem_map {α : Type} {f : α → Diagnostic} {xs : List α}
    (hf : ∀ x, (f x).removal? = none) (hd : d ∈ xs.map f) : d.removal? ≠ some line := by
  obtain ⟨x, -, rfl⟩ := List.mem_map.1 hd
  rw [hf x]
  nofun

theorem not_removal_of_duplicateLabel (h : duplicateLabel.check c = some ds) (hd : d ∈ ds) :
    d.removal? ≠ some line := by
  cases h
  obtain ⟨⟨id, lines⟩, -, hd⟩ := List.mem_flatMap.1 hd
  dsimp only at hd
  split at hd
  · cases hd
  · exact not_removal_of_mem_map (fun _ => Diagnostic.removal?_spanningWord _ _ _) hd

theorem not_removal_of_modeAvailability (h : modeAvailability.check c = some ds) (hd : d ∈ ds) :
    d.removal? ≠ some line := by
  simp only [modeAvailability] at h
  split at h
  · cases h
    cases hd
  · cases h
    exact not_removal_of_mem_map (fun _ => Diagnostic.removal?_spanningWord _ _ _) hd

/-- Whatever rule offers to delete a line, the line can be deleted. -/
theorem removable_of_mem_registry {rule : Rule} (hrule : rule ∈ registry)
    (h : rule.check c = some ds) (hd : d ∈ ds) (hline : d.removal? = some line) :
    Removable c.listing line := by
  simp only [registry, List.mem_cons, List.not_mem_nil, or_false] at hrule
  rcases hrule with rfl | rfl | rfl | rfl | rfl | rfl | rfl | rfl | rfl | rfl
  · exact absurd hline (not_removal_of_duplicateLabel h hd)
  · exact removable_of_unusedLabel h hd hline
  · exact removable_of_unreachableCode h hd hline
  · exact removable_of_redundantBranch h hd hline
  · cases h
    exact absurd hline (not_removal_of_mem_map (fun _ => Diagnostic.removal?_spanningWord _ _ _) hd)
  · cases h
    exact absurd hline (not_removal_of_mem_map (fun _ => rfl) hd)
  · cases h
    exact absurd hline (not_removal_of_mem_map (fun _ => rfl) hd)
  · cases h
    exact absurd hline (not_removal_of_mem_map (fun _ => Diagnostic.removal?_spanningWord _ _ _) hd)
  · cases h
    exact absurd hline (not_removal_of_mem_map (fun _ => Diagnostic.removal?_spanningWord _ _ _) hd)
  · exact absurd hline (not_removal_of_modeAvailability h hd)

end Rules

theorem removable_of_mem_removals {l : Listing} {catalog : Catalog} {config : Config} {line : Nat}
    (h : line ∈ Diagnostic.removals (l.lint catalog config)) : Removable l line := by
  obtain ⟨d, hd, hline⟩ := List.mem_filterMap.1 h
  obtain ⟨rule, hrule, hd⟩ := List.mem_flatMap.1 (Diagnostic.mem_sortByLine.1 hd)
  cases hds : rule.check { listing := l, catalog, config } with
  | none =>
    rw [hds] at hd
    cases hd
  | some ds =>
    rw [hds] at hd
    exact removable_of_mem_registry (List.mem_filter.1 hrule).1 hds hd hline

/-- Where every label is declared at most once, any of the lines that the linter suggests to delete,
and so all of them, can be deleted at once: the listing that is left goes the same way. -/
theorem removals_preserve (l : Listing) (hl : l.Unambiguous) (checked catalog : Catalog)
    (config : Config) (lines : List Nat)
    (hlines : lines ⊆ Diagnostic.removals (l.lint checked config)) :
    Preserves catalog l (l.without lines) :=
  (alignment_without hl fun _ h => removable_of_mem_removals (hlines h)).preserves catalog

/-- A label that nothing refers to, a line that nothing reaches and a branch to the next label go
together. -/
theorem removals_preserve_call :
    let l : Listing :=
      { ops := [.callsub 1, .ret, .int .push 5, .label 0, .label 1, .branch .always 2, .label 2,
          .int .push 1, .retsub] }
    let lines := Diagnostic.removals (l.lint .standard {})
    l.Unambiguous ∧ lines = [2, 3, 3, 5] ∧
      (l.without lines).ops = [.callsub 1, .ret, .label 1, .label 2, .int .push 1, .retsub] ∧
      Preserves .standard l (l.without lines) :=
  ⟨by decide, by decide +kernel, by decide +kernel,
    removals_preserve _ (by decide) .standard .standard {} _ fun _ h => h⟩

end Lint

end Teal
