import Teal.Catalog.Standard
import Teal.Lint
import Teal.Proofs.Instruction.Faults
import Teal.Proofs.Machine.Reachable
/-!
# Faults that the linter foresees

The linter and the machine look up labels and opcodes each in their own way, and the machine only
where control comes to. What a fault says of the line that it comes from is so, whatever the values
were, and the rules on missing labels and unknown opcodes look for just that on every line. So each
of these faults has been remarked on before the program runs.
-/

namespace Teal

/-! ## Remarks -/

namespace Diagnostic

variable (d : Diagnostic) (text needle : String)

@[simp] theorem line_spanningWord : (d.spanningWord text needle).line = d.line := by
  unfold spanningWord
  split <;> rfl

@[simp] theorem rule_spanningWord : (d.spanningWord text needle).rule = d.rule := by
  unfold spanningWord
  split <;> rfl

@[simp] theorem message_spanningWord : (d.spanningWord text needle).message = d.message := by
  unfold spanningWord
  split <;> rfl

end Diagnostic

namespace Lint

/-- A rule makes a remark on a line in the given words. -/
def Rule.Remarks (rule : Rule) (c : Context) (line : Nat) (message : String) : Prop :=
  ∃ ds, rule.check c = some ds ∧
    ∃ d ∈ ds, d.rule = rule.name ∧ d.line = line ∧ d.message = message

/-- A rule has nothing to remark. -/
def Rule.Silent (rule : Rule) (c : Context) : Prop := rule.check c = some []

theorem Rule.Remarks.not_silent {rule : Rule} {c : Context} {line : Nat} {message : String}
    (h : rule.Remarks c line message) : ¬rule.Silent c := by
  obtain ⟨ds, hds, d, hd, -⟩ := h
  intro hsilent
  cases hds.symm.trans hsilent
  exact List.not_mem_nil hd

section Remarks
variable {c : Context} {line : Nat} {op : Op LabelId}

theorem remarks_missingLabel {id : LabelId} (hop : c.listing.ops[line]? = some op)
    (hid : id ∈ op.targets) (hnone : c.listing.target? id = none) :
    missingLabel.Remarks c line s!"label {c.listing.labels.name id} is not declared" := by
  have hmem : (line, id) ∈ missingLabels c.listing := by
    refine List.mem_flatMap.2 ⟨(op, line), List.mem_zipIdx_iff_getElem?.2 hop, ?_⟩
    refine List.mem_map.2 ⟨id, List.mem_filter.2 ⟨hid, ?_⟩, rfl⟩
    rw [Listing.target?_eq_head?, List.head?_eq_none_iff] at hnone
    rw [hnone, List.isEmpty_nil]
  exact ⟨_, rfl, _, List.mem_map_of_mem hmem, by simp [missingLabel], by simp, by simp⟩

theorem remarks_unknownOpcode {name : String} {immediates : List String}
    (hop : c.listing.ops[line]? = some (.instr name immediates))
    (hunknown : c.catalog.contains name = false) :
    unknownOpcode.Remarks c line s!"unknown opcode {name}" := by
  have hmem : (line, name) ∈ unknownOpcodes c.catalog c.listing := by
    refine List.mem_filterMap.2 ⟨(.instr name immediates, line), ?_, by simp [hunknown]⟩
    exact List.mem_zipIdx_iff_getElem?.2 hop
  exact ⟨_, rfl, _, List.mem_map_of_mem hmem, by simp [unknownOpcode], by simp, by simp⟩

end Remarks

end Lint

/-! ## Branches that have failed -/

/-- What the fault that stopped a branch says of the line where it stands is so. -/
def Branch.Accountable (l : Listing) (catalog : Catalog) (b : Branch) : Prop :=
  ∀ f, b.fault? = some f → ∃ op, l.ops[b.pc]? = some op ∧ f.Fits l catalog op

namespace Branch

variable {l : Listing} {catalog : Catalog} {b : Branch}

theorem accountable_of_running (h : b.halt = none) : b.Accountable l catalog := by
  intro f hf
  simp [fault?, h] at hf

/-- A branch that fails stands at the line that failed. -/
theorem accountable_turn (traced : Bool) (scratch : Scratch) :
    let t := b.turn l catalog traced scratch
    (t.branch.settle t.halt).Accountable l catalog := by
  intro t f hf
  have hhalt : t.halt = some (.faulted f) := by
    simp only [fault?] at hf
    split at hf
    · rename_i f' hf'
      cases hf
      exact hf'
    · cases hf
  revert hhalt
  simp only [t, turn]
  split
  · intro hhalt
    cases hhalt
  · split
    · intro hhalt
      cases hhalt
    · rename_i pc op hfetch
      split
      · rename_i fault s hexec
        intro hhalt
        cases hhalt
        exact ⟨op, Listing.getElem?_of_fetch? hfetch, failsOnly_exec l catalog pc op _ _ _ hexec⟩
      · intro hhalt
        cases hhalt
      all_goals
        -- A branch that goes on can stop only for lack of budget.
        simp only [goOn]
        split
        · intro hhalt
          cases hhalt
        · intro hhalt
          cases hhalt

end Branch

namespace Machine

variable {l : Listing} {catalog : Catalog} {config : Config} {m : Machine}

theorem Reachable.accountable (h : Reachable l catalog config m) :
    ∀ b ∈ m.live ++ m.retired, b.Accountable l catalog := by
  refine h.branches (Branch.accountable_of_running rfl) ?_ ?_
  · intro b scratch hrunning _ t
    have hsame : t.branch.halt = none :=
      ((b.turn_cases l catalog config.trace scratch).same.2.2).trans hrunning
    exact ⟨Branch.accountable_turn config.trace scratch,
      fun _ _ _ => Branch.accountable_of_running hsame⟩
  · intro b id hrunning _
    exact Branch.accountable_of_running hrunning

end Machine

namespace Lint

/-- A branch that has failed over a label or an opcode stands at a line that the rule for it has
remarked on, for the same name. Where the two rules are silent no branch fails so, whatever the
limits are and in whatever order the branches have their turns. -/
theorem faults_foreseen (l : Listing) (catalog : Catalog) (checks : Config) :
    let c : Context := { listing := l, catalog, config := checks }
    (∀ config commands, Machine.Reachable l catalog config
      ((Machine.start l catalog config).performAll commands)) ∧
    (∀ config m, Machine.Reachable l catalog config m → ∀ b ∈ m.live ++ m.retired, ∀ name,
      (b.fault? = some (.missingLabel name) →
        missingLabel.Remarks c b.pc s!"label {name} is not declared") ∧
      (b.fault? = some (.unknownOpcode name) →
        unknownOpcode.Remarks c b.pc s!"unknown opcode {name}")) ∧
    (missingLabel.Silent c → unknownOpcode.Silent c →
      ∀ config m, Machine.Reachable l catalog config m → ∀ b ∈ m.live ++ m.retired, ∀ name,
        b.fault? ≠ some (.missingLabel name) ∧ b.fault? ≠ some (.unknownOpcode name)) := by
  intro c
  have hlabel : ∀ config m, Machine.Reachable l catalog config m → ∀ b ∈ m.live ++ m.retired,
      ∀ name, b.fault? = some (.missingLabel name) →
        missingLabel.Remarks c b.pc s!"label {name} is not declared" := by
    intro config m h b hb name hf
    obtain ⟨op, hop, id, hid, hnone, rfl⟩ := h.accountable b hb _ hf
    exact remarks_missingLabel hop hid hnone
  have hopcode : ∀ config m, Machine.Reachable l catalog config m → ∀ b ∈ m.live ++ m.retired,
      ∀ name, b.fault? = some (.unknownOpcode name) →
        unknownOpcode.Remarks c b.pc s!"unknown opcode {name}" := by
    intro config m h b hb name hf
    obtain ⟨op, hop, ⟨immediates, rfl⟩, hunknown⟩ := h.accountable b hb _ hf
    exact remarks_unknownOpcode hop hunknown
  refine ⟨Machine.reachable_performAll l catalog, ?_, ?_⟩
  · intro config m h b hb name
    exact ⟨hlabel config m h b hb name, hopcode config m h b hb name⟩
  · intro hsilent hsilent' config m h b hb name
    exact ⟨fun hf => (hlabel config m h b hb name hf).not_silent hsilent,
      fun hf => (hopcode config m h b hb name hf).not_silent hsilent'⟩

/-- A program that goes on to a label that is nowhere declared, or to an opcode that nobody knows. -/
def lostWays : Listing :=
  { ops := [.instr "txn" ["Fee"], .branch .ifNonZero 0, .switch [0, 1], .label 0,
      .instr "fly" []]
    labels := .ofList ["away", "nowhere"] }

theorem faults_foreseen_both_ways :
    let c : Context := { listing := lostWays, catalog := .standard, config := {} }
    let m := (Machine.start lostWays .standard {}).performAll [.run]
    m.retired.map (fun b => (b.pc, b.fault?)) =
        [(2, some (.missingLabel "nowhere")), (4, some (.unknownOpcode "fly"))] ∧
      missingLabel.Remarks c 2 "label nowhere is not declared" ∧
      unknownOpcode.Remarks c 4 "unknown opcode fly" := by
  intro c m
  let lost := m.retired.get ⟨0, by decide +kernel⟩
  let flown := m.retired.get ⟨1, by decide +kernel⟩
  obtain ⟨hreachable, hforeseen, -⟩ := faults_foreseen lostWays .standard {}
  have hm := hforeseen {} m (hreachable {} [.run])
  have hlost := (hm lost (List.mem_append_right _ (List.get_mem _ _)) "nowhere").1
  have hflown := (hm flown (List.mem_append_right _ (List.get_mem _ _)) "fly").2
  have hpc : lost.pc = 2 := by decide +kernel
  have hpc' : flown.pc = 4 := by decide +kernel
  rw [hpc] at hlost
  rw [hpc'] at hflown
  exact ⟨by decide +kernel, hlost (by decide +kernel), hflown (by decide +kernel)⟩

end Lint

end Teal
