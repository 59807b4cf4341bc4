import Teal.Lint.Flow
import Teal.Proofs.Machine.Loop
/-!
# Unreachable code is never executed

The rule `unreachable-code` is one scan with a flag. The machine gets to a line from the line above,
by a jump to a label, or by a return to a saved address. All of these are lines at which the flag of
the scan is off: `Open`. An open line hands this on to the next one unless it ends the flow, so
control is at an open line whenever a branch has its turn, and so is every address it may return to.
-/

namespace Teal.Lint

/-- The flag of the scan at a line: nothing reaches it. -/
def shut (used : LabelId → Bool) (dead : Bool) : List (Op LabelId) → Nat → Bool
  | [], _ => false
  | op :: _, 0 => dead && !op.declared?.any used
  | op :: rest, i + 1 => shut used (dead && !op.declared?.any used || op.endsFlow) rest i

section Scan
variable {used : LabelId → Bool} {dead : Bool} {ops : List (Op LabelId)} {op : Op LabelId} {i : Nat}

theorem shut_of_mem {start line : Nat} (h : line ∈ unreachableFrom used dead start ops) :
    ∃ i, line = start + i ∧ shut used dead ops i = true := by
  induction ops generalizing dead start with
  | nil => cases h
  | cons op rest ih =>
    have hlater : line ∈ unreachableFrom used (dead && !op.declared?.any used || op.endsFlow)
        (start + 1) rest → ∃ i, line = start + i ∧ shut used dead (op :: rest) i = true := by
      intro h
      obtain ⟨i, rfl, hi⟩ := ih h
      exact ⟨i + 1, by omega, hi⟩
    simp only [unreachableFrom] at h
    split at h
    · rename_i hdead
      rcases List.mem_cons.1 h with rfl | h
      · simp only [Bool.and_eq_true] at hdead
        exact ⟨0, rfl, by simpa [shut] using hdead.1⟩
      · exact hlater h
    · exact hlater h

/-- The flag is raised only by a line that ends the flow. -/
theorem shut_succ (h : shut used dead ops i = false) (hop : ops[i]? = some op)
    (hflow : op.endsFlow = false) : shut used dead ops (i + 1) = false := by
  induction ops generalizing dead i with
  | nil => rfl
  | cons o rest ih =>
    cases i with
    | zero =>
      simp only [List.getElem?_cons_zero, Option.some.injEq] at hop
      subst hop
      simp only [shut] at h ⊢
      rw [h, hflow]
      cases rest <;> rfl
    | succ i => exact ih h hop

/-- It is off where a label in use is declared. -/
theorem shut_declared {id : LabelId} (hop : ops[i]? = some op) (hid : op.declared? = some id)
    (hused : used id = true) : shut used dead ops i = false := by
  induction ops generalizing dead i with
  | nil => rfl
  | cons o rest ih =>
    cases i with
    | zero =>
      simp only [List.getElem?_cons_zero, Option.some.injEq] at hop
      subst hop
      simp [shut, hid, hused]
    | succ i => exact ih hop

end Scan

/-- Something may reach a line: the scan does not take it for unreachable. -/
def Open (l : Listing) (i : Nat) : Prop :=
  shut (fun id => l.references id != 0) false l.ops i = false

section Open
variable {l : Listing} {op : Op LabelId} {i : Nat}

theorem open_zero (l : Listing) : Open l 0 := by
  unfold Open
  cases l.ops <;> rfl

theorem not_open_of_unreachable (h : i ∈ unreachableLines l) : ¬Open l i := by
  obtain ⟨j, rfl, hj⟩ := shut_of_mem h
  simp [Open, hj]

theorem Open.next (h : Open l i) (hop : l.ops[i]? = some op) (hflow : op.endsFlow = false) :
    Open l (i + 1) :=
  shut_succ h hop hflow

theorem open_target {id : LabelId} (hop : op ∈ l.ops) (hid : id ∈ op.targets)
    (hi : l.target? id = some i) : Open l i := by
  obtain ⟨hlt, hdecl, -⟩ := List.findIdx?_eq_some_iff_getElem.1 hi
  exact shut_declared (List.getElem?_eq_getElem hlt) (by simpa using hdecl)
    (references_ne_zero hop hid)

/-- Lines that control skips do not end the flow. -/
theorem Open.fetch {pc : Nat} (h : Open l i) (hf : l.fetch? i = some (pc, op)) :
    l.ops[pc]? = some op ∧ Open l pc :=
  Listing.fetch?_induction hf h fun _ _ hj ho hskip => hj.next ho (Op.endsFlow_of_skipped hskip)

end Open

/-! ## Turns -/

/-- A branch that has only been at open lines, and will return to open lines only. -/
structure Reached (l : Listing) (b : Branch) : Prop where
  pc : Open l b.pc
  calls : b.thread.ReturnsTo (Open l)
  trace : ∀ line ∈ b.trace, Open l line

section Turn
variable {l : Listing} {b : Branch}

theorem Reached.charge (hb : Reached l b) (catalog : Catalog) (traced : Bool) {pc : Nat}
    (op : Op LabelId) {thread : Thread} (hpc : Open l pc) (hcalls : thread.ReturnsTo (Open l)) :
    Reached l (b.charge catalog traced pc op thread) := by
  refine ⟨hpc, hcalls, ?_⟩
  intro line hline
  simp only [Branch.charge] at hline
  split at hline
  · rcases List.mem_cons.1 hline with rfl | hline
    · exact hpc
    · exact hb.trace line hline
  · exact hb.trace line hline

/-- A turn executes an open line and leaves control at open lines. -/
theorem Reached.turn (hb : Reached l b) (catalog : Catalog) (traced : Bool) (scratch : Scratch) :
    let t := b.turn l catalog traced scratch
    Reached l t.branch ∧ (∀ pc ∈ t.others, Open l pc) ∧
      ∀ line, t.executed = some line → Open l line := by
  unfold Branch.turn
  split
  · exact ⟨hb, nofun, nofun⟩
  · split
    · exact ⟨hb, nofun, nofun⟩
    · rename_i pc op hf
      obtain ⟨hop, hpc⟩ := hb.pc.fetch hf
      have hnext : op.endsFlow = false → Open l (pc + 1) := hpc.next hop
      have htargets : ∀ id ∈ op.targets, ∀ i, l.target? id = some i → Open l i :=
        fun _ hid _ hi => open_target (List.mem_of_getElem? hop) hid hi
      have hexecuted : ∀ line, some pc = some line → Open l line := by
        rintro _ ⟨⟩
        exact hpc
      split
      · rename_i fault s hs
        exact ⟨hb.charge _ _ _ hpc (exec_error_along hnext htargets hb.calls hs), nofun, hexecuted⟩
      · rename_i approved s hs
        exact ⟨hb.charge _ _ _ hpc (exec_ok_along hnext htargets hb.calls hs).2, nofun, hexecuted⟩
      · rename_i next s hs
        obtain ⟨hlines, hcalls⟩ := exec_ok_along hnext htargets hb.calls hs
        have hcharge := hb.charge catalog traced op hpc hcalls
        have hline := hlines next List.mem_cons_self
        exact ⟨⟨hline, hcharge.calls, hcharge.trace⟩, nofun, hexecuted⟩
      · rename_i next others s hs
        obtain ⟨hlines, hcalls⟩ := exec_ok_along hnext htargets hb.calls hs
        have hcharge := hb.charge catalog traced op hpc hcalls
        have hline := hlines next List.mem_cons_self
        refine ⟨⟨hline, hcharge.calls, hcharge.trace⟩, ?_, hexecuted⟩
        intro pc' h
        exact hlines pc' (List.mem_cons_of_mem next h)

end Turn

theorem reached_branchwise (l : Listing) : Machine.Branchwise l (Reached l) := by
  intro b catalog traced scratch hb
  obtain ⟨hself, hothers, -⟩ := hb.turn catalog traced scratch
  refine ⟨hself, fun halt => ⟨hself.pc, hself.calls, hself.trace⟩, ?_⟩
  intro id pc hpc
  exact ⟨hothers pc hpc, hself.calls, hself.trace⟩

/-- Whatever commands a machine has carried out, no branch has executed a line that the rule
`unreachable-code` flags, and none is about to. -/
theorem unreachable_never_executed (c : Context) (catalog : Catalog) (config : Machine.Config)
    (commands : List Machine.Command) :
    let m := (Machine.start c.listing catalog config).performAll commands
    ∃ flagged, unreachableCode.check c = some flagged ∧ ∀ d ∈ flagged,
      (∀ b ∈ m.live ++ m.retired, d.line ∉ b.trace) ∧
        ∀ i, (m.stepAt i).2.executed ≠ some d.line := by
  intro m
  have hroot : Reached c.listing { budget := config.budget } :=
    ⟨open_zero c.listing, nofun, nofun⟩
  obtain ⟨hl, hreached⟩ := (reached_branchwise c.listing).performAll
    (fun b id hb => ⟨hb.pc, hb.calls, hb.trace⟩) catalog config hroot commands
  refine ⟨_, rfl, ?_⟩
  intro d hd
  obtain ⟨line, hline, rfl⟩ := List.mem_map.1 hd
  have hshut := not_open_of_unreachable hline
  refine ⟨fun b hb htrace => hshut ((hreached b hb).trace line htrace), fun i hexec => hshut ?_⟩
  have hb := hreached (m.live.get i) (List.mem_append_left _ (List.get_mem _ _))
  rw [← hl] at hb ⊢
  exact (hb.turn m.catalog m.config.trace m.scratch).2.2 line hexec

example : unreachableLines { ops := [.err, .int .pseudo 1, .label 0, .branch .always 0] } = [1] := by
  decide

end Teal.Lint
