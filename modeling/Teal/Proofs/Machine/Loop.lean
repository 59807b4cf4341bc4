import Teal.Proofs.Instruction
import Teal.Proofs.Machine.Command
/-!
# The loop of a run

`Machine.run` recurses on the effort that is left. `Machine.Completes` is the same loop by rules
that count the turns and mention no measure, so that a derivation is a loop that has come to its end.
Every run has one: `run_completes`. What the rules keep a run keeps, and what every command keeps
holds after all of them: `Invariant`.
-/

namespace Teal

namespace Machine

/-- The loop of a run, with `ids` left of the round, ends with `r` after `n` turns. -/
inductive Completes : Machine → List BranchId → Nat → Machine × RunOutcome → Prop
  | finished {m} : m.live = [] → Completes m [] 0 ({ m with current := none }, .finished)
  | round {m n r} : m.live ≠ [] → Completes m (m.live.map (·.id)) n r → Completes m [] n r
  | gone {m id ids n r} : m.indexOf? id = none → Completes m ids n r → Completes m (id :: ids) n r
  | stop {m id ids i line} : m.indexOf? id = some i → m.hit? (m.live.get i) = some line →
      Completes m (id :: ids) 0
        ({ m with current := some id, paused := some (id, line) }, .breakpoint id line)
  | turn {m id ids i n r} : m.indexOf? id = some i → m.hit? (m.live.get i) = none →
      Completes (m.stepAt i).1 ids n r → Completes m (id :: ids) (n + 1) r

variable {m : Machine}

/-- A round that stops before a breakpoint ends the loop. -/
theorem completes_of_stop {ids : List BranchId} {next : Machine} {id : BranchId} {line : Nat}
    (h : m.round ids = (next, some (id, line))) :
    ∃ n, Completes m ids n
      ({ next with current := some id, paused := some (id, line) }, .breakpoint id line) := by
  induction ids generalizing m with
  | nil => cases h
  | cons id' ids ih =>
    unfold round at h
    split at h
    · rename_i hi
      obtain ⟨n, hn⟩ := ih h
      exact ⟨n, .gone hi hn⟩
    · rename_i i hi
      split at h
      · rename_i line' hhit
        cases h
        exact ⟨0, .stop hi hhit⟩
      · rename_i hhit
        obtain ⟨n, hn⟩ := ih h
        exact ⟨n + 1, .turn hi hhit hn⟩

/-- After a whole round the loop goes on with the machine that it leaves. -/
theorem completes_of_round {ids : List BranchId} {next : Machine} (h : m.round ids = (next, none))
    {n : Nat} {r : Machine × RunOutcome} (hnext : Completes next [] n r) :
    ∃ k, Completes m ids k r := by
  induction ids generalizing m with
  | nil =>
    cases h
    exact ⟨n, hnext⟩
  | cons id ids ih =>
    unfold round at h
    split at h
    · rename_i hi
      obtain ⟨k, hk⟩ := ih h
      exact ⟨k, .gone hi hk⟩
    · rename_i i hi
      split at h
      · cases h
      · rename_i hhit
        obtain ⟨k, hk⟩ := ih h
        exact ⟨k + 1, .turn hi hhit hk⟩

/-- The loop of a run comes to an end, with what `run` gives. -/
theorem run_completes (m : Machine) : ∃ n, m.Completes [] n m.run := by
  induction hn : m.effort using Nat.strongRecOn generalizing m with
  | ind n ih =>
    rw [run]
    split
    · rename_i hlive
      exact ⟨0, .finished hlive⟩
    · rename_i hlive
      split
      · rename_i next id line h
        obtain ⟨k, hk⟩ := completes_of_stop h
        exact ⟨k, .round hlive hk⟩
      · rename_i next h
        have hlt := round_effort_lt hlive (by rw [h])
        rw [h] at hlt
        obtain ⟨k, hk⟩ := ih next.effort (hn ▸ hlt) next rfl
        obtain ⟨j, hj⟩ := completes_of_round h hk
        exact ⟨j, .round hlive hj⟩

/-- Without breakpoints no branch stands before one. -/
theorem hit?_eq_none (hm : m.breakpoints = .empty) (b : Branch) : m.hit? b = none := by
  refine Option.filter_eq_none_iff.2 fun line _ => ?_
  simp [hm, LineSet.contains, LineSet.empty]

/-- Without breakpoints a run goes on until no branch is left. -/
theorem Completes.finishes {ids : List BranchId} {n : Nat} {r : Machine × RunOutcome}
    (h : m.Completes ids n r) (hm : m.breakpoints = .empty) : r.1.live = [] ∧ r.2 = .finished := by
  induction h with
  | finished hlive => exact ⟨hlive, rfl⟩
  | round _ _ ih => exact ih hm
  | gone _ _ ih => exact ih hm
  | stop _ hhit => cases (hit?_eq_none hm _).symm.trans hhit
  | turn _ _ _ ih => exact ih hm

/-! ## Invariants -/

/-- Something that every turn keeps and that does not depend on where commands act. -/
structure Invariant (I : Machine → Prop) : Prop where
  turn {m : Machine} (i : Fin m.live.length) : I m → I (m.stepAt i).1
  view {m : Machine} (current : Option BranchId) (paused : Option (BranchId × Nat))
    (breakpoints : LineSet) : I m → I { m with current, paused, breakpoints }

namespace Invariant

variable {I : Machine → Prop}

theorem completes (hI : Invariant I) {ids : List BranchId} {n : Nat} {r : Machine × RunOutcome}
    (h : m.Completes ids n r) (hm : I m) : I r.1 := by
  induction h with
  | finished => exact hI.view _ _ _ hm
  | round _ _ ih => exact ih hm
  | gone _ _ ih => exact ih hm
  | stop => exact hI.view _ _ _ hm
  | turn _ _ _ ih => exact ih (hI.turn _ hm)

theorem run (hI : Invariant I) (hm : I m) : I m.run.1 := by
  obtain ⟨n, hn⟩ := m.run_completes
  exact hI.completes hn hm

theorem step (hI : Invariant I) (hm : I m) : I m.step.1 := by
  rcases m.step_cases with ⟨-, h⟩ | ⟨i, current, -, h⟩
  · rw [h]
    exact hm
  · rw [h]
    exact hI.view current (m.stepAt i).1.paused (m.stepAt i).1.breakpoints (hI.turn i hm)

theorem switch (hI : Invariant I) (hm : I m) (id : BranchId) : I (m.switch id).1 := by
  obtain ⟨current, h⟩ := m.switch_cases id
  rw [h]
  exact hI.view current m.paused m.breakpoints hm

theorem fork (hI : Invariant I)
    (hcopy : ∀ {m : Machine} (i : Fin m.live.length), I m → I (m.copy i)) (hm : I m) : I m.fork.1 := by
  rcases m.fork_cases with ⟨-, h⟩ | ⟨i, -, ⟨-, h⟩ | h⟩
  · rw [h]
    exact hm
  · rw [h]
    exact hI.view _ m.paused m.breakpoints (hcopy i hm)
  · rw [h]
    exact hI.view _ m.paused m.breakpoints hm

/-- What copying a branch keeps as well, all commands keep. -/
theorem performAll (hI : Invariant I)
    (hcopy : ∀ {m : Machine} (i : Fin m.live.length), I m → I (m.copy i))
    (hm : I m) (commands : List Command) : I (m.performAll commands) := by
  induction commands generalizing m with
  | nil => exact hm
  | cons c rest ih =>
    refine ih ?_
    cases c with
    | step => exact hI.step hm
    | run => exact hI.run hm
    | fork => exact hI.fork hcopy hm
    | switch id => exact hI.switch hm id
    | setBreakpoints lines => exact hI.view m.current m.paused lines hm

end Invariant

/-! ## Invariants of branches -/

/-- The turn that the branch at a place is about to have. -/
def turnAt (m : Machine) (i : Fin m.live.length) : Turn :=
  (m.live.get i).turn m.listing m.catalog m.config.trace m.scratch

theorem turnAt_cases (m : Machine) (i : Fin m.live.length) :
    (m.live.get i).TurnCases m.listing m.catalog m.config.trace m.scratch (m.turnAt i) :=
  Branch.turn_cases _ _ _ _ _

section Turn
variable {i : Fin m.live.length} {b : Branch}

/-- The live branches after a turn: those before it, the one that had its turn if it goes on, and
its copies. -/
theorem mem_live_stepAt (h : b ∈ (m.stepAt i).1.live) :
    b ∈ m.live ∨ ((m.turnAt i).halt = none ∧ b = (m.turnAt i).branch) ∨
      b ∈ m.children (m.turnAt i).branch (m.turnAt i).others := by
  unfold turnAt
  simp only [stepAt] at h
  generalize (m.live.get i).turn m.listing m.catalog m.config.trace m.scratch = t at h ⊢
  rcases List.mem_append.1 h with hb | hb
  · cases hh : t.halt with
    | none =>
      rw [hh] at hb
      rcases List.mem_or_eq_of_mem_set hb with hb | rfl
      · exact .inl hb
      · exact .inr (.inl ⟨rfl, rfl⟩)
    | some halt =>
      rw [hh] at hb
      exact .inl (List.mem_of_mem_eraseIdx hb)
  · exact .inr (.inr hb)

/-- The retired branches after a turn: those before it, and the one that had its turn if it has
stopped. -/
theorem mem_retired_stepAt (h : b ∈ (m.stepAt i).1.retired) :
    b ∈ m.retired ∨ ∃ halt, (m.turnAt i).halt = some halt ∧
      b = (m.turnAt i).branch.retire halt := by
  unfold turnAt
  simp only [stepAt] at h
  generalize (m.live.get i).turn m.listing m.catalog m.config.trace m.scratch = t at h ⊢
  rcases List.mem_append.1 h with hb | hb
  · exact .inl hb
  · cases hh : t.halt with
    | none =>
      rw [hh] at hb
      exact absurd hb List.not_mem_nil
    | some halt =>
      rw [hh] at hb
      exact .inr ⟨halt, rfl, List.mem_singleton.1 hb⟩

/-- The branches after a turn: those before it, the one that had its turn, and its copies. -/
theorem mem_of_mem_stepAt (h : b ∈ (m.stepAt i).1.live ++ (m.stepAt i).1.retired) :
    let t := (m.live.get i).turn m.listing m.catalog m.config.trace m.scratch
    b ∈ m.live ++ m.retired ∨ (b = t.branch ∨ ∃ halt, b = t.branch.retire halt) ∨
      ∃ id pc, b = t.branch.child id pc ∧ pc ∈ t.others := by
  intro t
  rcases List.mem_append.1 h with hb | hb
  · rcases mem_live_stepAt hb with hb | ⟨-, rfl⟩ | hb
    · exact .inl (List.mem_append_left _ hb)
    · exact .inr (.inl (.inl rfl))
    · obtain ⟨id, pc, rfl, -, hpc⟩ := mem_children hb
      exact .inr (.inr ⟨id, pc, rfl, hpc⟩)
  · rcases mem_retired_stepAt hb with hb | ⟨halt, -, rfl⟩
    · exact .inl (List.mem_append_right _ hb)
    · exact .inr (.inl (.inr ⟨_, rfl⟩))

end Turn

/-- What turns keep of a branch, and hand on to the branches that they fork off. -/
def Branchwise (l : Listing) (P : Branch → Prop) : Prop :=
  ∀ (b : Branch) (catalog : Catalog) (traced : Bool) (scratch : Scratch), P b →
    let t := b.turn l catalog traced scratch
    P t.branch ∧ (∀ halt, P (t.branch.retire halt)) ∧
      ∀ id, ∀ pc ∈ t.others, P (t.branch.child id pc)

theorem Branchwise.performAll {l : Listing} {P : Branch → Prop} (hP : Branchwise l P)
    (hcopy : ∀ b id, P b → P (b.child id b.pc)) (catalog : Catalog) (config : Config)
    (hroot : P { budget := config.budget }) (commands : List Command) :
    let m := (start l catalog config).performAll commands
    m.listing = l ∧ ∀ b ∈ m.live ++ m.retired, P b := by
  have hI : Invariant fun m => m.listing = l ∧ ∀ b ∈ m.live ++ m.retired, P b := by
    refine ⟨?_, fun _ _ _ hm => hm⟩
    rintro m i ⟨rfl, hm⟩
    refine ⟨rfl, fun b hb => ?_⟩
    obtain ⟨hself, hstopped, hforked⟩ := hP (m.live.get i) m.catalog m.config.trace m.scratch
      (hm _ (List.mem_append_left _ (List.get_mem _ _)))
    rcases mem_of_mem_stepAt hb with hb | (rfl | ⟨halt, rfl⟩) | ⟨id, pc, rfl, hpc⟩
    · exact hm b hb
    · exact hself
    · exact hstopped halt
    · exact hforked id pc hpc
  refine hI.performAll ?_ ⟨rfl, ?_⟩ commands
  · rintro m i ⟨hl, hm⟩
    refine ⟨hl, fun b hb => ?_⟩
    simp only [copy, List.mem_append, List.mem_singleton] at hb
    rcases hb with (hb | rfl) | hb
    · exact hm b (List.mem_append_left _ hb)
    · exact hcopy _ _ (hm _ (List.mem_append_left _ (List.get_mem _ _)))
    · exact hm b (List.mem_append_right _ hb)
  · intro b hb
    cases List.mem_singleton.1 hb
    exact hroot

end Machine

end Teal
