import Teal.Debugger
import Teal.Proofs.Machine.Loop
/-!
# Sessions come to an end

Programs may loop and fork without end, but every turn takes some of the effort that a machine is
good for, and nothing gives any back. So the loops behind `Machine.run` and `Session.drive` come to
an end, and over a whole session there are no more turns than a fresh machine is good for.

The loops are stated by rules that count turns, `Machine.Completes` and `Session.Drives`, and what
is asked of a session is a `Session.Request`.
-/

namespace Teal

/-! ## The effort of a machine -/

namespace Machine

variable {m : Machine}

/-- A fresh machine is good for the whole budget on each branch there may be. -/
theorem start_effort (l : Listing) (catalog : Catalog) (config : Config) :
    (start l catalog config).effort = max 1 config.maxBranches * max 1 config.budget := by
  simp only [effort, start, room, turns, peak, Branch.turnsLeft]
  cases config.maxBranches with
  | zero => simp
  | succ k =>
    have hk : max 1 (k + 1) = k + 1 := by omega
    simp only [hk, Nat.add_sub_cancel, Nat.add_zero, Nat.max_zero, Nat.add_mul, Nat.one_mul]
    omega

theorem switch_effort (m : Machine) (id : BranchId) : (m.switch id).1.effort = m.effort := by
  obtain ⟨current, h⟩ := m.switch_cases id
  rw [h]
  rfl

/-- A copy of a branch is one of the branches that may still be made, and has as many turns left as
the branch itself. -/
theorem copy_effort_le (i : Fin m.live.length) (hroom : 0 < m.room) :
    (m.copy i).effort ≤ m.effort := by
  have hcopy : (m.live.get i).turnsLeft ≤ peak m.live := turnsLeft_le_peak (List.get_mem m.live i)
  have hpeak : peak (m.copy i).live ≤ peak m.live := by
    refine peak_le fun b hb => ?_
    rcases List.mem_append.1 hb with hb | hb
    · exact turnsLeft_le_peak hb
    · cases List.mem_singleton.1 hb
      exact hcopy
  have hturns : turns (m.copy i).live ≤ turns m.live + peak m.live := by
    rw [copy, turns_append]
    exact Nat.add_le_add_left hcopy _
  have hroom' : m.room = (m.copy i).room + 1 := by
    simp only [room, copy] at hroom ⊢
    omega
  have hmul := Nat.mul_le_mul_left (m.copy i).room hpeak
  rw [effort, effort, hroom', Nat.add_mul, Nat.one_mul]
  omega

theorem fork_effort_le (m : Machine) : m.fork.1.effort ≤ m.effort := by
  rcases m.fork_cases with ⟨-, h⟩ | ⟨i, -, ⟨hlt, h⟩ | h⟩
  · exact Nat.le_of_eq (congrArg (effort ·.1) h)
  · rw [h]
    exact copy_effort_le i (Nat.sub_pos_of_lt hlt)
  · exact Nat.le_of_eq (congrArg (effort ·.1) h)

theorem Completes.effort_le {ids : List BranchId} {n : Nat} {r : Machine × RunOutcome}
    (h : m.Completes ids n r) : n + r.1.effort ≤ m.effort := by
  induction h with
  | finished => exact Nat.le_of_eq (Nat.zero_add _)
  | round _ _ ih => exact ih
  | gone _ _ ih => exact ih
  | stop => exact Nat.le_of_eq (Nat.zero_add _)
  | @turn m _ _ i _ _ _ _ _ ih =>
    have hlt := m.stepAt_effort_lt i
    omega

theorem live_of_step_refused {next : Machine} {e : MachineError} (h : m.step = (next, .error e)) :
    m.live = [] ∧ next = m := by
  rcases m.step_cases with ⟨hlive, hstep⟩ | ⟨i, current, -, hstep⟩
  · cases hstep.symm.trans h
    exact ⟨hlive, rfl⟩
  · cases hstep.symm.trans h

theorem live_of_step_goesOn {next : Machine} {report : Report} (h : m.step = (next, .ok report))
    (hhalt : report.halted = none) : next.live ≠ [] := by
  rcases m.step_cases with ⟨-, hstep⟩ | ⟨i, current, -, hstep⟩
  · cases hstep.symm.trans h
  · cases hstep.symm.trans h
    simp only [stepAt] at hhalt ⊢
    rw [hhalt]
    intro hnil
    have hlen := congrArg List.length hnil
    simp only [List.length_append, List.length_set, List.length_nil] at hlen
    have := i.isLt
    omega

end Machine

/-! ## Stepping -/

namespace Session

/-- The loop of a stepping command on the branch `id` ends with `r` after `n` turns. -/
inductive Drives : Machine → Stepping → BranchId → Nat → Session × Except MachineError Stop → Prop
  | refused {m stepping id next e} : m.step = (next, .error e) →
      Drives m stepping id 0 ({ machine := next, stepping }, .error e)
  | halted {m stepping id next report halt} : m.step = (next, .ok report) →
      report.halted = some halt →
      Drives m stepping id 1
        ({ machine := next, stepping := { stepping with lastLine := report.executed } },
          .ok (.halted id halt))
  | left {m stepping id next report} : m.step = (next, .ok report) → report.halted = none →
      next.position? = none →
      Drives m stepping id 1 ({ machine := next, stepping }, .ok .finished)
  | paused {m stepping id next report id' line} : m.step = (next, .ok report) →
      report.halted = none → next.position? = some (id', line) →
      stepping.shouldBreak line (next.depthOf id) = true →
      Drives m stepping id 1
        ({ machine := next, stepping := { stepping with lastLine := some line } },
          .ok (.paused id line))
  | again {m stepping id next report id' line n r} : m.step = (next, .ok report) →
      report.halted = none → next.position? = some (id', line) →
      stepping.shouldBreak line (next.depthOf id) = false → Drives next stepping id n r →
      Drives m stepping id (n + 1) r

/-- The loop of a stepping command comes to an end, with what `drive` gives. -/
theorem drive_drives (m : Machine) (stepping : Stepping) (id : BranchId) :
    ∃ n, Drives m stepping id n (drive m stepping id) := by
  induction hn : m.effort using Nat.strongRecOn generalizing m with
  | ind n ih =>
    rw [drive]
    split
    · rename_i next e h
      exact ⟨0, .refused h⟩
    · rename_i next report h
      split
      · rename_i halt hhalt
        exact ⟨1, .halted h hhalt⟩
      · rename_i hhalt
        split
        · rename_i hpos
          exact ⟨1, .left h hhalt hpos⟩
        · rename_i id' line hpos
          split
          · rename_i hbreak
            exact ⟨1, .paused h hhalt hpos hbreak⟩
          · rename_i hbreak
            obtain ⟨k, hk⟩ := ih next.effort (hn ▸ Machine.step_effort_lt h) next rfl
            exact ⟨k + 1, .again h hhalt hpos (by simpa using hbreak) hk⟩

section Drives
variable {m : Machine} {stepping : Stepping} {id : BranchId} {n : Nat}
  {r : Session × Except MachineError Stop}

theorem Drives.effort_le (h : Drives m stepping id n r) :
    n + r.1.machine.effort ≤ m.effort := by
  induction h with
  | refused h =>
    rw [(Machine.live_of_step_refused h).2]
    exact Nat.le_of_eq (Nat.zero_add _)
  | halted h | left h | paused h =>
    have hlt := Machine.step_effort_lt h
    dsimp only
    omega
  | again h _ _ _ _ ih =>
    have hlt := Machine.step_effort_lt h
    omega

/-- The loop of a stepping command is refused only where no branch is live, and a turn after which
it goes on leaves one. -/
theorem Drives.live_of_refused (h : Drives m stepping id n r) {e : MachineError}
    (he : r.2 = .error e) : m.live = [] := by
  induction h with
  | refused h => exact (Machine.live_of_step_refused h).1
  | halted | left | paused => cases he
  | again h hhalt _ _ _ ih => exact absurd (ih he) (Machine.live_of_step_goesOn h hhalt)

end Drives

/-- A stepping command that is refused changes nothing. -/
theorem stepBy_refused {s : Session} {mode : StepMode} {e : MachineError}
    (h : (s.stepBy mode).2 = .error e) : (s.stepBy mode).1 = s := by
  cases hid : s.machine.current.or (s.machine.live.head?.map (·.id)) with
  | none => simp only [stepBy, hid]
  | some id =>
    rcases s.machine.switch_answers id with ⟨hlive, hswitch⟩ | ⟨e', hswitch⟩
    · -- The branch to be stepped is live, so its first turn is not refused.
      simp only [stepBy, hid, hswitch] at h
      obtain ⟨n, hdrives⟩ := drive_drives { s.machine with current := some id } _ id
      exact absurd (hdrives.live_of_refused h) hlive
    · simp only [stepBy, hid, hswitch]

/-! ## Whole sessions -/

/-- What can be asked of a session. -/
inductive Request where
  /-- A command to the machine itself. -/
  | command (c : Machine.Command)
  /-- Step the current branch. -/
  | stepBy (mode : StepMode)
  /-- Run all branches to the next breakpoint of the session. -/
  | resume
  /-- Stop stepping. -/
  | pause
  /-- Change breakpoints, mode or depth by hand. -/
  | adjust (stepping : Stepping)

/-- The session after a request. -/
def answer (s : Session) : Request → Session
  | .command c => { s with machine := (s.machine.perform c).1 }
  | .stepBy mode => (s.stepBy mode).1
  | .resume => s.resume.1
  | .pause => s.pause.1
  | .adjust stepping => { s with stepping }

/-- A request takes `n` turns: those of the loop behind it, if it has one. -/
def Takes (s : Session) (n : Nat) : Request → Prop
  | .command .step =>
    match s.machine.step.2 with
    | .ok _ => n = 1
    | .error _ => n = 0
  | .command .run => s.machine.Completes [] n s.machine.run
  | .resume =>
    let m := s.machine.setBreakpoints s.stepping.breakpoints
    m.Completes [] n m.run
  | .stepBy mode =>
    match s.machine.current.or (s.machine.live.head?.map (·.id)) with
    | none => n = 0
    | some id =>
      match s.machine.switch id with
      | (_, .error _) => n = 0
      | (machine, .ok ()) =>
        let stepping := { s.stepping with mode, depth := machine.depthOf id }
        Drives machine stepping id n (drive machine stepping id)
  | _ => n = 0

/-- Requests one after the other take `n` turns in all. -/
inductive TakesAll : Session → List Request → Nat → Prop
  | nil {s} : TakesAll s [] 0
  | cons {s r rest n k} :
      s.Takes n r → TakesAll (s.answer r) rest k → TakesAll s (r :: rest) (n + k)

variable {s : Session}

theorem exists_takes (s : Session) (r : Request) : ∃ n, s.Takes n r := by
  cases r with
  | command c =>
    cases c with
    | step =>
      simp only [Takes]
      split <;> exact ⟨_, rfl⟩
    | run => exact s.machine.run_completes
    | fork | switch | setBreakpoints => exact ⟨0, rfl⟩
  | stepBy mode =>
    simp only [Takes]
    split
    · exact ⟨0, rfl⟩
    · split
      · exact ⟨0, rfl⟩
      · exact drive_drives _ _ _
  | resume => exact Machine.run_completes _
  | pause | adjust => exact ⟨0, rfl⟩

theorem exists_takesAll (s : Session) (requests : List Request) : ∃ n, s.TakesAll requests n := by
  induction requests generalizing s with
  | nil => exact ⟨0, .nil⟩
  | cons r rest ih =>
    obtain ⟨n, hn⟩ := s.exists_takes r
    obtain ⟨k, hk⟩ := ih (s.answer r)
    exact ⟨n + k, .cons hn hk⟩

theorem command_effort_le {c : Machine.Command} {n : Nat} (h : s.Takes n (.command c)) :
    n + (s.machine.perform c).1.effort ≤ s.machine.effort := by
  cases c with
  | step =>
    revert h
    simp only [Takes, Machine.perform]
    generalize hr : s.machine.step = r
    obtain ⟨next, e | report⟩ := r
    · rintro rfl
      cases (Machine.live_of_step_refused hr).2
      exact Nat.le_of_eq (Nat.zero_add _)
    · rintro rfl
      have hlt := Machine.step_effort_lt hr
      dsimp only
      omega
  | run => exact h.effort_le
  | fork =>
    cases h
    rw [Nat.zero_add]
    exact s.machine.fork_effort_le
  | switch id =>
    cases h
    rw [Nat.zero_add]
    exact Nat.le_of_eq (s.machine.switch_effort id)
  | setBreakpoints lines =>
    cases h
    exact Nat.le_of_eq (Nat.zero_add _)

theorem stepBy_effort_le {mode : StepMode} {n : Nat} (h : s.Takes n (.stepBy mode)) :
    n + (s.answer (.stepBy mode)).machine.effort ≤ s.machine.effort := by
  revert h
  simp only [Takes, answer, stepBy]
  cases s.machine.current.or (s.machine.live.head?.map (·.id)) with
  | none =>
    rintro rfl
    exact Nat.le_of_eq (Nat.zero_add _)
  | some id =>
    have hswitch := s.machine.switch_effort id
    dsimp only
    generalize s.machine.switch id = r at hswitch ⊢
    obtain ⟨machine, e | _⟩ := r
    · rintro rfl
      rw [Nat.zero_add]
      exact Nat.le_of_eq hswitch
    · rw [← hswitch]
      exact fun h => h.effort_le

/-- A request takes no more turns than it takes effort. -/
theorem Takes.effort_le {r : Request} {n : Nat} (h : s.Takes n r) :
    n + (s.answer r).machine.effort ≤ s.machine.effort := by
  cases r with
  | command c => exact command_effort_le h
  | stepBy mode => exact stepBy_effort_le h
  | resume =>
    have hle := Machine.Completes.effort_le h
    simp only [answer, resume]
    split <;> exact hle
  | pause =>
    cases h
    simp only [answer, pause]
    split <;> exact Nat.le_of_eq (Nat.zero_add _)
  | adjust =>
    cases h
    exact Nat.le_of_eq (Nat.zero_add _)

theorem TakesAll.le_effort {requests : List Request} {n : Nat} (h : s.TakesAll requests n) :
    n ≤ s.machine.effort := by
  induction h with
  | nil => exact Nat.zero_le _
  | cons h _ ih =>
    have hle := h.effort_le
    omega

/-- Runs and stepping commands return, whatever the machine. Over a whole session there are at most
as many turns as there may be branches, times the budget of one. -/
theorem execution_ends :
    (∀ m : Machine, ∃ n, m.Completes [] n m.run) ∧
    (∀ (m : Machine) (stepping : Stepping) (id : BranchId),
      ∃ n, Drives m stepping id n (drive m stepping id)) ∧
    ∀ (l : Listing) (catalog : Catalog) (config : Machine.Config) (requests : List Request),
      let s := start (.start l catalog config)
      (∃ n, s.TakesAll requests n) ∧
        ∀ n, s.TakesAll requests n → n ≤ max 1 config.maxBranches * max 1 config.budget := by
  refine ⟨Machine.run_completes, drive_drives, fun l catalog config requests => ?_⟩
  refine ⟨exists_takesAll _ _, fun n hn => ?_⟩
  rw [← Machine.start_effort l catalog config]
  exact hn.le_effort

end Session

end Teal
