import Teal.Catalog.Standard
import Teal.Proofs.Machine.Moment
import Teal.Proofs.Machine.Schedule
/-!
# Resuming runs

A run that stops before a breakpoint is resumed by another run, until one is finished:
`Machine.RunsOut`. It comes to that, because a run that stops without any turn lets the first live
branch pass the next time.

`Machine.plain` is a machine without breakpoints. A run and a plain one make the same turns until
the first stop, and then the next run begins a round of its own. Where the whole round was left at
the stop, this is the round that the plain run goes on with, and the breakpoints make no difference.
Where branches have had their turn in the round already, they have another one before the branch
that was stopped, and the order of turns is another: `resumed_run_differs`.
-/

namespace Teal

namespace Machine

/-- The machine without breakpoints, and without what a run leaves to be seen of them. -/
def plain (m : Machine) : Machine :=
  { m with current := none, breakpoints := .empty, paused := none }

/-- `m` is run again and again until a run is finished, with `m'`; `runs` are the machines that were
run. -/
inductive RunsOut : Machine → List Machine → Machine → Prop
  | finished {m} : m.run.2 = .finished → RunsOut m [m] m.run.1
  | again {m id line runs m'} : m.run.2 = .breakpoint id line → RunsOut m.run.1 runs m' →
      RunsOut m (m :: runs) m'

/-- Where a run stops, all live branches are still to have their turn in the round. -/
def StopsInStep (m : Machine) : Prop :=
  ∀ reports m' id rest i line, m.Advances [] reports m' (id :: rest) → m'.indexOf? id = some i →
    m'.hit? (m'.live.get i) = some line → id :: rest = m'.live.map Branch.id

variable {m m' : Machine} {reports : List Report} {ids ids' : List BranchId} {runs : List Machine}

/-! ## Running out -/

theorem Advances.effort_le (h : m.Advances ids reports m' ids') :
    reports.length + m'.effort ≤ m.effort := by
  induction h with
  | here => exact Nat.le_of_eq (Nat.zero_add _)
  | round _ _ ih => exact ih
  | gone _ _ ih => exact ih
  | @turn m _ _ i _ _ _ _ _ _ ih =>
    have hlt := m.stepAt_effort_lt i
    rw [List.length_cons]
    omega

theorem Ends.effort_le {r : Machine × RunOutcome} (h : m.Ends [] reports r) :
    reports.length + r.1.effort ≤ m.effort := by
  cases h with
  | finished hadv => exact hadv.effort_le
  | stopped hadv => exact hadv.effort_le

theorem live_of_run_stops {id : BranchId} {line : Nat} (h : m.run.2 = .breakpoint id line) :
    m.live ≠ [] := by
  intro hlive
  rw [run, dif_pos hlive] at h
  cases h

/-- A branch is not stopped twice at one place. -/
theorem hit?_of_stopped {b : Branch} {line : Nat} (hhit : m.hit? b = some line)
    (current : Option BranchId) :
    ({ m with current, paused := some (b.id, line) } : Machine).hit? b = none := by
  by_contra hne
  obtain ⟨line', hhit'⟩ := Option.ne_none_iff_exists'.1 hne
  obtain ⟨hnext, -, -⟩ := hit?_eq_some_iff.1 hhit
  obtain ⟨hnext', -, hpaused⟩ := hit?_eq_some_iff.1 hhit'
  cases hnext.symm.trans hnext'
  exact hpaused rfl

/-- A run that does not stop at once leaves less to do to the next one. -/
theorem exists_runsOut_of_passing
    (ih : ∀ next : Machine, next.effort < m.effort → ∃ runs m', next.RunsOut runs m')
    (hfirst : ∀ b bs, m.live = b :: bs → m.hit? b = none) : ∃ runs m', m.RunsOut runs m' := by
  cases hout : m.run.2 with
  | finished => exact ⟨_, _, .finished hout⟩
  | breakpoint id line =>
    obtain ⟨reports, hends⟩ := m.run_ends
    obtain ⟨b, bs, hlive⟩ := List.exists_cons_of_ne_nil (live_of_run_stops hout)
    rcases hends.first hlive with ⟨line', hhit, -⟩ | ⟨-, i, rest, -, rfl⟩
    · cases (hfirst b bs hlive).symm.trans hhit
    · have hle := hends.effort_le
      rw [List.length_cons] at hle
      obtain ⟨runs, m', hruns⟩ := ih m.run.1 (by omega)
      exact ⟨_, m', .again hout hruns⟩

/-- Running a machine again and again comes to an end. -/
theorem exists_runsOut (m : Machine) : ∃ runs m', m.RunsOut runs m' := by
  induction hn : m.effort using Nat.strongRecOn generalizing m with
  | ind n ih =>
    have hrest : ∀ next : Machine, next.effort < m.effort → ∃ runs m', next.RunsOut runs m' :=
      fun next hlt => ih next.effort (hn ▸ hlt) next rfl
    cases hlive : m.live with
    | nil => exact exists_runsOut_of_passing hrest (by simp [hlive])
    | cons b bs =>
      obtain ⟨reports, hends⟩ := m.run_ends
      rcases hends.first hlive with ⟨line, hhit, -, hrun⟩ | ⟨hhit, -⟩
      · -- Nothing was done but that the stop is remembered, so the next run begins with a turn.
        have hpass : ∀ c cs, m.run.1.live = c :: cs → m.run.1.hit? c = none := by
          rw [hrun]
          intro c cs hcons
          cases hlive.symm.trans hcons
          exact hit?_of_stopped hhit _
        obtain ⟨runs, m', hruns⟩ := exists_runsOut_of_passing
          (m := m.run.1) (by rw [hrun]; exact hrest) hpass
        exact ⟨_, m', .again (by rw [hrun]) hruns⟩
      · refine exists_runsOut_of_passing hrest fun c cs hcons => ?_
        cases hlive.symm.trans hcons
        exact hhit

/-! ## Without breakpoints -/

/-- What a run does does not depend on the breakpoints until it stops. -/
theorem Advances.plain (h : m.Advances ids reports m' ids') :
    m.plain.Advances ids reports m'.plain ids' := by
  induction h with
  | here => exact .here
  | round hlive _ ih => exact .round hlive ih
  | gone hgone _ ih => exact .gone hgone ih
  | @turn m _ _ i _ _ _ hi _ _ ih => exact .turn (m := m.plain) hi (hit?_eq_none rfl _) ih

/-- What the loop of a run comes to with `ids` left of the round. -/
def runFrom (m : Machine) (ids : List BranchId) : Machine × RunOutcome :=
  match m.round ids with
  | (next, some (id, line)) =>
    ({ next with current := some id, paused := some (id, line) }, .breakpoint id line)
  | (next, none) => next.run

theorem runFrom_round (hlive : m.live ≠ []) : m.runFrom (m.live.map Branch.id) = m.run := by
  rw [run, dif_neg hlive]
  split
  · rename_i next id line hround
    simp only [runFrom, hround]
  · rename_i next hround
    simp only [runFrom, hround]

/-- The loop comes to the same from each of its moments. -/
theorem Advances.runFrom_eq (h : m.Advances ids reports m' ids') :
    m.runFrom ids = m'.runFrom ids' := by
  induction h with
  | here => rfl
  | round hlive _ ih => exact (runFrom_round hlive).symm.trans ih
  | gone hgone _ ih =>
    rw [← ih, runFrom, Machine.round, hgone]
    rfl
  | turn hi hhit _ ih =>
    rw [← ih, runFrom, Machine.round, hi]
    dsimp only
    rw [hhit]
    rfl

/-- If every run stops in step, all runs together come to what one run without breakpoints does. -/
theorem RunsOut.run_plain (h : m.RunsOut runs m') (hstep : ∀ x ∈ runs, x.StopsInStep) :
    m.plain.run = (m'.plain, .finished) := by
  induction h with
  | @finished m hout =>
    obtain ⟨reports, hends⟩ := m.run_ends
    generalize m.run = r at hends hout ⊢
    cases hends with
    | @finished next hadv hlive =>
      calc m.plain.run = next.plain.run := hadv.plain.runFrom_eq
        _ = (next.plain, .finished) := by
          rw [run, dif_pos (show next.plain.live = [] from hlive)]
          rfl
    | stopped => cases hout
  | @again m id line runs m' hout _ ih =>
    rw [List.forall_mem_cons] at hstep
    rw [← ih hstep.2]
    obtain ⟨reports, hends⟩ := m.run_ends
    generalize m.run = r at hends hout ⊢
    cases hends with
    | finished => cases hout
    | @stopped next id rest i line hadv hi hhit =>
      have hround := hstep.1 _ _ _ _ _ _ hadv hi hhit
      have hnext : next.plain.live ≠ [] := List.ne_nil_of_mem (List.get_mem next.live i)
      calc m.plain.run = next.plain.runFrom (id :: rest) := hadv.plain.runFrom_eq
        _ = next.plain.runFrom (next.plain.live.map Branch.id) := by
          rw [hround]
          rfl
        _ = next.plain.run := runFrom_round hnext

theorem start_run_finished (l : Listing) (catalog : Catalog) (config : Config) :
    (start l catalog config).run.1.live = [] ∧ (start l catalog config).run.2 = .finished := by
  obtain ⟨n, hrun⟩ := (start l catalog config).run_completes
  exact hrun.finishes rfl

/-- A machine without breakpoints does not stop. -/
theorem stopsInStep_start (l : Listing) (catalog : Catalog) (config : Config) :
    (start l catalog config).StopsInStep := by
  intro reports m' id rest i line hadv hi hhit
  obtain ⟨-, hbreak, -⟩ := hit?_eq_some_iff.1 hhit
  rw [hadv.breakpoints] at hbreak
  simp [start, LineSet.contains, LineSet.empty] at hbreak

/-! ## What runs keep -/

theorem Invariant.runsOut {I : Machine → Prop} (hI : Invariant I) (h : m.RunsOut runs m')
    (hm : I m) : I m' ∧ ∀ x ∈ runs, I x := by
  induction h with
  | finished => exact ⟨hI.run hm, List.forall_mem_singleton.2 hm⟩
  | again _ _ ih =>
    obtain ⟨hm', hruns⟩ := ih (hI.run hm)
    exact ⟨hm', List.forall_mem_cons.2 ⟨hm, hruns⟩⟩

theorem RunsOut.live (h : m.RunsOut runs m') : m'.live = [] := by
  induction h with
  | @finished m hout =>
    obtain ⟨reports, hends⟩ := m.run_ends
    generalize m.run = r at hends hout ⊢
    cases hends with
    | finished _ hlive => exact hlive
    | stopped => cases hout
  | again _ _ ih => exact ih

/-- What is left of a round are live branches, each of them once. -/
structure Ahead (m : Machine) (ids : List BranchId) : Prop where
  nodup : ids.Nodup
  live : ∀ id ∈ ids, ∃ b ∈ m.live, b.id = id

theorem Consistent.ahead (hm : m.Consistent) : m.Ahead (m.live.map Branch.id) where
  nodup := hm.order.imp Nat.ne_of_lt
  live id hid := by
    obtain ⟨b, hb, hbid⟩ := List.mem_map.1 hid
    exact ⟨b, hb, hbid⟩

theorem Advances.ahead (h : m.Advances ids reports m' ids') (hm : m.Consistent)
    (hids : m.Ahead ids) : m'.Ahead ids' := by
  induction h with
  | here => exact hids
  | round _ _ ih => exact ih hm hm.ahead
  | gone _ _ ih =>
    refine ih hm ⟨(List.nodup_cons.1 hids.nodup).2, fun x hx => ?_⟩
    exact hids.live x (List.mem_cons_of_mem _ hx)
  | @turn m id ids i _ _ _ hi _ _ ih =>
    obtain ⟨hid, hnodup⟩ := List.nodup_cons.1 hids.nodup
    refine ih (stepAt_leads hm i).consistent ⟨hnodup, fun x hx => ?_⟩
    obtain ⟨b, hb, hbid⟩ := hids.live x (List.mem_cons_of_mem _ hx)
    refine ⟨b, mem_live_stepAt_of_ne hb ?_, hbid⟩
    rw [branch_stepAt, id_of_indexOf? hi, hbid]
    rintro rfl
    exact hid hx

/-- A run that stops when there is one branch left stops in step. -/
theorem stopsInStep_of_alone (hm : m.Consistent) (halone : m.run.1.live.length ≤ 1) :
    m.StopsInStep := by
  intro reports m' id rest i line hadv hi hhit
  have hrun : m.run.1.live = m'.live := by
    have hstop := hadv.runFrom_eq
    simp only [runFrom, round, hi, hhit] at hstop
    rw [hstop]
  obtain ⟨b, hlive⟩ : ∃ b, m'.live = [b] := by
    rw [hrun] at halone
    exact List.length_eq_one_iff.1 (Nat.le_antisymm halone (Nat.zero_lt_of_lt i.isLt))
  have hahead := hadv.ahead hm ⟨List.nodup_nil, List.forall_mem_nil _⟩
  have hall : ∀ x ∈ id :: rest, x = b.id := by
    intro x hx
    obtain ⟨c, hc, rfl⟩ := hahead.live x hx
    rw [hlive] at hc
    rw [List.mem_singleton.1 hc]
  have hrest : rest = [] := by
    rw [List.eq_nil_iff_forall_not_mem]
    intro x hx
    have hx' : x = b.id := hall x (List.mem_cons_of_mem _ hx)
    have hid : id = b.id := hall id List.mem_cons_self
    exact (List.nodup_cons.1 hahead.nodup).1 (hid.trans hx'.symm ▸ hx)
  rw [hrest, hlive, List.map_singleton, hall id List.mem_cons_self]

theorem consistent_invariant : Invariant Consistent where
  turn i hm := (stepAt_leads hm i).consistent
  view _ _ _ hm := { hm with }

/-- Where nothing is written to scratch space, it stays as it is as well. -/
theorem scratch_invariant {config : Config} {all : Multiset Outcome}
    (hall : all.card ≤ max 1 config.maxBranches) (scratch : Scratch) :
    Invariant fun m => m.OnSchedule config all ∧ m.scratch = scratch where
  turn {m} i hm := by
    have hsame := Branch.turn_scratch hm.1.quiet m.catalog m.config.trace m.scratch (m.live.get i)
    exact ⟨(onSchedule_invariant hall).turn i hm.1, hsame.trans hm.2⟩
  view _ _ _ hm := ⟨hm.1.view _ _ _, hm.2⟩

/-- However often the runs of a fresh machine are stopped before breakpoints, they come to an end.
If they stop in step, as they do where one branch is left, they leave what one run without
breakpoints leaves. Where nothing is written to scratch space and there is room for every fork, this
is so up to the order and the numbers of the branches, wherever they stop. -/
theorem breakpoints_observe (l : Listing) (catalog : Catalog) (config : Config) (lines : LineSet) :
    let m := (start l catalog config).setBreakpoints lines
    let once := (start l catalog config).run.1
    (∃ runs m', m.RunsOut runs m') ∧
    ∀ runs m', m.RunsOut runs m' →
      m'.live = [] ∧
      ((∀ x ∈ runs, x.run.1.live.length ≤ 1) → ∀ x ∈ runs, x.StopsInStep) ∧
      ((∀ x ∈ runs, x.StopsInStep) → m'.retired = once.retired ∧ m'.scratch = once.scratch) ∧
      (l.Quiet → (start l catalog config).tally.card ≤ max 1 config.maxBranches →
        m'.outcomes = once.outcomes ∧ m'.scratch = once.scratch) := by
  intro m once
  obtain ⟨hlive, hfinished⟩ := start_run_finished l catalog config
  have hstart : m.Consistent := { (start_valid l catalog config).toConsistent with }
  refine ⟨m.exists_runsOut, fun runs m' hruns => ⟨hruns.live, ?_, ?_, ?_⟩⟩
  · intro halone x hx
    exact stopsInStep_of_alone ((consistent_invariant.runsOut hruns hstart).2 x hx) (halone x hx)
  · intro hstep
    have honce : (start l catalog config).RunsOut [start l catalog config] once :=
      .finished hfinished
    have hstep' := List.forall_mem_singleton.2 (stopsInStep_start l catalog config)
    have hplain : m'.plain = once.plain :=
      congrArg Prod.fst ((hruns.run_plain hstep).symm.trans (honce.run_plain hstep'))
    have hretired : m'.plain.retired = once.plain.retired := by rw [hplain]
    have hscratch : m'.plain.scratch = once.plain.scratch := by rw [hplain]
    exact ⟨hretired, hscratch⟩
  · intro hquiet hroom
    have hI := scratch_invariant hroom (start l catalog config).scratch
    have hschedule := start_onSchedule hquiet catalog config
    obtain ⟨hm', hscratch'⟩ :=
      (hI.runsOut hruns ⟨hschedule.view m.current m.paused lines, rfl⟩).1
    obtain ⟨hm, hscratch⟩ := hI.run ⟨hschedule, rfl⟩
    constructor
    · rw [(hm'.finished hruns.live).1, (hm.finished hlive).1]
    · rw [hscratch', hscratch]

/-- A program of one branch is stopped once. -/
theorem breakpoints_observe_alone :
    let l : Listing := { ops := [.int .pseudo 1, .int .pseudo 2, .ret] }
    let m := (start l .standard {}).setBreakpoints (.ofList [1])
    m.run.2 = .breakpoint 0 1 ∧ m.run.1.run.2 = .finished ∧
      m.run.1.run.1.retired = (start l .standard {}).run.1.retired := by
  intro l m
  have hstop : m.run.2 = .breakpoint 0 1 := by decide +kernel
  have hfinished : m.run.1.run.2 = .finished := by decide +kernel
  have halone : ∀ x ∈ [m, m.run.1], x.run.1.live.length ≤ 1 := by
    simp only [List.forall_mem_cons, List.not_mem_nil, false_imp_iff, implies_true, and_true]
    exact ⟨by decide +kernel, by decide +kernel⟩
  have hruns : m.RunsOut [m, m.run.1] m.run.1.run.1 := .again hstop (.finished hfinished)
  obtain ⟨-, hstep, hsame, -⟩ := (breakpoints_observe l .standard {} (.ofList [1])).2 _ _ hruns
  exact ⟨hstop, hfinished, (hsame (hstep halone)).1⟩

/-- The branch 1 stops in the middle of a round, and the branch 0 has another turn before it. It
overtakes the branch 1 and is retired first, and its value in scratch space is overwritten. -/
theorem resumed_run_differs :
    let l : Listing :=
      { ops := [.instr "txn" ["Fee"], .branch .ifNonZero 0, .int .pseudo 1, .int .pseudo 1,
          .store 0, .ret, .label 0, .int .pseudo 2, .store 0] }
    let m := (start l .standard {}).setBreakpoints (.ofList [7])
    let once := (start l .standard {}).run.1
    ∃ runs m', m.RunsOut runs m' ∧ m'.retired.map Branch.id = [0, 1] ∧
      once.retired.map Branch.id = [1, 0] ∧ (m'.scratch.read 0).value = .uint 2 ∧
      (once.scratch.read 0).value = .uint 1 := by
  intro l m once
  have hstop : m.run.2 = .breakpoint 1 7 := by decide +kernel
  have hfinished : m.run.1.run.2 = .finished := by decide +kernel
  exact ⟨_, _, .again hstop (.finished hfinished), by decide +kernel, by decide +kernel,
    by decide +kernel, by decide +kernel⟩

end Machine

end Teal
