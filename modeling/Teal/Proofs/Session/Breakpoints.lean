import Mathlib.Data.List.Induction
import Teal.Catalog.Standard
import Teal.Proofs.Machine.Moment
import Teal.Proofs.Machine.Offspring
import Teal.Proofs.Session
/-!
# Breakpoints over a session

A machine remembers one stop: the last one that a run has reported, until the branch of that stop
has a turn. `Machine.Effect` says what a request makes of the machine and what it reports, and every
theorem is a case analysis over it.

A run lets a branch pass a breakpoint only if it remembers to have stopped there, so a run has
reported this very stop and the branch has had no turn since: `no_breakpoint_missed`. It reports a
branch that it has reported last only after that branch has executed something:
`last_stop_not_repeated`. The stop of another branch in between takes the place of it,
`overwritten_stop_repeated`, and the stops of stepping commands are not remembered at all,
`stepping_stop_repeated`.
-/

namespace Teal

/-- The stop that a run reports. -/
def RunOutcome.stop? : RunOutcome → Option (BranchId × Nat)
  | .finished => none
  | .breakpoint id line => some (id, line)

namespace Machine

/-- What a request makes of a machine, with the turns in `reports` and the stop that is reported. -/
inductive Effect (m : Machine) (reports : List Report) :
    Option (BranchId × Nat) → Machine → Prop
  | goes {m'} : m.Proceeds reports m' → Effect m reports none m'
  | stops {m' id line i} : m.Proceeds reports m' → m'.indexOf? id = some i →
      m'.hit? (m'.live.get i) = some line →
      Effect m reports (some (id, line)) { m' with current := some id, paused := some (id, line) }

/-- `m'` comes of `m` by steps that give these reports. -/
inductive Steps : Machine → List Report → Machine → Prop
  | refl {m} : Steps m [] m
  | step {m next report reports m'} : m.step = (next, .ok report) → Steps next reports m' →
      Steps m (report :: reports) m'

variable {m m' : Machine} {reports : List Report} {stop : Option (BranchId × Nat)} {b : Branch}
  {line : Nat}

/-! ## Where a branch stands -/

/-- A branch is let past a breakpoint only where it was stopped last. -/
theorem paused_of_hit?_none (hhit : m.hit? b = none)
    (hnext : m.listing.nextExecutable b.pc = some line)
    (hbreak : m.breakpoints.contains line = true) : m.paused = some (b.id, line) := by
  by_contra hpaused
  cases hhit.symm.trans (hit?_eq_some_iff.2 ⟨hnext, hbreak, hpaused⟩)

theorem nextExecutable_of_executed {i : Fin m.live.length}
    (h : (m.stepAt i).2.executed = some line) :
    m.listing.nextExecutable (m.live.get i).pc = some line := by
  rcases (m.turnAt_cases i).executed_cases with ⟨hnone, -⟩ | ⟨pc, op, hexec, hfetch⟩
  · cases h.symm.trans hnone
  · cases h.symm.trans hexec
    exact Listing.nextExecutable_of_fetch? hfetch

/-! ## The effect of runs and steps -/

theorem Steps.proceeds (h : m.Steps reports m') : m.Proceeds reports m' := by
  induction h with
  | refl => exact .refl
  | @step m next report reports m' hstep _ ih =>
    rcases m.step_cases with ⟨-, h⟩ | ⟨i, current, -, h⟩
    · cases hstep.symm.trans h
    · cases hstep.symm.trans h
      exact .turn i (.view current (m.stepAt i).1.breakpoints ih)

theorem Ends.effect {r : Machine × RunOutcome} (h : m.Ends [] reports r) :
    m.Effect reports r.2.stop? r.1 := by
  cases h with
  | @finished m' hadv hlive => exact .goes (hadv.proceeds.look none)
  | stopped hadv hi hhit => exact .stops hadv.proceeds hi hhit

/-- A run executes a line with a breakpoint only if the machine remembers this very stop. -/
theorem Ends.remembers {r : Machine × RunOutcome} {done rest : List Report} {report : Report}
    (h : m.Ends [] (done ++ report :: rest) r) (hexec : report.executed = some line)
    (hbreak : m.breakpoints.contains line = true) :
    m.paused = some (report.branch, line) ∧ ∀ x ∈ done, x.branch ≠ report.branch := by
  obtain ⟨m', ids, hadv⟩ : ∃ m' ids, m.Advances [] (done ++ report :: rest) m' ids := by
    cases h with
    | finished hadv => exact ⟨_, _, hadv⟩
    | stopped hadv => exact ⟨_, _, hadv⟩
  obtain ⟨m₁, id, ids₁, i, hdone, -, hhit, rfl⟩ := hadv.split
  rw [← hdone.breakpoints] at hbreak
  exact hdone.proceeds.paused_iff.1
    (paused_of_hit?_none hhit (nextExecutable_of_executed hexec) hbreak)

/-- Where a run stops. -/
theorem Ends.stopped_before {m' : Machine} {id : BranchId}
    (h : m.Ends [] reports (m', .breakpoint id line)) :
    m'.current = some id ∧ m.breakpoints.contains line = true ∧
      ∃ b ∈ m'.live, b.id = id ∧ m.listing.nextExecutable b.pc = some line := by
  cases h with
  | @stopped m' _ _ i _ hadv hi hhit =>
    obtain ⟨hnext, hbreak, -⟩ := hit?_eq_some_iff.1 hhit
    rw [hadv.breakpoints] at hbreak
    rw [hadv.proceeds.listing] at hnext
    exact ⟨rfl, hbreak, m'.live.get i, List.get_mem _ _, id_of_indexOf? hi, hnext⟩

theorem Effect.view {current : Option BranchId} {breakpoints : LineSet}
    (h : Effect { m with current, breakpoints } reports stop m') : m.Effect reports stop m' := by
  cases h with
  | goes h => exact .goes (.view current breakpoints h)
  | stops h hi hhit => exact .stops (.view current breakpoints h) hi hhit

theorem Effect.leads (h : m.Effect reports stop m') (hm : m.Consistent) : Leads m m' := by
  cases h with
  | goes h => exact h.leads hm
  | stops h =>
    have hleads := h.leads hm
    exact ⟨hleads.listing, hleads.config, hleads.retired, hleads.consistent.focus _ _⟩

/-- What is remembered is the stop that was reported just now, or that of before. -/
theorem Effect.paused (h : m.Effect reports stop m') {last : BranchId × Nat}
    (hlast : m'.paused = some last) :
    stop = some last ∨
      stop = none ∧ m.paused = some last ∧ ∀ x ∈ reports, x.branch ≠ last.1 := by
  cases h with
  | goes h => exact .inr ⟨rfl, h.paused_iff.1 hlast⟩
  | stops => exact .inl hlast

theorem Effect.retired (h : m.Effect reports stop m') : m.retired <+: m'.retired := by
  cases h with
  | goes h => exact h.retired
  | stops h => exact h.retired

theorem Effect.mem_retired (h : m.Effect reports stop m') {x : Report} (hx : x ∈ reports)
    (hexec : x.executed = none) : ∃ c ∈ m'.retired, c.id = x.branch := by
  cases h with
  | goes h => exact h.mem_retired hx hexec
  | stops h => exact h.mem_retired hx hexec

/-- The branch `b` was stopped before `line`, and the machine remembers. -/
structure Waits (m : Machine) (b : Branch) (line : Nat) : Prop where
  live : b ∈ m.live
  next : m.listing.nextExecutable b.pc = some line
  paused : m.paused = some (b.id, line)

theorem Effect.waits (h : m.Effect reports stop m') {last : BranchId × Nat}
    (hstop : stop = some last) : ∃ b, b.id = last.1 ∧ m'.Waits b last.2 := by
  cases h with
  | goes => cases hstop
  | @stops m' id line i h hi hhit =>
    cases hstop
    have hid := id_of_indexOf? hi
    refine ⟨m'.live.get i, hid, List.get_mem _ _, (hit?_eq_some_iff.1 hhit).1, ?_⟩
    rw [hid]

/-- A branch that waits and has no turn goes on waiting: a run does not report it once more. -/
theorem Waits.keeps (hb : m.Waits b line) (hm : m.Consistent) (h : m.Effect reports stop m')
    (hturn : ∀ x ∈ reports, x.branch ≠ b.id) (honly : ∀ last, stop = some last → last.1 = b.id) :
    stop = none ∧ m'.Waits b line := by
  cases h with
  | goes h =>
    exact ⟨rfl, h.mem_live hb.live hturn, by rw [h.listing]; exact hb.next,
      h.paused_iff.2 ⟨hb.paused, hturn⟩⟩
  | @stops m' id line' i h hi hhit =>
    -- It would be the same branch, before the same line, and just this stop is remembered.
    have hid : id = b.id := honly _ rfl
    have hsame : m'.live.get i = b :=
      (h.leads hm).consistent.eq_of_id_eq (List.get_mem _ _) (h.mem_live hb.live hturn)
        ((id_of_indexOf? hi).trans hid)
    rw [hsame, hit?_eq_some_iff, h.listing, hb.next] at hhit
    obtain ⟨hline, -, hpaused⟩ := hhit
    cases hline
    exact absurd (h.paused_iff.2 ⟨hb.paused, hturn⟩) hpaused

end Machine

/-! ## Requests -/

namespace Session

/-- The session after requests, one after the other. -/
def answerAll (s : Session) (requests : List Request) : Session :=
  requests.foldl answer s

/-- The machine that a request runs, with the breakpoints in force. -/
def runner? (s : Session) : Request → Option Machine
  | .command .run => some s.machine
  | .resume => some (s.machine.setBreakpoints s.stepping.breakpoints)
  | _ => none

/-- The stop at a breakpoint that a request reports by a run. -/
def reported? (s : Session) (r : Request) : Option (BranchId × Nat) :=
  (s.runner? r).bind (·.run.2.stop?)

/-- A request makes the turns in `reports`. -/
def Makes (s : Session) (reports : List Report) : Request → Prop
  | .command .step =>
    match s.machine.step.2 with
    | .ok report => reports = [report]
    | .error _ => reports = []
  | .command .run => s.machine.Ends [] reports s.machine.run
  | .resume =>
    let m := s.machine.setBreakpoints s.stepping.breakpoints
    m.Ends [] reports m.run
  | .stepBy mode =>
    match s.machine.current.or (s.machine.live.head?.map (·.id)) with
    | none => reports = []
    | some id =>
      match s.machine.switch id with
      | (_, .error _) => reports = []
      | (machine, .ok ()) =>
        let stepping := { s.stepping with mode, depth := machine.depthOf id }
        machine.Steps reports (drive machine stepping id).1.machine
  | _ => reports = []

/-- Requests one after the other make the turns in `told`. -/
inductive MakesAll (s : Session) : List Request → List Report → Prop
  | nil : MakesAll s [] []
  | concat {requests told reports r} : MakesAll s requests told →
      (s.answerAll requests).Makes reports r → MakesAll s (requests ++ [r]) (told ++ reports)

variable {s : Session} {requests : List Request} {told reports : List Report} {r : Request}

theorem answerAll_concat (s : Session) (requests : List Request) (r : Request) :
    s.answerAll (requests ++ [r]) = (s.answerAll requests).answer r := by
  rw [answerAll, List.foldl_append]
  rfl

theorem answerAll_append (s : Session) (earlier later : List Request) :
    s.answerAll (earlier ++ later) = (s.answerAll earlier).answerAll later :=
  List.foldl_append

theorem runner?_cases {m : Machine} (h : s.runner? r = some m) :
    r = .command .run ∧ m = s.machine ∨
      r = .resume ∧ m = s.machine.setBreakpoints s.stepping.breakpoints := by
  unfold runner? at h
  split at h
  · exact .inl ⟨rfl, (Option.some.inj h).symm⟩
  · exact .inr ⟨rfl, (Option.some.inj h).symm⟩
  · cases h

theorem Makes.ends {m : Machine} (h : s.Makes reports r) (hr : s.runner? r = some m) :
    m.Ends [] reports m.run := by
  rcases runner?_cases hr with ⟨rfl, rfl⟩ | ⟨rfl, rfl⟩
  · exact h
  · exact h

theorem machine_resume (s : Session) : (s.answer .resume).machine =
    (s.machine.setBreakpoints s.stepping.breakpoints).run.1 := by
  simp only [answer, resume]
  split <;> rfl

theorem command_proceeds {c : Machine.Command} (h : s.Makes reports (.command c))
    (hrun : c ≠ .run) : s.machine.Proceeds reports (s.machine.perform c).1 := by
  cases c with
  | step =>
    simp only [Makes] at h
    rcases s.machine.step_cases with ⟨-, hstep⟩ | ⟨i, current, -, hstep⟩
    · rw [hstep] at h
      cases h
      simp only [Machine.perform, hstep]
      exact .refl
    · rw [hstep] at h
      cases h
      simp only [Machine.perform, hstep]
      exact .turn i (.view current (s.machine.stepAt i).1.breakpoints .refl)
  | run => exact absurd rfl hrun
  | fork =>
    cases h
    rcases s.machine.fork_cases with ⟨-, hfork⟩ | ⟨i, -, ⟨hroom, hfork⟩ | hfork⟩
    · simp only [Machine.perform, hfork]
      exact .refl
    · simp only [Machine.perform, hfork]
      exact .copy i hroom (.view _ s.machine.breakpoints .refl)
    · simp only [Machine.perform, hfork]
      exact .view _ s.machine.breakpoints .refl
  | switch id =>
    cases h
    obtain ⟨current, hswitch⟩ := s.machine.switch_cases id
    simp only [Machine.perform, hswitch]
    exact .view current s.machine.breakpoints .refl
  | setBreakpoints lines =>
    cases h
    exact .view s.machine.current lines .refl

theorem stepBy_proceeds {mode : StepMode} (h : s.Makes reports (.stepBy mode)) :
    s.machine.Proceeds reports (s.answer (.stepBy mode)).machine := by
  revert h
  simp only [Makes, answer, stepBy]
  cases s.machine.current.or (s.machine.live.head?.map (·.id)) with
  | none =>
    rintro rfl
    exact .refl
  | some id =>
    obtain ⟨current, hswitch⟩ := s.machine.switch_cases id
    dsimp only
    generalize s.machine.switch id = r at hswitch ⊢
    obtain ⟨machine, e | _⟩ := r <;> cases hswitch
    · rintro rfl
      exact .view current s.machine.breakpoints .refl
    · intro h
      exact .view current s.machine.breakpoints h.proceeds

/-- What a request makes of the machine of its session. -/
theorem Makes.effect (h : s.Makes reports r) :
    s.machine.Effect reports (s.reported? r) (s.answer r).machine := by
  cases r with
  | command c =>
    by_cases hc : c = .run
    · cases hc
      exact (h.ends rfl).effect
    · have hnone : s.reported? (.command c) = none := by
        cases c <;> first | rfl | exact absurd rfl hc
      rw [hnone]
      exact .goes (command_proceeds h hc)
  | stepBy mode => exact .goes (stepBy_proceeds h)
  | resume =>
    rw [machine_resume]
    exact (h.ends rfl).effect.view
  | pause =>
    cases h
    refine .goes ?_
    simp only [answer, pause]
    split <;> exact .refl
  | adjust stepping =>
    cases h
    exact .goes .refl

/-! ## Whole sessions -/

theorem Drives.steps {m : Machine} {stepping : Stepping} {id : BranchId} {n : Nat}
    {r : Session × Except MachineError Stop} (h : Drives m stepping id n r) :
    ∃ reports, m.Steps reports r.1.machine := by
  induction h with
  | refused hstep =>
    rw [(Machine.live_of_step_refused hstep).2]
    exact ⟨[], .refl⟩
  | halted hstep | left hstep | paused hstep => exact ⟨_, .step hstep .refl⟩
  | again hstep _ _ _ _ ih =>
    obtain ⟨reports, hsteps⟩ := ih
    exact ⟨_, .step hstep hsteps⟩

theorem exists_makes (s : Session) (r : Request) : ∃ reports, s.Makes reports r := by
  cases r with
  | command c =>
    cases c with
    | step =>
      simp only [Makes]
      split <;> exact ⟨_, rfl⟩
    | run => exact s.machine.run_ends
    | fork | switch | setBreakpoints => exact ⟨[], rfl⟩
  | stepBy mode =>
    simp only [Makes]
    split
    · exact ⟨[], rfl⟩
    · split
      · exact ⟨[], rfl⟩
      · rename_i _ id _ _ machine _
        obtain ⟨n, hn⟩ :=
          drive_drives machine { s.stepping with mode, depth := machine.depthOf id } id
        exact hn.steps
  | resume => exact Machine.run_ends _
  | pause | adjust => exact ⟨[], rfl⟩

theorem exists_makesAll (s : Session) (requests : List Request) :
    ∃ told, s.MakesAll requests told := by
  induction requests using List.reverseRecOn with
  | nil => exact ⟨[], .nil⟩
  | append_singleton requests r ih =>
    obtain ⟨told, hmakes⟩ := ih
    obtain ⟨reports, hr⟩ := (s.answerAll requests).exists_makes r
    exact ⟨told ++ reports, .concat hmakes hr⟩

/-- One of the requests has reported the stop `last`, and the branch of it has had no turn since. -/
def StoppedAt (s : Session) (requests : List Request) (last : BranchId × Nat) : Prop :=
  ∃ earlier r between told, requests = earlier ++ r :: between ∧
    (s.answerAll earlier).reported? r = some last ∧
    (s.answerAll (earlier ++ [r])).MakesAll between told ∧ ∀ x ∈ told, x.branch ≠ last.1

/-- A machine remembers only what it has reported. -/
theorem stoppedAt_of_paused (hs : s.machine.paused = none) {last : BranchId × Nat}
    (h : (s.answerAll requests).machine.paused = some last) : s.StoppedAt requests last := by
  induction requests using List.reverseRecOn with
  | nil => cases hs.symm.trans h
  | append_singleton requests r ih =>
    rw [answerAll_concat] at h
    obtain ⟨reports, hr⟩ := (s.answerAll requests).exists_makes r
    rcases hr.effect.paused h with hstop | ⟨-, hbefore, hturn⟩
    · exact ⟨requests, r, [], [], rfl, hstop, .nil, nofun⟩
    · obtain ⟨earlier, r₀, between, told, rfl, hreported, hmakes, htold⟩ := ih hbefore
      refine ⟨earlier, r₀, between ++ [r], told ++ reports, ?_, hreported, ?_, ?_⟩
      · rw [List.append_assoc, List.cons_append]
      · rw [List.append_cons, answerAll_append] at hr
        exact .concat hmakes hr
      · exact List.forall_mem_append.2 ⟨htold, hturn⟩

theorem answerAll_leads (hs : s.machine.Consistent) (requests : List Request) :
    s.machine.Leads (s.answerAll requests).machine := by
  induction requests using List.reverseRecOn with
  | nil => exact .refl hs
  | append_singleton requests r ih =>
    obtain ⟨reports, hr⟩ := (s.answerAll requests).exists_makes r
    rw [answerAll_concat]
    exact ih.trans (hr.effect.leads ih.consistent)

/-- However a session has come to this run: whenever the run executes a line with a breakpoint, an
earlier run has reported that the branch stands there, and the branch has had no turn since, neither
before this run nor in it. And where the run stops, the branch is live and current and has the line
of a breakpoint before it. -/
theorem no_breakpoint_missed (l : Listing) (catalog : Catalog) (config : Machine.Config)
    (requests : List Request) (r : Request) (m : Machine)
    (hr : ((start (.start l catalog config)).answerAll requests).runner? r = some m) :
    (∃ reports, m.Ends [] reports m.run) ∧
    (∀ done report rest line, m.Ends [] (done ++ report :: rest) m.run →
      report.executed = some line → m.breakpoints.contains line = true →
      (start (.start l catalog config)).StoppedAt requests (report.branch, line) ∧
        ∀ x ∈ done, x.branch ≠ report.branch) ∧
    ∀ id line, m.run.2 = .breakpoint id line →
      m.run.1.current = some id ∧ m.breakpoints.contains line = true ∧
        ∃ b ∈ m.run.1.live, b.id = id ∧ l.nextExecutable b.pc = some line := by
  have hstart := Machine.start_valid l catalog config
  have hleads := answerAll_leads (s := start _) hstart.toConsistent requests
  -- What a request to run changes before the run are the breakpoints at most.
  have hsame : m.listing = l ∧
      m.paused = ((start (.start l catalog config)).answerAll requests).machine.paused := by
    rcases runner?_cases hr with ⟨-, rfl⟩ | ⟨-, rfl⟩
    · exact ⟨hleads.listing, rfl⟩
    · exact ⟨hleads.listing, rfl⟩
  obtain ⟨reports, hends⟩ := m.run_ends
  refine ⟨⟨reports, hends⟩, ?_, ?_⟩
  · intro done report rest line hends hexec hbreak
    obtain ⟨hpaused, hturn⟩ := hends.remembers hexec hbreak
    rw [hsame.2] at hpaused
    exact ⟨stoppedAt_of_paused rfl hpaused, hturn⟩
  · intro id line hstop
    rw [← Prod.eta m.run, hstop] at hends
    rw [← hsame.1]
    exact hends.stopped_before

/-- A run stops before the second line, and the next one executes it. -/
theorem no_breakpoint_missed_on_resuming :
    let l : Listing := { ops := [.int .pseudo 1, .ret] }
    let s := start (.start l .standard {})
    let requests : List Request := [.command (.setBreakpoints (.ofList [1])), .command .run]
    let m := (s.answerAll requests).machine
    ∃ report rest, m.Ends [] (report :: rest) m.run ∧ report.executed = some 1 ∧
      s.StoppedAt requests (report.branch, 1) := by
  intro l s requests m
  obtain ⟨⟨reports, hends⟩, hpassed, -⟩ :=
    no_breakpoint_missed l .standard {} requests (.command .run) m rfl
  have hne : m.live ≠ [] := by decide +kernel
  have hhit : ∀ b ∈ m.live, m.hit? b = none := by decide +kernel
  have hexec : ∀ i, (m.stepAt i).2.executed = some 1 := by decide +kernel
  have hbreak : m.breakpoints.contains 1 = true := by decide +kernel
  clear_value m
  obtain ⟨b, bs, hlive⟩ := List.exists_cons_of_ne_nil hne
  rcases hends.first hlive with ⟨line, hstop, -⟩ | ⟨-, i, rest, -, rfl⟩
  · rw [hhit b (hlive ▸ List.mem_cons_self)] at hstop
    cases hstop
  · exact ⟨_, rest, hends, hexec i, (hpassed [] _ rest 1 hends (hexec i) hbreak).1⟩

/-! ## Stops are reported once -/

/-- The stops that runs among the requests report. -/
def reportedAll (s : Session) : List Request → List (BranchId × Nat)
  | [] => []
  | r :: rest => (s.reported? r).toList ++ (s.answer r).reportedAll rest

theorem reportedAll_append (s : Session) (requests rest : List Request) :
    s.reportedAll (requests ++ rest) =
      s.reportedAll requests ++ (s.answerAll requests).reportedAll rest := by
  induction requests generalizing s with
  | nil => rfl
  | cons r requests ih =>
    rw [List.cons_append, reportedAll, reportedAll, ih, List.append_assoc]
    rfl

theorem reportedAll_concat (s : Session) (requests : List Request) (r : Request) :
    s.reportedAll (requests ++ [r]) =
      s.reportedAll requests ++ ((s.answerAll requests).reported? r).toList := by
  rw [reportedAll_append, reportedAll, reportedAll, List.append_nil]

/-- A branch that has a turn in which it executes nothing is retired for good. -/
theorem MakesAll.mem_retired (h : s.MakesAll requests told) {x : Report} (hx : x ∈ told)
    (hexec : x.executed = none) :
    ∃ c ∈ (s.answerAll requests).machine.retired, c.id = x.branch := by
  induction h with
  | nil => exact absurd hx List.not_mem_nil
  | concat _ hr ih =>
    rw [answerAll_concat]
    rcases List.mem_append.1 hx with hx | hx
    · obtain ⟨c, hc, hid⟩ := ih hx
      exact ⟨c, hr.effect.retired.subset hc, hid⟩
    · exact hr.effect.mem_retired hx hexec

/-- As long as no other branch is reported, a branch that waits and has no turn is not either. -/
theorem MakesAll.waits (h : s.MakesAll requests told) (hs : s.machine.Consistent) {b : Branch}
    {line : Nat} (hb : s.machine.Waits b line) (hturn : ∀ x ∈ told, x.branch ≠ b.id)
    (honly : ∀ last ∈ s.reportedAll requests, last.1 = b.id) :
    s.reportedAll requests = [] ∧ (s.answerAll requests).machine.Waits b line := by
  induction h with
  | nil => exact ⟨rfl, hb⟩
  | @concat requests told reports r _ hr ih =>
    rw [List.forall_mem_append] at hturn
    rw [reportedAll_concat, List.forall_mem_append] at honly
    obtain ⟨hnil, hwaits⟩ := ih hturn.1 honly.1
    have hconsistent := (answerAll_leads hs requests).consistent
    obtain ⟨hnone, hwaits'⟩ := hwaits.keeps hconsistent hr.effect hturn.2 fun last hlast =>
      honly.2 last (Option.mem_toList.2 hlast)
    rw [reportedAll_concat, answerAll_concat, hnil, hnone]
    exact ⟨rfl, hwaits'⟩

/-- However a session has come to the stop of a branch that a run reports: as long as runs report no
other branch, they report this one again only after it has executed something. -/
theorem last_stop_not_repeated (l : Listing) (catalog : Catalog) (config : Machine.Config)
    (earlier between : List Request) (r₀ r : Request) (id : BranchId) (line line' : Nat)
    (told : List Report) :
    let s := (start (.start l catalog config)).answerAll earlier
    s.reported? r₀ = some (id, line) →
    (∀ last ∈ (s.answer r₀).reportedAll between, last.1 = id) →
    (s.answer r₀).MakesAll (between ++ [r]) told →
    ((s.answer r₀).answerAll between).reported? r = some (id, line') →
    ∃ x ∈ told, x.branch = id ∧ x.executed ≠ none := by
  intro s hstop honly hmakes hagain
  obtain ⟨reports₀, hr₀⟩ := s.exists_makes r₀
  obtain ⟨b, rfl, hb⟩ := hr₀.effect.waits hstop
  have hs : (s.answer r₀).machine.Consistent := by
    have hstart := (Machine.start_valid l catalog config).toConsistent
    have hleads := answerAll_leads (s := start _) hstart (earlier ++ [r₀])
    rw [answerAll_concat] at hleads
    exact hleads.consistent
  generalize s.answer r₀ = stopped at *
  have hreported : stopped.reportedAll (between ++ [r]) =
      stopped.reportedAll between ++ [(b.id, line')] := by
    rw [reportedAll_concat, hagain]
    rfl
  by_contra hnone
  -- A turn without an execution would have retired the branch, which is live at the stop.
  have hturn : ∀ x ∈ told, x.branch ≠ b.id := by
    intro x hx hid
    have hexec : x.executed = none := by
      by_contra hexec
      exact hnone ⟨x, hx, hid, hexec⟩
    obtain ⟨c, hc, hcid⟩ := hmakes.mem_retired hx hexec
    obtain ⟨reports, hr⟩ := (stopped.answerAll between).exists_makes r
    obtain ⟨b', hid', hb'⟩ := hr.effect.waits hagain
    have hend := (answerAll_leads hs (between ++ [r])).consistent
    rw [answerAll_concat] at hc hend
    exact Machine.not_live_of_retired hend hb'.live hc (hid'.trans (hid.symm.trans hcid.symm))
  have hall : ∀ last ∈ stopped.reportedAll (between ++ [r]), last.1 = b.id := by
    rw [hreported]
    exact List.forall_mem_append.2 ⟨honly, List.forall_mem_singleton.2 rfl⟩
  have hnil := (hmakes.waits hs hb hturn hall).1
  rw [hreported] at hnil
  exact List.append_ne_nil_of_right_ne_nil _ (List.cons_ne_nil _ _) hnil

/-- A loop comes by its breakpoint again. -/
theorem last_stop_not_repeated_in_loop :
    let l : Listing := { ops := [.label 0, .int .pseudo 1, .branch .always 0] }
    let s := (start (.start l .standard {})).answerAll [.command (.setBreakpoints (.ofList [1]))]
    let stopped := s.answer (.command .run)
    s.reported? (.command .run) = some (0, 1) ∧ stopped.reported? (.command .run) = some (0, 1) ∧
      ∃ told, stopped.MakesAll [.command .run] told ∧
        ∃ x ∈ told, x.branch = 0 ∧ x.executed ≠ none := by
  intro l s stopped
  have hstop : s.reported? (.command .run) = some (0, 1) := by decide +kernel
  have hagain : stopped.reported? (.command .run) = some (0, 1) := by decide +kernel
  obtain ⟨told, hmakes⟩ := stopped.exists_makesAll [.command .run]
  exact ⟨hstop, hagain, told, hmakes,
    last_stop_not_repeated l .standard {} [.command (.setBreakpoints (.ofList [1]))] []
      (.command .run) (.command .run) 0 1 1 told hstop nofun hmakes hagain⟩

/-- A stepping command stops before a breakpoint, and the run after it reports the same stop without
having given a turn to any branch. -/
theorem stepping_stop_repeated :
    let l : Listing := { ops := [.int .pseudo 1, .int .pseudo 2, .ret] }
    let s := (start (.start l .standard {})).answer (.adjust { breakpoints := .ofList [1] })
    let stopped := s.answer (.stepBy .into)
    (s.stepBy .into).2 = .ok (.paused 0 1) ∧ stopped.resume.2 = .paused 0 1 ∧
      stopped.Makes [] .resume := by
  intro l s stopped
  refine ⟨by decide +kernel, by decide +kernel, ?_⟩
  have hne : stopped.machine.live ≠ [] := by decide +kernel
  have hhit : ∀ b ∈ stopped.machine.live,
      (stopped.machine.setBreakpoints stopped.stepping.breakpoints).hit? b ≠ none := by
    decide +kernel
  clear_value stopped
  obtain ⟨reports, hmakes⟩ := stopped.exists_makes .resume
  obtain ⟨b, bs, hlive⟩ := List.exists_cons_of_ne_nil hne
  rcases (hmakes.ends rfl).first hlive with ⟨line, -, rfl, -⟩ | ⟨hpass, -⟩
  · exact hmakes
  · exact absurd hpass (hhit b (hlive ▸ List.mem_cons_self))

/-- While the branch 1 waits, a run reports the branch 0, and the next run reports the branch 1 once
more, which is as it was. -/
theorem overwritten_stop_repeated :
    let l : Listing :=
      { ops := [.instr "txn" ["Fee"], .branch .ifNonZero 0, .int .pseudo 1, .int .pseudo 1, .ret,
          .label 0, .int .pseudo 2, .ret] }
    let s := start ((Machine.start l .standard {}).setBreakpoints (.ofList [3, 6]))
    let stopped := s.answer (.command .run)
    let again := stopped.answerAll [.command .run, .command .run]
    s.reportedAll [.command .run, .command .run, .command .run] = [(1, 6), (0, 3), (1, 6)] ∧
      again.machine.branch? 1 = stopped.machine.branch? 1 := by
  decide +kernel

end Session

end Teal
