import Teal.Proofs.Session.Breakpoints
/-!
# Where stepping commands stop

A stepping command gives turns to the current branch until that stops for good, has no line left, or
stands where the mode or a breakpoint says to stop. `Stepped` says this without the loop: which
steps were made, that the branch was let past every position before the last one, and how the
position after the last one comes to be a stop.

The loop asks the machine for its current branch at every turn. Between requests a machine is valid,
a step keeps it so, and the branch that had a step stays current unless it stops. So all steps of a
command are those of one branch: `Drives.stepped`.
-/

namespace Teal

/-- Whether a command in a mode, given at the call depth `start`, is done at the depth `depth`. -/
def StepMode.Done (start depth : Nat) : StepMode → Prop
  | .resume => False
  | .into => True
  | .over => depth ≤ start
  | .out => depth < start

/-- Where a session stops: before a breakpoint, and where its mode is done. -/
def Stepping.StopsAt (s : Stepping) (line depth : Nat) : Prop :=
  s.breakpoints.contains line = true ∨ s.mode.Done s.depth depth

theorem Stepping.shouldBreak_iff (s : Stepping) (line depth : Nat) :
    s.shouldBreak line depth = true ↔ s.StopsAt line depth := by
  rw [shouldBreak, StopsAt, Bool.or_eq_true]
  refine or_congr_right ?_
  cases s.mode <;> simp [StepMode.Done]

namespace Machine

/-- The live branch `id` is about to execute `line`, at the call depth `depth`. -/
def Stands (m : Machine) (id : BranchId) (line depth : Nat) : Prop :=
  ∃ b ∈ m.live, b.id = id ∧ m.listing.nextExecutable b.pc = some line ∧ b.depth = depth

variable {m next : Machine} {b : Branch} {report : Report} {reports : List Report}

/-! ## The current branch -/

theorem branch?_of_live (hm : m.Consistent) (hb : b ∈ m.live) : m.branch? b.id = some b := by
  have hmem : b ∈ m.live ++ m.retired := List.mem_append_left _ hb
  have hnodup : ((m.live ++ m.retired).map Branch.id).Nodup := hm.ids.nodup_iff.2 List.nodup_range
  cases hfind : m.branch? b.id with
  | none =>
    have hall := List.find?_eq_none.1 hfind b hmem
    simp at hall
  | some c =>
    have hid : c.id = b.id := by simpa using List.find?_some hfind
    rw [List.inj_on_of_nodup_map hnodup (List.mem_of_find?_eq_some hfind) hmem hid]

theorem depthOf_of_live (hm : m.Consistent) (hb : b ∈ m.live) : m.depthOf b.id = b.depth := by
  rw [depthOf, branch?_of_live hm hb]

theorem position?_of_current (hm : m.Consistent) (hb : b ∈ m.live)
    (hcurrent : m.current = some b.id) :
    m.position? = (m.listing.nextExecutable b.pc).map (b.id, ·) := by
  simp only [position?, hcurrent, branch?_of_live hm hb, (hm.live b hb).inside, Option.bind_eq_bind,
    Option.bind_some]
  cases m.listing.nextExecutable b.pc <;> rfl

theorem stands_of_position? (hm : m.Consistent) (hb : b ∈ m.live)
    (hcurrent : m.current = some b.id) {id : BranchId} {line : Nat}
    (h : m.position? = some (id, line)) : m.Stands b.id line (m.depthOf b.id) := by
  rw [position?_of_current hm hb hcurrent] at h
  obtain ⟨line', hnext, hpair⟩ := Option.map_eq_some_iff.1 h
  cases hpair
  exact ⟨b, hb, rfl, hnext, (depthOf_of_live hm hb).symm⟩

/-- A step gives the current branch its turn. -/
theorem step_of_current (hm : m.Valid) (hb : b ∈ m.live) (hcurrent : m.current = some b.id)
    (h : m.step = (next, .ok report)) :
    ∃ i, m.live.get i = b ∧ report = (m.stepAt i).2 ∧ next = { (m.stepAt i).1 with
      current := if report.halted.isSome then (m.stepAt i).1.live.head?.map (·.id)
        else some b.id } := by
  unfold step at h
  split at h
  · cases h
  · rename_i i hfocus
    have hid := (hm.current_of_focus? hfocus).symm.trans hcurrent
    have hget := hm.toConsistent.eq_of_id_eq (List.get_mem m.live i) hb (Option.some.inj hid)
    cases h
    exact ⟨i, hget, rfl, by rw [← hget]; rfl⟩

/-- A branch that goes on has executed something, and is still the current one. -/
theorem step_goesOn (hm : m.Valid) (hb : b ∈ m.live) (hcurrent : m.current = some b.id)
    (h : m.step = (next, .ok report)) (hhalt : report.halted = none) :
    report.branch = b.id ∧ report.executed ≠ none ∧ next.retired = m.retired ∧
      ∃ c ∈ next.live, c.id = b.id ∧ next.current = some c.id := by
  obtain ⟨i, rfl, rfl, rfl⟩ := step_of_current hm hb hcurrent h
  obtain ⟨c, hc, hid⟩ := live_of_stepAt hm.toConsistent i hhalt
  refine ⟨rfl, ?_, ?_, c, hc, hid, ?_⟩
  · -- A turn in which nothing is executed stops the branch.
    intro hnone
    rcases (m.turnAt_cases i).executed_cases with ⟨-, -, -, hstops⟩ | ⟨pc, op, hexec, -⟩
    · exact hstops hhalt
    · cases hnone.symm.trans hexec
  · simp only [stepAt] at hhalt ⊢
    rw [hhalt, List.append_nil]
  · rw [hhalt, hid]
    rfl

/-- A branch that stops is the last of the retired ones. -/
theorem step_stops (hm : m.Valid) (hb : b ∈ m.live) (hcurrent : m.current = some b.id)
    (h : m.step = (next, .ok report)) {halt : Halt} (hhalt : report.halted = some halt) :
    report.branch = b.id ∧
      ∃ c, next.retired = m.retired ++ [c] ∧ c.id = b.id ∧ c.halt = some halt := by
  obtain ⟨i, rfl, rfl, rfl⟩ := step_of_current hm hb hcurrent h
  refine ⟨rfl, (m.turnAt i).branch.retire halt, ?_, (m.turnAt_cases i).same.1, rfl⟩
  simp only [stepAt] at hhalt ⊢
  rw [hhalt, turnAt]

theorem step_valid (hm : m.Valid) (h : m.step = (next, .ok report)) : next.Valid := by
  have hvalid := (step_leads hm).2
  rwa [h] at hvalid

theorem Steps.valid {m' : Machine} (h : m.Steps reports m') (hm : m.Valid) : m'.Valid := by
  induction h with
  | refl => exact hm
  | step hstep _ ih => exact ih (step_valid hm hstep)

end Machine

namespace Session

open Machine

/-! ## What a stepping command does -/

/-- How a command that has given the turns in `reports` to the branch `id` of `m` comes to its end
with the machine `m'`. -/
inductive Stopped (stops : Nat → Nat → Prop) (m : Machine) (id : BranchId) (reports : List Report)
    (m' : Machine) : Stop → Prop
  /-- The branch has executed something in every turn and stands where the command stops. -/
  | paused {line depth} : (∀ x ∈ reports, x.executed ≠ none) → m'.Stands id line depth →
      stops line depth → Stopped stops m id reports m' (.paused id line)
  /-- The branch has been retired. -/
  | halted {c halt} : m'.retired = m.retired ++ [c] → c.id = id → c.halt = some halt →
      Stopped stops m id reports m' (.halted id halt)
  /-- The branch is live and current and has no line left. -/
  | finished {b} : b ∈ m'.live → b.id = id → m'.current = some id →
      m'.listing.nextExecutable b.pc = none → Stopped stops m id reports m' .finished

/-- A command gives the turns in `reports` to the branch `id`, one at least, and stops where `stops`
says so for the first time. -/
structure Stepped (stops : Nat → Nat → Prop) (m : Machine) (id : BranchId) (reports : List Report)
    (m' : Machine) (stop : Stop) : Prop where
  steps : m.Steps reports m'
  nonempty : reports ≠ []
  own : ∀ x ∈ reports, x.branch = id
  /-- Between two turns the branch does not stand where the command stops. -/
  passed : ∀ done rest, reports = done ++ rest → done ≠ [] → rest ≠ [] →
    ∃ mid line depth, m.Steps done mid ∧ mid.Steps rest m' ∧ mid.Stands id line depth ∧
      ¬stops line depth
  ending : Stopped stops m id reports m' stop

section Stepped
variable {stops : Nat → Nat → Prop} {m next m' : Machine} {id : BranchId} {report : Report}
  {reports : List Report} {stop : Stop}

/-- One turn comes to a stop. -/
theorem Stepped.single (hstep : m.step = (next, .ok report)) (hown : report.branch = id)
    (h : Stopped stops m id [report] next stop) : Stepped stops m id [report] next stop where
  steps := .step hstep .refl
  nonempty := List.cons_ne_nil _ _
  own := List.forall_mem_singleton.2 hown
  passed := by
    intro done rest hsplit hdone hrest
    have hlen := congrArg List.length hsplit
    have hdone' := List.length_pos_iff.2 hdone
    have hrest' := List.length_pos_iff.2 hrest
    simp only [List.length_append, List.length_singleton] at hlen
    omega
  ending := h

/-- One turn does not, and the next ones do. -/
theorem Stepped.cons {line depth : Nat} (hstep : m.step = (next, .ok report))
    (hown : report.branch = id) (hexec : report.executed ≠ none)
    (hretired : next.retired = m.retired) (hstands : next.Stands id line depth)
    (hpass : ¬stops line depth) (h : Stepped stops next id reports m' stop) :
    Stepped stops m id (report :: reports) m' stop where
  steps := .step hstep h.steps
  nonempty := List.cons_ne_nil _ _
  own := List.forall_mem_cons.2 ⟨hown, h.own⟩
  passed := by
    intro done rest hsplit hdone hrest
    cases done with
    | nil => exact absurd rfl hdone
    | cons x done =>
      obtain ⟨rfl, htail⟩ := List.cons.inj hsplit
      by_cases hnil : done = []
      · obtain rfl : reports = rest := by rw [htail, hnil]; rfl
        rw [hnil]
        exact ⟨next, line, depth, .step hstep .refl, h.steps, hstands, hpass⟩
      · obtain ⟨mid, line', depth', hbefore, hafter, hmid⟩ := h.passed done rest htail hnil hrest
        exact ⟨mid, line', depth', .step hstep hbefore, hafter, hmid⟩
  ending := by
    cases h.ending with
    | paused hexecs hend hstop => exact .paused (List.forall_mem_cons.2 ⟨hexec, hexecs⟩) hend hstop
    | halted hlast hid hhalt => exact .halted (hretired ▸ hlast) hid hhalt
    | finished hb hid hcurrent hend => exact .finished hb hid hcurrent hend

end Stepped

/-- The loop of a stepping command, from a valid machine on. -/
theorem Drives.stepped {m : Machine} {stepping : Stepping} {id : BranchId} {n : Nat}
    {r : Session × Except MachineError Stop} (h : Drives m stepping id n r) (hm : m.Valid)
    {b : Branch} (hb : b ∈ m.live) (hcurrent : m.current = some b.id) (hid : b.id = id) :
    ∃ stop reports, r.2 = .ok stop ∧
      Stepped stepping.StopsAt m id reports r.1.machine stop := by
  induction h generalizing b with
  | refused hstep => exact absurd (live_of_step_refused hstep).1 (List.ne_nil_of_mem hb)
  | halted hstep hhalt =>
    subst hid
    obtain ⟨hown, c, hretired, hc, hc'⟩ := step_stops hm hb hcurrent hstep hhalt
    exact ⟨_, _, rfl, .single hstep hown (.halted hretired hc hc')⟩
  | left hstep hhalt hnone =>
    subst hid
    obtain ⟨hown, -, -, c, hc, hcid, hcurrent'⟩ := step_goesOn hm hb hcurrent hstep hhalt
    have hnext := step_valid hm hstep
    rw [position?_of_current hnext.toConsistent hc hcurrent', Option.map_eq_none_iff] at hnone
    rw [hcid] at hcurrent'
    exact ⟨_, _, rfl, .single hstep hown (.finished hc hcid hcurrent' hnone)⟩
  | paused hstep hhalt hpos hbreak =>
    subst hid
    obtain ⟨hown, hexec, -, c, hc, hcid, hcurrent'⟩ := step_goesOn hm hb hcurrent hstep hhalt
    have hstands := stands_of_position? (step_valid hm hstep).toConsistent hc hcurrent' hpos
    rw [hcid] at hstands
    exact ⟨_, _, rfl, .single hstep hown (.paused (List.forall_mem_singleton.2 hexec) hstands
      ((Stepping.shouldBreak_iff _ _ _).1 hbreak))⟩
  | again hstep hhalt hpos hbreak _ ih =>
    subst hid
    obtain ⟨hown, hexec, hretired, c, hc, hcid, hcurrent'⟩ := step_goesOn hm hb hcurrent hstep hhalt
    have hnext := step_valid hm hstep
    have hstands := stands_of_position? hnext.toConsistent hc hcurrent' hpos
    rw [hcid] at hstands
    have hpass := mt (Stepping.shouldBreak_iff _ _ _).2 (Bool.eq_false_iff.1 hbreak)
    obtain ⟨stop, reports, hr, hrest⟩ := ih hnext hc hcurrent' hcid
    exact ⟨stop, _, hr, .cons hstep hown hexec hretired hstands hpass hrest⟩

/-! ## Sessions are valid -/

variable {s : Session} {mode : StepMode}

theorem stepBy_of_finished (hs : s.machine.Valid) (hlive : s.machine.live = []) :
    (s.stepBy mode).2 = .error .noLiveBranches := by
  rw [stepBy, hs.finished hlive, hlive]
  rfl

theorem stepBy_of_current {b : Branch} (hs : s.machine.Valid) (hb : b ∈ s.machine.live)
    (hcurrent : s.machine.current = some b.id) :
    s.stepBy mode = drive s.machine { s.stepping with mode, depth := b.depth } b.id := by
  -- The branch is the current one already, so nothing changes before the first step.
  have hswitch : s.machine.switch b.id = (s.machine, .ok ()) := by
    have hany : s.machine.live.any (·.id == b.id) = true :=
      List.any_eq_true.2 ⟨b, hb, beq_self_eq_true b.id⟩
    rw [switch, if_pos hany, ← hcurrent]
  simp only [stepBy, hcurrent, Option.some_or, hswitch, depthOf_of_live hs.toConsistent hb]

theorem stepBy_cases (hs : s.machine.Valid) (mode : StepMode) :
    (s.machine.live = [] ∧ (s.stepBy mode).2 = .error .noLiveBranches) ∨
    ∃ b ∈ s.machine.live, s.machine.current = some b.id ∧
      ∃ next stop reports, s.stepBy mode = (next, .ok stop) ∧
        Stepped ({ s.stepping with mode, depth := b.depth } : Stepping).StopsAt s.machine b.id
          reports next.machine stop := by
  by_cases hlive : s.machine.live = []
  · exact .inl ⟨hlive, stepBy_of_finished hs hlive⟩
  · obtain ⟨b, hb, hcurrent⟩ := hs.current hlive
    obtain ⟨n, hn⟩ := drive_drives s.machine { s.stepping with mode, depth := b.depth } b.id
    refine .inr ⟨b, hb, hcurrent, ?_⟩
    rw [stepBy_of_current hs hb hcurrent]
    obtain ⟨stop, reports, hstop, hstepped⟩ := hn.stepped hs hb hcurrent rfl
    exact ⟨_, stop, reports, Prod.ext rfl hstop, hstepped⟩

theorem machine_pause (s : Session) : (s.answer .pause).machine = s.machine := by
  simp only [answer, pause]
  split <;> rfl

theorem answer_valid (hs : s.machine.Valid) (r : Request) : (s.answer r).machine.Valid := by
  cases r with
  | command c => exact (perform_leads hs c).2
  | stepBy mode =>
    rcases stepBy_cases hs mode with ⟨-, hstep⟩ | ⟨b, -, -, next, stop, reports, hstep, hstepped⟩
    · rw [answer, stepBy_refused hstep]
      exact hs
    · simp only [answer, hstep]
      exact hstepped.steps.valid hs
  | resume =>
    have hset : (s.machine.setBreakpoints s.stepping.breakpoints).Consistent := { hs with }
    rw [machine_resume]
    exact (run_leads hset).2
  | pause =>
    rw [machine_pause]
    exact hs
  | adjust => exact hs

theorem answerAll_valid (hs : s.machine.Valid) (requests : List Request) :
    (s.answerAll requests).machine.Valid := by
  induction requests generalizing s with
  | nil => exact hs
  | cons r rest ih => exact ih (answer_valid hs r)

/-- However a session has come to a stepping command: the command is refused, and changes nothing,
exactly if no branch is live. Otherwise it gives turns to the current branch and no other, and stops
at the first position after a turn that has a breakpoint or at which the mode is done. -/
theorem stepping_stops_first (l : Listing) (catalog : Catalog) (config : Machine.Config)
    (requests : List Request) (mode : StepMode) :
    let s := (start (.start l catalog config)).answerAll requests
    (s.machine.live = [] ∧ (s.stepBy mode).2 = .error .noLiveBranches ∧
      s.answer (.stepBy mode) = s) ∨
    ∃ b ∈ s.machine.live, s.machine.current = some b.id ∧
      ∃ next stop reports, s.stepBy mode = (next, .ok stop) ∧
        Stepped (fun line depth =>
            s.stepping.breakpoints.contains line = true ∨ mode.Done b.depth depth)
          s.machine b.id reports next.machine stop ∧
        (∀ c ∈ s.machine.live, c.id ≠ b.id → c ∈ next.machine.live) ∧
        s.machine.retired <+: next.machine.retired := by
  intro s
  have hs : s.machine.Valid := answerAll_valid (start_valid l catalog config) requests
  rcases stepBy_cases hs mode with ⟨hlive, hstep⟩ | ⟨b, hb, hcurrent, next, stop, reports, hstep, h⟩
  · exact .inl ⟨hlive, hstep, stepBy_refused hstep⟩
  · have hproceeds := h.steps.proceeds
    refine .inr ⟨b, hb, hcurrent, next, stop, reports, hstep, h, ?_, hproceeds.retired⟩
    intro c hc hne
    refine hproceeds.mem_live hc fun x hx => ?_
    rw [h.own x hx]
    exact Ne.symm hne

-- Over a call, out of it, and into it as far as a breakpoint lets.
example :
    let l : Listing := { ops := [.int .pseudo 4, .callsub 0, .ret, .label 0, .proto 1 1,
      .frameDig (-1), .retsub] }
    let s := (start (.start l .standard {})).answer (.stepBy .into)
    let inner := s.answer (.stepBy .into)
    let marked := s.answer (.adjust { breakpoints := .ofList [6] })
    (s.stepBy .over).2 = .ok (.paused 0 2) ∧
      (inner.stepBy .out).2 = .ok (.paused 0 2) ∧
      (marked.stepBy .over).2 = .ok (.paused 0 6) := by
  decide +kernel

end Session

end Teal
