import Teal.Catalog.Standard
import Teal.Proofs.Machine.Calls
import Teal.Proofs.Machine.Loop
/-!
# Calls and returns over whole runs

The history of a branch are the lines that it has executed; a branch that was forked off has the
history of the branch it comes from. `Machine.History` follows a branch through everything that can
happen to its machine. What every line keeps of the calls before it is `Machine.Tracked`, and what
it says of calls, declarations and returns in the history of any branch is `calls_return`.
-/

namespace Teal

namespace Machine

/-- What can happen to a machine at a time. -/
inductive Act (m : Machine) : Machine → Prop
  | turn (i : Fin m.live.length) : Act m (m.stepAt i).1
  | copy (i : Fin m.live.length) : Act m (m.copy i)
  | view (current : Option BranchId) (paused : Option (BranchId × Nat)) (breakpoints : LineSet) :
      Act m { m with current, paused, breakpoints }

/-- The lines that a branch of a machine has executed since the start, the last one first. -/
inductive History (l : Listing) (catalog : Catalog) (config : Config) :
    Machine → Branch → List Execution → Prop
  | root : History l catalog config (start l catalog config) { budget := config.budget } []
  /-- Something happens to another branch. -/
  | stays {m m' b es} : History l catalog config m b es → Act m m' →
      b ∈ m'.live ++ m'.retired → History l catalog config m' b es
  /-- The branch has no budget, or no line, for another turn. -/
  | stops {m es} (i : Fin m.live.length) : History l catalog config m (m.live.get i) es →
      (m.turnAt i).executed = none →
      History l catalog config (m.stepAt i).1 ((m.live.get i).settle (m.turnAt i).halt) es
  /-- It executes a line; the branches forked off there have it in their history too. -/
  | executes {m es line op after} (i : Fin m.live.length) :
      History l catalog config m (m.live.get i) es → (m.turnAt i).executed = some line →
      m.listing.fetch? (m.live.get i).pc = some (line, op) → after ∈ (m.turnAt i).leaves m →
      History l catalog config (m.stepAt i).1 after (⟨m.live.get i, line, op, after⟩ :: es)
  /-- It is copied. -/
  | copied {m es} (i : Fin m.live.length) : History l catalog config m (m.live.get i) es →
      History l catalog config (m.copy i) ((m.live.get i).child m.nextId (m.live.get i).pc) es

variable {l : Listing} {catalog : Catalog} {config : Config} {m : Machine} {b : Branch}
  {es : List Execution}

/-- What is known of a running branch from its history. -/
structure Tracked (b : Branch) (es : List Execution) : Prop where
  /-- The line before was a call if the branch says so, and the innermost frame is that of this
  call. -/
  afterCall : b.thread.afterCall = true → ∃ call rest, es = call :: rest ∧ call.op.isCall = true ∧
    b.thread.frames = call.opened :: call.before.thread.frames
  /-- A call is pending until the depth is that at the call. -/
  pending : ∀ inner call earlier, es = inner ++ call :: earlier → call.op.isCall = true →
    (∀ e ∈ inner, e.after.depth ≠ call.before.depth) → call.Pending inner b

theorem Tracked.executes {x : Execution} (h : Tracked x.before es) (hx : x.Kind)
    (hafter : x.after.thread.afterCall = x.op.isCall) (hhalt : x.after.halt = none) :
    Tracked x.after (x :: es) := by
  refine ⟨?_, ?_⟩
  · intro hcalled
    have hcall := hafter.symm.trans hcalled
    obtain ⟨nested, hframes, hnested, -⟩ := (Execution.pending_self hx hcall hhalt).frames
    cases hnested rfl
    exact ⟨x, es, rfl, hcall, hframes⟩
  · intro inner call earlier hes hcall hdepth
    cases inner with
    | nil =>
      cases hes
      exact Execution.pending_self hx hcall hhalt
    | cons y inner =>
      cases hes
      rw [List.forall_mem_cons] at hdepth
      have hpending := h.pending inner call earlier rfl hcall hdepth.2
      exact hpending.step hx hafter hhalt hdepth.1

/-- What no act changes. -/
structure Runs (l : Listing) (config : Config) (m : Machine) : Prop where
  listing : m.listing = l
  config : m.config = config
  live : ∀ b ∈ m.live, b.halt = none
  inside : ∀ b ∈ m.live, b.line? = some b.pc

/-- What turns and copies keep of a branch holds of the live branches after an act. -/
theorem Act.live {m' : Machine} (h : Act m m') {P : Branch → Prop} (hm : ∀ b ∈ m.live, P b)
    (hturn : ∀ i, P (m.live.get i) → P (m.turnAt i).branch)
    (hchild : ∀ b id pc, P b → P (b.child id pc)) : ∀ b ∈ m'.live, P b := by
  intro c hc
  cases h with
  | turn i =>
    have hself := hturn i (hm _ (List.get_mem m.live i))
    rcases mem_live_stepAt hc with hc | ⟨-, rfl⟩ | hc
    · exact hm c hc
    · exact hself
    · obtain ⟨id, pc, rfl, -⟩ := mem_children hc
      exact hchild _ id pc hself
  | copy i =>
    rcases List.mem_append.1 hc with hc | hc
    · exact hm c hc
    · cases List.mem_singleton.1 hc
      exact hchild _ _ _ (hm _ (List.get_mem m.live i))
  | view => exact hm c hc

theorem Runs.act (hm : Runs l config m) {m' : Machine} (h : Act m m') : Runs l config m' where
  listing := by cases h <;> exact hm.listing
  config := by cases h <;> exact hm.config
  live := h.live hm.live (fun i hb => (m.turnAt_cases i).same.2.2.trans hb) fun _ _ _ hb => hb
  inside := h.live hm.inside (fun i => (m.turnAt_cases i).inside)
    fun _ id pc hb => Branch.line?_child hb id pc

theorem History.runs (h : History l catalog config m b es) : Runs l config m := by
  induction h with
  | root =>
    refine ⟨rfl, rfl, fun c hc => ?_, fun c hc => ?_⟩ <;>
      cases List.mem_singleton.1 hc <;> rfl
  | stays _ hact _ ih => exact ih.act hact
  | stops i _ _ ih => exact ih.act (.turn i)
  | executes i _ _ _ _ ih => exact ih.act (.turn i)
  | copied i _ ih => exact ih.act (.copy i)

/-- A line of a history does one of the things that a line can do. -/
theorem History.kind (h : History l catalog config m b es) {i : Fin m.live.length} {line : Nat}
    {op : Op LabelId} {after : Branch} (hexec : (m.turnAt i).executed = some line)
    (hfetch : m.listing.fetch? (m.live.get i).pc = some (line, op))
    (hafter : after ∈ (m.turnAt i).leaves m) : Execution.Kind ⟨m.live.get i, line, op, after⟩ :=
  (m.turnAt_cases i).kind (h.runs.live _ (List.get_mem m.live i))
    (h.runs.inside _ (List.get_mem m.live i)) hexec hfetch hafter

/-- A running branch is tracked by its history. -/
theorem History.tracked (h : History l catalog config m b es) (hb : b.halt = none) :
    Tracked b es := by
  induction h with
  | root => exact ⟨nofun, fun inner call earlier h => by cases inner <;> cases h⟩
  | stays _ _ _ ih => exact ih hb
  | stops i _ hnone =>
    rcases (turnAt_cases _ i).executed_cases with ⟨-, -, -, hhalt⟩ | ⟨line, op, hexec, -⟩
    · exact absurd hb hhalt
    · cases hnone.symm.trans hexec
  | executes i h hexec hfetch hafter ih =>
    have hcalled := (turnAt_cases _ i).afterCall hexec hfetch hafter
    exact (ih (h.runs.live _ (List.get_mem _ i))).executes (h.kind hexec hfetch hafter) hcalled hb
  | copied i _ ih =>
    obtain ⟨hafter, hpending⟩ := ih hb
    refine ⟨hafter, fun inner call earlier hes hcall hdepth => ?_⟩
    obtain ⟨hframes, hargs⟩ := hpending inner call earlier hes hcall hdepth
    exact ⟨hframes, hargs⟩

/-- What is known of any line of a history and of the branch before it. -/
theorem History.line (h : History l catalog config m b es) {later earlier : List Execution}
    {x : Execution} (hes : es = later ++ x :: earlier) : x.Kind ∧ Tracked x.before earlier := by
  induction h generalizing later with
  | root => cases later <;> cases hes
  | stays _ _ _ ih => exact ih hes
  | stops _ _ _ ih => exact ih hes
  | copied _ _ ih => exact ih hes
  | executes i h hexec hfetch hafter ih =>
    cases later with
    | nil =>
      cases hes
      exact ⟨h.kind hexec hfetch hafter, h.tracked (h.runs.live _ (List.get_mem _ i))⟩
    | cons y later =>
      cases hes
      exact ih rfl

/-- A history has all the lines that the branch has recorded. -/
theorem History.trace (h : History l catalog config m b es) (htrace : config.trace = true) :
    b.trace = es.map Execution.line := by
  induction h with
  | root => rfl
  | stays _ _ _ ih => exact ih
  | stops _ _ _ ih => exact ih
  | copied _ _ ih => exact ih
  | @executes m _ line _ _ i h hexec _ hafter ih =>
    have hrecorded := (m.turnAt_cases i).trace hexec hafter
    rw [h.runs.config, if_pos htrace, ih] at hrecorded
    exact hrecorded

/-! ## Every branch has a history -/

theorem mem_stepAt_cases (hm : Runs l config m) {i : Fin m.live.length} {c : Branch}
    (hc : c ∈ (m.stepAt i).1.live ++ (m.stepAt i).1.retired) :
    c ∈ m.live ++ m.retired ∨ c ∈ (m.turnAt i).leaves m := by
  rcases List.mem_append.1 hc with hc | hc
  · rcases mem_live_stepAt hc with hc | ⟨hhalt, rfl⟩ | hc
    · exact .inl (List.mem_append_left _ hc)
    · -- A live branch has not stopped, and neither has what it becomes.
      have hsame := (m.turnAt_cases i).same.2.2.trans (hm.live _ (List.get_mem m.live i))
      refine .inr (List.mem_cons.2 (.inl ?_))
      rw [hhalt, Branch.settle_none hsame]
    · exact .inr (List.mem_cons_of_mem _ hc)
  · rcases mem_retired_stepAt hc with hc | ⟨halt, hhalt, rfl⟩
    · exact .inl (List.mem_append_right _ hc)
    · refine .inr (List.mem_cons.2 (.inl ?_))
      rw [hhalt]
      rfl

theorem exists_history_of_leaves {i : Fin m.live.length} {c : Branch}
    (h : History l catalog config m (m.live.get i) es) (hc : c ∈ (m.turnAt i).leaves m) :
    ∃ es', History l catalog config (m.stepAt i).1 c es' := by
  rcases (m.turnAt_cases i).executed_cases with
    ⟨hnone, hbranch, hothers, -⟩ | ⟨line, op, hexec, hfetch⟩
  · refine ⟨es, ?_⟩
    rcases Turn.mem_leaves hc with rfl | ⟨id, pc, hpc, -⟩
    · rw [hbranch]
      exact .stops i h hnone
    · rw [hothers] at hpc
      exact absurd hpc List.not_mem_nil
  · exact ⟨_, .executes i h hexec hfetch hc⟩

/-- Every branch of the machine has a history. -/
def Told (l : Listing) (catalog : Catalog) (config : Config) (m : Machine) : Prop :=
  Runs l config m ∧ ∀ b ∈ m.live ++ m.retired, ∃ es, History l catalog config m b es

theorem told_invariant : Invariant (Told l catalog config) where
  turn {m} i hm := by
    obtain ⟨hruns, htold⟩ := hm
    refine ⟨hruns.act (.turn i), fun c hc => ?_⟩
    rcases mem_stepAt_cases hruns hc with hold | hnew
    · obtain ⟨es, h⟩ := htold c hold
      exact ⟨es, h.stays (.turn i) hc⟩
    · obtain ⟨es, h⟩ := htold _ (List.mem_append_left _ (List.get_mem m.live i))
      exact exists_history_of_leaves h hnew
  view current paused breakpoints hm := by
    obtain ⟨hruns, htold⟩ := hm
    refine ⟨hruns.act (.view current paused breakpoints), fun c hc => ?_⟩
    obtain ⟨es, h⟩ := htold c hc
    exact ⟨es, h.stays (.view current paused breakpoints) hc⟩

theorem told_copy (hm : Told l catalog config m) (i : Fin m.live.length) :
    Told l catalog config (m.copy i) := by
  obtain ⟨hruns, htold⟩ := hm
  refine ⟨hruns.act (.copy i), fun c hc => ?_⟩
  have hcases : c ∈ m.live ++ m.retired ∨ c = (m.live.get i).child m.nextId (m.live.get i).pc := by
    simp only [copy, List.mem_append, List.mem_singleton] at hc ⊢
    grind
  rcases hcases with hold | rfl
  · obtain ⟨es, h⟩ := htold c hold
    exact ⟨es, h.stays (.copy i) hc⟩
  · obtain ⟨es, h⟩ := htold _ (List.mem_append_left _ (List.get_mem m.live i))
    exact ⟨es, .copied i h⟩

theorem start_told (l : Listing) (catalog : Catalog) (config : Config) :
    Told l catalog config (start l catalog config) := by
  refine ⟨History.root.runs, fun b hb => ?_⟩
  cases List.mem_singleton.1 hb
  exact ⟨[], .root⟩

/-- A line that declares a call comes right after the call that has opened the innermost frame. -/
theorem History.declares (h : History l catalog config m b es) {later earlier : List Execution}
    {x : Execution} (hes : es = later ++ x :: earlier) (hx : x.Declares) :
    ∃ call rest, earlier = call :: rest ∧ call.op.isCall = true ∧
      x.before.thread.frames = call.opened :: call.before.thread.frames := by
  obtain ⟨hkind, htracked⟩ := h.line hes
  exact htracked.afterCall (hkind.afterCall_of_declares hx)

/-- Calls and returns match in the history of every branch of a machine. The first line after a call
that brings the depth back to what it was returns from this call, and the arguments and results it
goes by are those that the first line of the call has declared. Nothing but the line after a call
declares that call, so it is declared at most once. -/
theorem calls_return (l : Listing) (catalog : Catalog) (config : Config) :
    (∀ commands, let m := (start l catalog config).performAll commands
      ∀ b ∈ m.live ++ m.retired, ∃ es, History l catalog config m b es) ∧
    ∀ m b es, History l catalog config m b es →
      (config.trace = true → b.trace = es.map Execution.line) ∧
      (∀ later back inner call earlier, es = later ++ back :: (inner ++ call :: earlier) →
        call.op.isCall = true → (∀ x ∈ inner, x.after.depth ≠ call.before.depth) →
        back.after.depth = call.before.depth → call.Returns inner back) ∧
      (∀ later x earlier, es = later ++ x :: earlier → x.Declares →
        ∃ call rest, earlier = call :: rest ∧ call.op.isCall = true ∧
          x.before.thread.frames = call.opened :: call.before.thread.frames) ∧
      ∀ later second between first earlier,
        es = later ++ second :: (between ++ first :: earlier) → first.Declares → second.Declares →
        ∃ call rest, between = call :: rest ∧ call.op.isCall = true := by
  refine ⟨fun commands => ?_, fun m b es h => ⟨h.trace, ?_, ?_, ?_⟩⟩
  · exact (told_invariant.performAll (fun i hm => told_copy hm i)
      (start_told l catalog config) commands).2
  · intro later back inner call earlier hes hcall hinner hdepth
    obtain ⟨hkind, htracked⟩ := h.line hes
    exact (htracked.pending inner call earlier rfl hcall hinner).returns hkind hdepth
  · intro later x earlier hes hx
    exact h.declares hes hx
  · intro later second between first earlier hes hfirst hsecond
    obtain ⟨call, rest, hcall, hop, -⟩ := h.declares hes hsecond
    cases between with
    | nil =>
      -- The line before the second one would be both a declaration and a call.
      cases hcall
      exact absurd (Op.signature?_of_isCall hop) hfirst.1
    | cons x between =>
      obtain ⟨hx, -⟩ := List.cons.inj hcall
      exact ⟨x, between, rfl, hx ▸ hop⟩

/-- A subroutine that takes a number and gives it back. -/
def echoCall : Listing :=
  { ops := [.int .pseudo 7, .callsub 0, .label 0, .proto 1 1, .retsub] }

theorem calls_return_of_declared :
    ∃ m b es back inner call earlier, History echoCall .standard {} m b es ∧
      es = back :: (inner ++ call :: earlier) ∧ call.Returns inner back ∧
      Execution.signature? inner = some (1, 1) ∧ back.after.line? = some 2 ∧
      back.after.thread.stack.map Cell.value = [.uint 7] := by
  let m₀ := start echoCall .standard {}
  let m₁ := (m₀.stepAt ⟨0, by decide⟩).1
  let b₁ := m₁.live.get ⟨0, by decide +kernel⟩
  let m₂ := (m₁.stepAt ⟨0, by decide +kernel⟩).1
  let b₂ := m₂.live.get ⟨0, by decide +kernel⟩
  let m₃ := (m₂.stepAt ⟨0, by decide +kernel⟩).1
  let b₃ := m₃.live.get ⟨0, by decide +kernel⟩
  let m₄ := (m₃.stepAt ⟨0, by decide +kernel⟩).1
  let b₄ := m₄.live.get ⟨0, by decide +kernel⟩
  let push : Execution := ⟨{ budget := 700 }, 0, .int .pseudo 7, b₁⟩
  let call : Execution := ⟨b₁, 1, .callsub 0, b₂⟩
  let declare : Execution := ⟨b₂, 3, .proto 1 1, b₃⟩
  let back : Execution := ⟨b₃, 4, .retsub, b₄⟩
  have h₁ : History echoCall .standard {} m₁ b₁ [push] :=
    .executes ⟨0, by decide⟩ .root (by decide +kernel) (by decide +kernel) (by decide +kernel)
  have h₂ : History echoCall .standard {} m₂ b₂ [call, push] :=
    .executes ⟨0, by decide +kernel⟩ h₁ (by decide +kernel) (by decide +kernel) (by decide +kernel)
  have h₃ : History echoCall .standard {} m₃ b₃ [declare, call, push] :=
    .executes ⟨0, by decide +kernel⟩ h₂ (by decide +kernel) (by decide +kernel) (by decide +kernel)
  have h₄ : History echoCall .standard {} m₄ b₄ [back, declare, call, push] :=
    .executes ⟨0, by decide +kernel⟩ h₃ (by decide +kernel) (by decide +kernel) (by decide +kernel)
  have hreturns := ((calls_return echoCall .standard {}).2 m₄ b₄ _ h₄).2.1
  refine ⟨m₄, b₄, _, back, [declare], call, [push], h₄, rfl, ?_, by decide +kernel,
    by decide +kernel, by decide +kernel⟩
  exact hreturns [] back [declare] call [push] rfl rfl (by decide +kernel) (by decide +kernel)

/-- A subroutine that returns at once. -/
def idleCall : Listing :=
  { ops := [.callsub 0, .int .pseudo 1, .ret, .label 0, .retsub] }

/-- A branch whose budget is spent by a return has not failed, and yet does not stand behind the
call. -/
theorem return_may_exhaust :
    ∃ m b back call, History idleCall .standard { budget := 2 } m b [back, call] ∧
      call.op.isCall = true ∧ back.after.depth = call.before.depth ∧
      back.after.fault? = none ∧ back.after.line? ≠ some (call.line + 1) := by
  let m₀ := start idleCall .standard { budget := 2 }
  let m₁ := (m₀.stepAt ⟨0, by decide⟩).1
  let called := m₁.live.get ⟨0, by decide +kernel⟩
  let m₂ := (m₁.stepAt ⟨0, by decide +kernel⟩).1
  let returned := m₂.retired.get ⟨0, by decide +kernel⟩
  let call : Execution := ⟨{ budget := 2 }, 0, .callsub 0, called⟩
  let back : Execution := ⟨called, 4, .retsub, returned⟩
  have hcall : History idleCall .standard { budget := 2 } m₁ called [call] :=
    .executes ⟨0, by decide⟩ .root (by decide +kernel) (by decide +kernel) (by decide +kernel)
  have hback : History idleCall .standard { budget := 2 } m₂ returned [back, call] :=
    .executes ⟨0, by decide +kernel⟩ hcall (by decide +kernel) (by decide +kernel)
      (by decide +kernel)
  exact ⟨m₂, returned, back, call, hback, rfl, by decide +kernel, by decide +kernel,
    by decide +kernel⟩

end Machine

end Teal
