import Teal.Proofs.Instruction
import Teal.Proofs.Machine
/-!
# Calls and returns

An `Execution` is a line that a branch has executed, with what it left of the branch.
`Execution.Kind` lists what such a line can do to the calls of its branch: `Branch.TurnCases.kind`.

As long as a call has not returned, its frame lies where the call has put it, and it is declared if
and only if the first line after the call has done so: `Execution.Pending`. So the return that
closes the frame finds in it what the call and that line have put there: `Execution.Pending.returns`.
-/

namespace Teal

/-- The arguments and results that a line declares. -/
def Op.signature? {ι : Type} : Op ι → Option (Nat × Nat)
  | .proto args results => some (args.toNat, results.toNat)
  | _ => none

namespace Op

variable {ι : Type} {op : Op ι}

theorem signature?_of_isCall (h : op.isCall = true) : op.signature? = none := by
  cases op <;> simp_all [isCall, signature?]

theorem isCall_of_signature? {signature : Nat × Nat} (h : op.signature? = some signature) :
    op.isCall = false := by
  cases op <;> simp_all [isCall, signature?]

theorem isCall_of_changesFrames (h : op.changesFrames = false) : op.isCall = false := by
  cases op <;> simp_all [isCall, changesFrames]

theorem signature?_of_changesFrames (h : op.changesFrames = false) : op.signature? = none := by
  cases op <;> simp_all [signature?, changesFrames]

end Op

/-- A line that a branch has executed. -/
structure Execution where
  /-- The branch before the line. -/
  before : Branch
  line : Nat
  op : Op LabelId
  /-- The branch after the line, or the branch that was forked off there. -/
  after : Branch

namespace Execution

/-- The frame that a call opens. -/
def opened (call : Execution) : Frame :=
  { returnPc := call.line + 1, sp := call.before.thread.stack.length }

/-- The arguments and results that the first of some lines declares, the last line first. -/
def signature? (inner : List Execution) : Option (Nat × Nat) :=
  inner.getLast?.bind (·.op.signature?)

/-- The frame of a call after it has executed some lines, the last one first. -/
def frame (call : Execution) (inner : List Execution) : Frame :=
  match signature? inner with
  | some (args, results) => { call.opened with args, results, declared := true }
  | none => call.opened

/-- The line has declared the arguments and results of a call. -/
def Declares (x : Execution) : Prop :=
  x.op.signature? ≠ none ∧ x.after.fault? = none

/-- What an executed line can do to the calls of its branch. -/
inductive Kind (x : Execution) : Prop
  /-- It opens a call. -/
  | called : x.op.isCall = true → x.after.fault? = none →
      x.after.thread.frames = x.opened :: x.before.thread.frames → Kind x
  /-- It declares the innermost call, which is the line before. -/
  | declared {args results frame rest} : x.op.signature? = some (args, results) →
      x.before.thread.afterCall = true → x.before.thread.frames = frame :: rest →
      args ≤ frame.sp →
      x.after.thread.frames = { frame with args, results, declared := true } :: rest → Kind x
  /-- It closes the innermost call. -/
  | returned {frame} : x.op = .retsub → x.before.thread.frames = frame :: x.after.thread.frames →
      (x.after.line? = some frame.returnPc ∨ x.after.halt = some .exhausted) →
      (frame.declared = false → x.after.thread.stack = x.before.thread.stack) →
      (frame.declared = true →
        frame.sp - frame.args + frame.results ≤ x.before.thread.stack.length ∧
        x.after.thread.stack = x.before.thread.stack.take frame.results ++
          x.before.thread.stack.drop (x.before.thread.stack.length - (frame.sp - frame.args))) →
      Kind x
  /-- It fails; a return closes its call all the same. -/
  | failed {fault} : x.after.halt = some (.faulted fault) → x.after.line? = some x.line →
      (x.after.thread.frames = x.before.thread.frames ∨
        x.op = .retsub ∧ ∃ frame, x.before.thread.frames = frame :: x.after.thread.frames) → Kind x
  /-- It leaves the calls alone. -/
  | other : x.op.changesFrames = false → x.after.fault? = none →
      x.after.thread.frames = x.before.thread.frames → Kind x

end Execution

/-- The branches that a turn leaves: the one that had it, and those forked off from it. -/
def Turn.leaves (m : Machine) (t : Turn) : List Branch :=
  t.branch.settle t.halt :: m.children t.branch t.others

section Turn
variable {l : Listing} {catalog : Catalog} {traced : Bool} {scratch : Scratch} {b c : Branch}
  {t : Turn} {m : Machine}

theorem Branch.TurnCases.executed_cases (h : b.TurnCases l catalog traced scratch t) :
    (t.executed = none ∧ t.branch = b ∧ t.others = [] ∧ t.halt ≠ none) ∨
      ∃ pc op, t.executed = some pc ∧ l.fetch? b.pc = some (pc, op) := by
  cases h with
  | spent | left => exact .inl ⟨rfl, rfl, rfl, nofun⟩
  | fails hfetch | ends hfetch | goes hfetch => exact .inr ⟨_, _, rfl, hfetch⟩

theorem Branch.goOn_halt (b : Branch) (scratch : Scratch) (executed pc : Nat) (others : List Nat) :
    (b.goOn scratch executed pc others).halt = none ∨
      (b.goOn scratch executed pc others).halt = some .exhausted := by
  unfold Branch.goOn
  dsimp only
  split
  · exact .inr rfl
  · exact .inl rfl

/-- A branch that is not at the exit goes on at the next line, or stops for lack of budget. -/
theorem Branch.line?_goOn (hb : b.line? = some b.pc) (scratch : Scratch) (executed pc : Nat)
    (others : List Nat) :
    let t := b.goOn scratch executed pc others
    (t.branch.settle t.halt).line? = some pc ∨ t.halt = some .exhausted := by
  intro t
  rcases b.goOn_halt scratch executed pc others with hhalt | hhalt
  · left
    have hstays : (t.branch.settle t.halt).atExit = b.atExit := by
      rw [show t.halt = none from hhalt]
      rfl
    exact Branch.line?_of_same hstays hb
  · exact .inr hhalt

theorem Branch.fault?_eq_none (h : b.halt = none ∨ b.halt = some .exhausted) : b.fault? = none := by
  unfold Branch.fault?
  rcases h with h | h <;> rw [h]

theorem Turn.mem_leaves (h : c ∈ t.leaves m) :
    c = t.branch.settle t.halt ∨ ∃ id, ∃ pc ∈ t.others, c = t.branch.child id pc := by
  rcases List.mem_cons.1 h with rfl | h
  · exact .inl rfl
  · obtain ⟨id, pc, rfl, -, hpc⟩ := Machine.mem_children h
    exact .inr ⟨id, pc, hpc, rfl⟩

/-- What the line executed in a turn has done to the calls of its branch. -/
theorem Branch.TurnCases.kind (h : b.TurnCases l catalog traced scratch t) (hb : b.halt = none)
    (hinside : b.line? = some b.pc) {pc : Nat} {op : Op LabelId} (hexec : t.executed = some pc)
    (hfetch : l.fetch? b.pc = some (pc, op)) (hc : c ∈ t.leaves m) :
    Execution.Kind ⟨b, pc, op, c⟩ := by
  have hleaves := Turn.mem_leaves hc
  have hcharge (thread : Thread) : (b.charge catalog traced pc op thread).line? = some pc :=
    Branch.line?_of_same (b := b) rfl hinside
  cases h with
  | spent | left => cases hexec
  | @fails _ _ _ s hfetch' hout =>
    cases hfetch.symm.trans hfetch'
    rcases hleaves with rfl | ⟨id, pc', hpc', -⟩
    · refine .failed rfl (hcharge s.thread) ?_
      cases hout with
      | lacks hframes => exact .inr ⟨rfl, _, hframes⟩
      | fails hframes => exact .inl hframes
    · exact absurd hpc' List.not_mem_nil
  | ends hfetch' hout =>
    cases hfetch.symm.trans hfetch'
    rcases hleaves with rfl | ⟨id, pc', hpc', -⟩
    · cases hout with
      | works hop hframes => exact .other hop rfl hframes
    · exact absurd hpc' List.not_mem_nil
  | @goes _ _ _ s next others hfetch' hout hlines =>
    cases hfetch.symm.trans hfetch'
    rcases hleaves with rfl | ⟨id, pc', hpc', rfl⟩
    · have hhalt := (b.charge catalog traced pc op s.thread).goOn_halt s.scratch pc next others
      have hline := Branch.line?_goOn (hcharge s.thread) s.scratch pc next others
      cases hout with
      | calls => exact .called rfl (Branch.fault?_eq_none hhalt) rfl
      | declares hframes hafter _ hargs => exact .declared rfl hafter hframes hargs rfl
      | returns hframes hdeclared =>
        cases hlines
        refine .returned rfl hframes hline (fun _ => rfl) ?_
        intro h
        cases hdeclared.symm.trans h
      | yields hframes hdeclared hresults =>
        cases hlines
        refine .returned rfl hframes hline ?_ (fun _ => ⟨hresults, rfl⟩)
        intro h
        cases hdeclared.symm.trans h
      | works hop hframes => exact .other hop (Branch.fault?_eq_none hhalt) hframes
    · cases hout with
      | calls | declares | returns | yields =>
        -- Control goes one way.
        cases hlines
        exact absurd hpc' List.not_mem_nil
      | works hop hframes => exact .other hop (Branch.fault?_eq_none (.inl hb)) hframes

theorem Branch.TurnCases.afterCall (h : b.TurnCases l catalog traced scratch t) {pc : Nat}
    {op : Op LabelId} (hexec : t.executed = some pc) (hfetch : l.fetch? b.pc = some (pc, op))
    (hc : c ∈ t.leaves m) : c.thread.afterCall = op.isCall := by
  have hbranch : t.branch.thread.afterCall = op.isCall := by
    cases h with
    | spent | left => cases hexec
    | fails hfetch' | ends hfetch' | goes hfetch' =>
      cases hfetch.symm.trans hfetch'
      rfl
  rcases Turn.mem_leaves hc with rfl | ⟨id, pc', -, rfl⟩ <;> exact hbranch

theorem Branch.TurnCases.trace (h : b.TurnCases l catalog traced scratch t) {pc : Nat}
    (hexec : t.executed = some pc) (hc : c ∈ t.leaves m) :
    c.trace = if traced then pc :: b.trace else b.trace := by
  have hbranch : t.branch.trace = if traced then pc :: b.trace else b.trace := by
    cases h with
    | spent | left => cases hexec
    | fails | ends | goes =>
      cases hexec
      rfl
  rcases Turn.mem_leaves hc with rfl | ⟨id, pc', -, rfl⟩ <;> exact hbranch

end Turn

/-! ## Inside a call -/

namespace Execution

variable {call x : Execution} {inner : List Execution}

/-- Only the first line after a call counts. -/
theorem signature?_cons (h : x.op.signature? = none ∨ inner ≠ []) :
    signature? (x :: inner) = signature? inner := by
  unfold signature?
  cases inner with
  | nil =>
    rcases h with h | h
    · simp [h]
    · exact absurd rfl h
  | cons y rest => rw [List.getLast?_cons_cons]

theorem frame_cons (h : x.op.signature? = none ∨ inner ≠ []) :
    call.frame (x :: inner) = call.frame inner := by
  unfold frame
  rw [signature?_cons h]

/-- The call has not returned: above the calls that were open before it there is its frame, and
above that the calls made since. -/
structure Pending (call : Execution) (inner : List Execution) (b : Branch) : Prop where
  frames : ∃ nested, b.thread.frames = nested ++ call.frame inner :: call.before.thread.frames ∧
    (inner = [] → nested = []) ∧ (b.thread.afterCall = true → nested = [] → inner = [])
  args : ∀ args results, signature? inner = some (args, results) →
    args ≤ call.before.thread.stack.length

/-- A call opens a frame and is pending from then on. -/
theorem pending_self (hx : x.Kind) (hcall : x.op.isCall = true) (hhalt : x.after.halt = none) :
    Pending x [] x.after := by
  cases hx with
  | called _ _ hframes => exact ⟨⟨[], hframes, fun _ => rfl, fun _ _ => rfl⟩, nofun⟩
  | declared hop =>
    cases (Op.isCall_of_signature? hop).symm.trans hcall
  | returned hop =>
    rw [hop] at hcall
    cases hcall
  | failed hfault => cases hfault.symm.trans hhalt
  | other hop =>
    cases (Op.isCall_of_changesFrames hop).symm.trans hcall

/-- Only the line after a call can declare it. -/
theorem Kind.afterCall_of_declares (hx : x.Kind) (h : x.Declares) :
    x.before.thread.afterCall = true := by
  obtain ⟨hsig, hfault⟩ := h
  cases hx with
  | called hop => exact absurd (Op.signature?_of_isCall hop) hsig
  | declared _ hcalled => exact hcalled
  | returned hop =>
    rw [hop] at hsig
    exact absurd rfl hsig
  | failed hhalt =>
    unfold Branch.fault? at hfault
    rw [hhalt] at hfault
    cases hfault
  | other hop => exact absurd (Op.signature?_of_changesFrames hop) hsig

/-- A line that leaves the frame of the call as it is. -/
theorem Pending.extend (h : Pending call inner x.before)
    (hsig : x.op.signature? = none ∨ inner ≠ []) (nested : List Frame)
    (hframes : x.after.thread.frames = nested ++ call.frame inner :: call.before.thread.frames)
    (hfresh : x.after.thread.afterCall = true → nested ≠ []) :
    Pending call (x :: inner) x.after := by
  refine ⟨⟨nested, ?_, nofun, fun hcalled hnil => absurd hnil (hfresh hcalled)⟩, ?_⟩
  · rw [frame_cons hsig]
    exact hframes
  · rw [signature?_cons hsig]
    exact h.args

/-- As long as the depth is another one than at the call, the call stays pending. -/
theorem Pending.step (h : Pending call inner x.before) (hx : x.Kind)
    (hafter : x.after.thread.afterCall = x.op.isCall) (hhalt : x.after.halt = none)
    (hdepth : x.after.depth ≠ call.before.depth) : Pending call (x :: inner) x.after := by
  obtain ⟨nested, hframes, hfirst, hfresh⟩ := h.frames
  cases hx with
  | called hop _ hopened =>
    rw [hframes] at hopened
    exact h.extend (.inl (Op.signature?_of_isCall hop)) (x.opened :: nested) hopened nofun
  | @declared args results f rest hsig hcalled hbefore hle hdeclared =>
    have hnot := hafter.trans (Op.isCall_of_signature? hsig)
    rw [hbefore] at hframes
    cases nested with
    | nil =>
      -- The frame is that of the call, and this is the first line after it.
      cases hfresh hcalled rfl
      cases hframes
      have hself : signature? [x] = some (args, results) := hsig
      refine ⟨⟨[], ?_, nofun, fun h => nomatch hnot.symm.trans h⟩, ?_⟩
      · unfold frame
        rw [hself]
        exact hdeclared
      · intro args' results' h
        cases hself.symm.trans h
        exact hle
    | cons inward nested =>
      obtain ⟨rfl, rfl⟩ := List.cons.inj hframes
      have hne : inner ≠ [] := fun h => nomatch hfirst h
      exact h.extend (.inr hne) (_ :: nested) hdeclared nofun
  | returned hop hbefore =>
    rw [hbefore] at hframes
    cases nested with
    | nil => exact absurd (congrArg List.length (List.cons.inj hframes).2) hdepth
    | cons inward nested =>
      rw [hop] at hafter
      refine h.extend (.inl ?_) nested (List.cons.inj hframes).2 fun hcalled => ?_
      · rw [hop]
        rfl
      · cases hafter.symm.trans hcalled
  | failed hfault => cases hfault.symm.trans hhalt
  | other hop _ hsame =>
    have hnot := hafter.trans (Op.isCall_of_changesFrames hop)
    refine h.extend (.inl (Op.signature?_of_changesFrames hop)) nested (hsame.trans hframes) ?_
    intro hcalled
    cases hnot.symm.trans hcalled

/-- The first line after a call that brings the depth back to that at the call is a return. It
fails, or it goes on behind the call: with the declared number of results in the place of the
declared number of arguments if the first line of the call has declared them, else with the stack as
it is. If the budget is spent, the branch stops right there. -/
structure Returns (call : Execution) (inner : List Execution) (back : Execution) : Prop where
  op : back.op = .retsub
  outcome : (∃ fault, back.after.halt = some (.faulted fault) ∧ back.after.line? = some back.line) ∨
    (back.after.line? = some (call.line + 1) ∨ back.after.halt = some .exhausted) ∧
      (∀ args results, signature? inner = some (args, results) →
        let height := call.before.thread.stack.length
        let cells := back.before.thread.stack
        args ≤ height ∧ height - args + results ≤ cells.length ∧
          back.after.thread.stack.length = height - args + results ∧
          back.after.thread.stack =
            cells.take results ++ cells.drop (cells.length - (height - args))) ∧
      (signature? inner = none → back.after.thread.stack = back.before.thread.stack)

theorem frame_returnPc (call : Execution) (inner : List Execution) :
    (call.frame inner).returnPc = call.line + 1 := by
  unfold frame
  split <;> rfl

/-- A return from a pending call. -/
theorem Pending.returns (h : Pending call inner x.before) (hx : x.Kind)
    (hdepth : x.after.depth = call.before.depth) : Returns call inner x := by
  obtain ⟨nested, hframes, -⟩ := h.frames
  -- The frame of the call lies above those that were there at the call.
  have hlength : x.before.thread.frames.length =
      nested.length + 1 + call.before.thread.frames.length := by
    rw [hframes, List.length_append, List.length_cons]
    omega
  unfold Branch.depth at hdepth
  cases hx with
  | called _ _ hopened =>
    rw [hopened, List.length_cons] at hdepth
    omega
  | declared _ _ hbefore _ hdeclared =>
    rw [hdeclared, List.length_cons] at hdepth
    rw [hbefore, List.length_cons] at hlength
    omega
  | other _ _ hsame =>
    rw [hsame] at hdepth
    omega
  | failed hfault hline hclosed =>
    rcases hclosed with hsame | ⟨hop, -⟩
    · rw [hsame] at hdepth
      omega
    · exact ⟨hop, .inl ⟨_, hfault, hline⟩⟩
  | returned hop hbefore hline hplain hdeclared =>
    rw [hbefore, List.length_cons] at hlength
    have hnested : nested = [] := List.length_eq_zero_iff.1 (by omega)
    rw [hbefore, hnested] at hframes
    obtain ⟨rfl, -⟩ := List.cons.inj hframes
    refine ⟨hop, .inr ⟨?_, ?_, ?_⟩⟩
    · rwa [frame_returnPc] at hline
    · intro args results hsig
      unfold frame at hdeclared
      rw [hsig] at hdeclared
      obtain ⟨hresults, hstack⟩ := hdeclared rfl
      refine ⟨h.args args results hsig, hresults, ?_, hstack⟩
      rw [hstack, List.length_append, List.length_take, List.length_drop]
      dsimp only [opened] at hresults ⊢
      omega
    · intro hsig
      unfold frame at hplain
      rw [hsig] at hplain
      exact hplain rfl

end Execution

end Teal
