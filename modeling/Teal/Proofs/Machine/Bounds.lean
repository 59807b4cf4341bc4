import Teal.Machine.View
import Teal.Proofs.Instruction.Checked
import Teal.Proofs.Machine.Reachable
/-!
# Machines stay within bounds

Nothing that a reachable machine does reaches outside of what it works on: not the look-up of the
next line, not the accesses of an instruction, not the views of a branch by its name and its
history. Each of these has a second form here, with checked accesses, that has no result where one
of them is out of its bounds, and the two forms always agree.

Two facts about branches carry this. No call takes more arguments than there were values when it was
made, whatever has become of the stack since: `proto` sees to it, and only `proto` declares
arguments. And every recorded line is a line of the listing.
-/

namespace Teal

/-! ## Checked look-ups -/

namespace Listing

/-- The instruction that control at `i` comes to, with its line, which must be in the listing. -/
def checkedFetch? (l : Listing) (i : Nat) : Option (Option (Nat × Op LabelId)) :=
  match l.nextExecutable i with
  | some pc => l.ops[pc]?.map fun op => some (pc, op)
  | none => some none

/-- The name of the label that a line stands under. The lines up to this one are cut out of the
listing. -/
def checkedLabelAt? (l : Listing) (line : Nat) : Option (Option String) :=
  (Checked.slice? l.ops 0 (line + 1)).map fun lines =>
    (lines.reverse.findSome? Op.declared?).map l.labels.name

/-- The text of one line with its number. The line must be in the listing. -/
def checkedRender (l : Listing) (line : Nat) : Option String :=
  l.ops[line]?.map fun op => s!"{line}: {(op.map l.labels.name).render}"

theorem checkedFetch?_eq (l : Listing) (i : Nat) : l.checkedFetch? i = some (l.fetch? i) := by
  unfold checkedFetch?
  cases h : l.nextExecutable i with
  | none => simp [fetch?, h]
  | some pc =>
    obtain ⟨op, hop⟩ := fetch?_of_nextExecutable h
    simp [hop, getElem?_of_fetch? hop]

variable {l : Listing} {line : Nat}

theorem checkedLabelAt?_eq (h : line < l.size) :
    l.checkedLabelAt? line = some (Machine.labelAt? l line) := by
  rw [checkedLabelAt?, Checked.slice?, if_pos ⟨Nat.zero_le _, h⟩]
  rfl

theorem checkedRender_eq (h : line < l.size) :
    l.checkedRender line = some s!"{line}: {l.renderLine line}" := by
  have hget : l.ops[line]? = some l.ops[line] := List.getElem?_eq_getElem h
  rw [checkedRender, renderLine, hget]
  rfl

end Listing

namespace Machine

/-- The name of the branch with a given number, looked up with every access checked. -/
def checkedName? (m : Machine) (id : BranchId) : Option (Option String) :=
  match m.branch? id with
  | none => some none
  | some b =>
    match (b.line?.filter (· < m.listing.size)).or b.trace.head? with
    | some line => m.listing.checkedLabelAt? line
    | none => some none

/-- The executed lines of a branch in order, each with its number, with every access checked. -/
def checkedHistory (m : Machine) (id : BranchId) : Option (Except MachineError (List String)) :=
  match m.branch? id with
  | some b => (b.trace.reverse.mapM m.listing.checkedRender).map .ok
  | none => some (.error (.unknownBranch id))

end Machine

/-! ## Branches -/

/-- A branch whose calls were supplied with their arguments and whose recorded lines are in the
listing. -/
structure Branch.Grounded (l : Listing) (b : Branch) : Prop where
  supplied : b.thread.Supplied
  trace : ∀ line ∈ b.trace, line < l.size

section Grounded
variable {l : Listing} {catalog : Catalog} {traced : Bool} {scratch : Scratch} {b : Branch}
  {t : Turn} {pc : Nat} {op : Op LabelId}

/-- The state that an instruction leaves. -/
def State.ofResult : EStateM.Result Fault State Effect → State
  | .ok _ s | .error _ s => s

/-- Only `proto` declares arguments, and it refuses more than there are values. -/
theorem Op.Outcome.supplied {s : State} {r : EStateM.Result Fault State Effect}
    (h : op.Outcome l pc s r) (hs : s.thread.Supplied) : (State.ofResult r).thread.Supplied := by
  have hrest {frame : Frame} {rest : List Frame} (hframes : s.thread.frames = frame :: rest) :
      ∀ f ∈ rest, f.args ≤ f.sp :=
    fun f hf => hs f (hframes ▸ List.mem_cons_of_mem frame hf)
  cases h with
  | calls => exact List.forall_mem_cons.2 ⟨Nat.zero_le _, hs⟩
  | declares hframes _ _ hargs => exact List.forall_mem_cons.2 ⟨hargs, hrest hframes⟩
  | returns hframes | yields hframes | lacks hframes => exact hrest hframes
  | fails hframes | works _ hframes =>
    intro f hf
    exact hs f (hframes ▸ hf)

theorem Branch.Grounded.charge (hb : b.Grounded l) (hfetch : l.fetch? b.pc = some (pc, op))
    {thread : Thread} (hthread : thread.Supplied) :
    (b.charge catalog traced pc op thread).Grounded l := by
  refine ⟨hthread, fun line hline => ?_⟩
  simp only [Branch.charge] at hline
  split at hline
  · rcases List.mem_cons.1 hline with rfl | hline
    · exact Listing.fetch?_lt hfetch
    · exact hb.trace line hline
  · exact hb.trace line hline

theorem Branch.Grounded.turn (hb : b.Grounded l) (h : b.TurnCases l catalog traced scratch t) :
    t.branch.Grounded l := by
  cases h with
  | spent | left => exact hb
  | fails hfetch hout | ends hfetch hout => exact hb.charge hfetch (hout.supplied hb.supplied)
  | goes hfetch hout =>
    have hcharge : (b.charge catalog traced _ _ _).Grounded l :=
      hb.charge hfetch (hout.supplied hb.supplied)
    exact ⟨hcharge.supplied, hcharge.trace⟩

end Grounded

namespace Machine

variable {l : Listing} {catalog : Catalog} {config : Config} {m : Machine}

theorem Reachable.grounded (h : Reachable l catalog config m) :
    ∀ b ∈ m.live ++ m.retired, b.Grounded l := by
  refine h.branches ⟨nofun, nofun⟩ ?_ fun b id _ hb => ⟨hb.supplied, hb.trace⟩
  intro b scratch _ hb
  have ht := hb.turn (b.turn_cases l catalog config.trace scratch)
  exact ⟨⟨ht.supplied, ht.trace⟩, fun id pc _ => ⟨ht.supplied, ht.trace⟩⟩

/-! ## Views -/

section Views
variable {b : Branch} {id : BranchId}

theorem mem_of_branch? (h : m.branch? id = some b) : b ∈ m.live ++ m.retired :=
  List.mem_of_find?_eq_some h

theorem checkedName?_eq (h : ∀ b ∈ m.live ++ m.retired, b.Grounded m.listing) (id : BranchId) :
    m.checkedName? id = some (m.branchName? id) := by
  unfold checkedName? branchName?
  cases hb : m.branch? id with
  | none => rfl
  | some b =>
    dsimp only [Option.bind_some]
    unfold nameOf?
    cases hline : b.line?.filter (· < m.listing.size) with
    | some line =>
      have hlt : line < m.listing.size := by
        simpa using (Option.filter_eq_some_iff.1 hline).2
      exact Listing.checkedLabelAt?_eq hlt
    | none =>
      rw [Option.none_or]
      cases hhead : b.trace.head? with
      | none => rfl
      | some line =>
        exact Listing.checkedLabelAt?_eq
          ((h b (mem_of_branch? hb)).trace line (List.mem_of_head? hhead))

theorem mapM_checkedRender {lines : List Nat} (h : ∀ line ∈ lines, line < l.size) :
    lines.mapM l.checkedRender = some (lines.map fun line => s!"{line}: {l.renderLine line}") := by
  induction lines with
  | nil => rfl
  | cons line lines ih =>
    rw [List.forall_mem_cons] at h
    rw [List.mapM_cons, Listing.checkedRender_eq h.1, ih h.2]
    rfl

theorem checkedHistory_eq (h : ∀ b ∈ m.live ++ m.retired, b.Grounded m.listing) (id : BranchId) :
    m.checkedHistory id = some (m.history id) := by
  unfold checkedHistory history
  cases hb : m.branch? id with
  | none => rfl
  | some b =>
    have hlines : ∀ line ∈ b.trace.reverse, line < m.listing.size := fun line hline =>
      (h b (mem_of_branch? hb)).trace line (List.mem_reverse.1 hline)
    dsimp only
    rw [mapM_checkedRender hlines, Option.map_some]

end Views

/-- Every access of a reachable machine is within its bounds. The machines that commands lead to are
reachable. -/
theorem accesses_within (l : Listing) (catalog : Catalog) (config : Config) :
    (∀ commands, Reachable l catalog config ((start l catalog config).performAll commands)) ∧
    ∀ m, Reachable l catalog config m →
      (∀ b ∈ m.live, l.checkedFetch? b.pc = some (l.fetch? b.pc) ∧
        ∀ pc op, l.fetch? b.pc = some (pc, op) →
          op.checked l catalog pc ⟨b.thread, m.scratch⟩ =
            some ((op.exec l catalog pc).run ⟨b.thread, m.scratch⟩)) ∧
      ∀ id, m.checkedName? id = some (m.branchName? id) ∧
        m.checkedHistory id = some (m.history id) := by
  refine ⟨reachable_performAll l catalog config, fun m h => ?_⟩
  have hgrounded := h.grounded
  refine ⟨fun b hb => ⟨l.checkedFetch?_eq b.pc, fun pc op _ => ?_⟩, fun id => ?_⟩
  · exact op.checked_agrees l catalog pc (hgrounded b (List.mem_append_left _ hb)).supplied
  · rw [← h.runs.listing] at hgrounded
    exact ⟨checkedName?_eq hgrounded id, checkedHistory_eq hgrounded id⟩

/-- A subroutine that reads its only argument. -/
def readArgument : Listing :=
  { ops := [.int .pseudo 7, .callsub 0, .label 0, .proto 1 1, .frameDig (-1), .retsub]
    labels := .ofList ["read"] }

/-- The argument is the value at the bottom of the stack, where the frame starts. -/
theorem accesses_within_frame :
    let m := (start readArgument .standard {}).performAll [.step, .step, .step]
    ∃ b ∈ m.live, b.thread.frames = [⟨2, 1, 1, 1, true⟩] ∧
      readArgument.fetch? b.pc = some (4, .frameDig (-1)) ∧
      (∃ s, (Op.frameDig (-1)).checked readArgument .standard 4 ⟨b.thread, m.scratch⟩ =
        some (.ok (.goto 5) s) ∧ s.thread.stack.map Cell.value = [.uint 7, .uint 7]) ∧
      m.checkedHistory 0 = some (.ok ["0: int 7", "1: callsub read", "3: proto 1 1"]) := by
  intro m
  let b := m.live.get ⟨0, by decide +kernel⟩
  obtain ⟨hreachable, hwithin⟩ := accesses_within readArgument .standard {}
  obtain ⟨haccess, hviews⟩ := hwithin m (hreachable [.step, .step, .step])
  have hfetch : readArgument.fetch? b.pc = some (4, .frameDig (-1)) := by decide +kernel
  refine ⟨b, List.get_mem _ _, by decide +kernel, hfetch, ?_, ?_⟩
  · have hchecked := (haccess b (List.get_mem _ _)).2 4 _ hfetch
    rw [hchecked]
    exact ⟨_, rfl, by decide +kernel⟩
  · rw [(hviews 0).2]
    decide +kernel

end Machine

end Teal
