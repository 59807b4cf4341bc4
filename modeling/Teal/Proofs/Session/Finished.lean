import Teal.Proofs.Machine.Reachable
import Teal.Proofs.Session.Stepping
/-!
# When a session tells that it is finished

A run tells so when no branch is left. `pause` and the stepping commands ask where the current
branch stands, and take a branch that has no line left for the end of the session:
`Machine.AtEnd`. That branch is live until it has one more turn, and others may be so for long:
`finished_while_running`.

Control has no line left only where it has run off the listing. An `Enclosed` listing has an
instruction wherever control may go on, so there all commands mean by it that no branch is left.
-/

namespace Teal

/-! ## Listings that control does not leave -/

namespace Listing

/-- Control at a line comes to an instruction. -/
def Continues (l : Listing) (i : Nat) : Prop :=
  (l.nextExecutable i).isSome = true

instance (l : Listing) (i : Nat) : Decidable (l.Continues i) :=
  inferInstanceAs (Decidable (_ = true))

/-- There is an instruction to come to at the start, after every instruction that control may fall
through, and at every label that is referred to. -/
def Enclosed (l : Listing) : Prop :=
  l.Continues 0 ∧ ∀ x ∈ l.ops.zipIdx,
    (x.1.isExecutable = true → x.1.endsFlow = false → l.Continues (x.2 + 1)) ∧
      ∀ id ∈ x.1.targets, ∀ i ∈ l.target? id, l.Continues i

instance (l : Listing) : Decidable l.Enclosed :=
  inferInstanceAs (Decidable (_ ∧ ∀ x ∈ l.ops.zipIdx, _))

variable {l : Listing}

theorem executable_of_fetch? {i pc : Nat} {op : Op LabelId} (h : l.fetch? i = some (pc, op)) :
    op.isExecutable = true := by
  rcases l.fetch?_cases i with ⟨-, hnone⟩ | ⟨pc', op', hahead, hsome, -⟩
  · cases hnone.symm.trans h
  · cases hsome.symm.trans h
    exact executable_of_ahead hahead

/-- Where a turn leaves control, and the calls that it leaves open. -/
theorem Enclosed.turn (hl : l.Enclosed) {b : Branch} (hcalls : b.thread.ReturnsTo l.Continues)
    (catalog : Catalog) (traced : Bool) (scratch : Scratch) :
    let t := b.turn l catalog traced scratch
    t.branch.thread.ReturnsTo l.Continues ∧ (t.halt = none → l.Continues t.branch.pc) ∧
      ∀ pc ∈ t.others, l.Continues pc := by
  unfold Branch.turn
  split
  · exact ⟨hcalls, nofun, nofun⟩
  · split
    · exact ⟨hcalls, nofun, nofun⟩
    · rename_i pc op hfetch
      have hop := getElem?_of_fetch? hfetch
      obtain ⟨hfalls, htargets⟩ := hl.2 (op, pc) (List.mem_zipIdx_iff_getElem?.2 hop)
      have hnext := hfalls (executable_of_fetch? hfetch)
      split
      · rename_i hs
        exact ⟨exec_error_along hnext htargets hcalls hs, nofun, nofun⟩
      · rename_i hs
        exact ⟨(exec_ok_along hnext htargets hcalls hs).2, nofun, nofun⟩
      · rename_i next s hs
        obtain ⟨hlines, hthread⟩ := exec_ok_along hnext htargets hcalls hs
        exact ⟨hthread, fun _ => hlines next List.mem_cons_self, nofun⟩
      · rename_i next others s hs
        obtain ⟨hlines, hthread⟩ := exec_ok_along hnext htargets hcalls hs
        refine ⟨hthread, fun _ => hlines next List.mem_cons_self, ?_⟩
        exact fun pc hpc => hlines pc (List.mem_cons_of_mem next hpc)

end Listing

namespace Machine

/-- The current branch is live and has no line left. -/
def AtEnd (m : Machine) : Prop :=
  ∃ b ∈ m.live, m.current = some b.id ∧ m.listing.nextExecutable b.pc = none

variable {m m' : Machine} {l : Listing} {catalog : Catalog} {config : Config}
  {reports : List Report} {stop : Option (BranchId × Nat)}

theorem Reachable.continues (h : Reachable l catalog config m) (hl : l.Enclosed) {b : Branch}
    (hb : b ∈ m.live) : l.Continues b.pc := by
  have hall : ∀ b ∈ m.live ++ m.retired,
      b.thread.ReturnsTo l.Continues ∧ (b.halt = none → l.Continues b.pc) := by
    refine h.branches ⟨nofun, fun _ => hl.1⟩ ?_ fun b id _ hb => hb
    intro b scratch hrun hb
    obtain ⟨hcalls, hself, hothers⟩ := hl.turn hb.1 catalog config.trace scratch
    exact ⟨⟨hcalls, hself⟩, fun id pc hpc => ⟨hcalls, fun _ => hothers pc hpc⟩⟩
  exact (hall b (List.mem_append_left _ hb)).2 (h.runs.live b hb)

/-- No branch runs off a listing that is enclosed. -/
theorem Reachable.not_atEnd (h : Reachable l catalog config m) (hl : l.Enclosed) : ¬m.AtEnd := by
  rintro ⟨b, hb, -, hnone⟩
  have hcontinues := h.continues hl hb
  rw [h.runs.listing] at hnone
  rw [Listing.Continues, hnone] at hcontinues
  cases hcontinues

theorem Proceeds.reachable (h : m.Proceeds reports m') (hm : Reachable l catalog config m) :
    Reachable l catalog config m' := by
  induction h with
  | refl => exact hm
  | turn i _ ih => exact ih (hm.act (.turn i))
  | copy i _ _ ih => exact ih (hm.act (.copy i))
  | @view m _ _ current breakpoints _ ih => exact ih (hm.act (.view current m.paused breakpoints))

theorem Effect.reachable (h : m.Effect reports stop m') (hm : Reachable l catalog config m) :
    Reachable l catalog config m' := by
  cases h with
  | goes h => exact h.reachable hm
  | @stops m' id line _ h => exact (h.reachable hm).act (.view (some id) (some (id, line)) _)

/-! ## The end of a run, and of the current branch -/

theorem run_finished_iff (m : Machine) : m.run.2 = .finished ↔ m.run.1.live = [] := by
  obtain ⟨reports, hends⟩ := m.run_ends
  generalize m.run = r at hends ⊢
  cases hends with
  | finished _ hlive => exact iff_of_true rfl hlive
  | @stopped m' _ _ i =>
    exact iff_of_false nofun (List.ne_nil_of_mem (List.get_mem m'.live i))

theorem position?_eq_none_iff (hm : m.Valid) : m.position? = none ↔ m.live = [] ∨ m.AtEnd := by
  have hcurrent {b : Branch} (hb : b ∈ m.live) (hid : m.current = some b.id) :
      m.position? = none ↔ m.listing.nextExecutable b.pc = none := by
    rw [position?_of_current hm.toConsistent hb hid, Option.map_eq_none_iff]
  constructor
  · intro hnone
    by_cases hlive : m.live = []
    · exact .inl hlive
    · obtain ⟨b, hb, hid⟩ := hm.current hlive
      exact .inr ⟨b, hb, hid, (hcurrent hb hid).1 hnone⟩
  · rintro (hlive | ⟨b, hb, hid, hend⟩)
    · rw [position?, hm.finished hlive]
      rfl
    · exact (hcurrent hb hid).2 hend

end Machine

namespace Session

/-- Where a command tells to have left the session. -/
def told? (s : Session) : Request → Option Stop
  | .stepBy mode => (s.stepBy mode).2.toOption
  | .resume => some s.resume.2
  | .pause => some s.pause.2
  | .command _ | .adjust _ => none

variable {s : Session} {mode : StepMode}

theorem stepBy_of_told? {stop : Stop} (h : s.told? (.stepBy mode) = some stop) :
    s.stepBy mode = (s.answer (.stepBy mode), .ok stop) := by
  simp only [told?, answer] at h ⊢
  generalize s.stepBy mode = r at h ⊢
  obtain ⟨next, e | stop'⟩ := r <;> cases h
  rfl

theorem answerAll_reachable (l : Listing) (catalog : Catalog) (config : Machine.Config)
    (requests : List Request) : Machine.Reachable l catalog config
      ((start (.start l catalog config)).answerAll requests).machine := by
  induction requests using List.reverseRecOn with
  | nil => exact .start
  | append_singleton requests r ih =>
    obtain ⟨reports, hr⟩ := exists_makes _ r
    rw [answerAll_concat]
    exact hr.effect.reachable ih

theorem resume_finished_iff (s : Session) :
    s.resume.2 = .finished ↔ s.resume.1.machine.live = [] := by
  have hrun := (s.machine.setBreakpoints s.stepping.breakpoints).run_finished_iff
  simp only [resume]
  generalize (s.machine.setBreakpoints s.stepping.breakpoints).run = r at hrun ⊢
  obtain ⟨m, _ | ⟨id, line⟩⟩ := r
  · exact iff_of_true rfl (hrun.1 rfl)
  · exact iff_of_false (by simp) (mt hrun.2 (by simp))

theorem pause_finished_iff (hs : s.machine.Valid) :
    s.pause.2 = .finished ↔ s.machine.live = [] ∨ s.machine.AtEnd := by
  rw [← Machine.position?_eq_none_iff hs, pause]
  cases s.machine.position? with
  | none => exact iff_of_true rfl rfl
  | some p => exact iff_of_false (by simp) (by simp)

/-- A stepping command tells that the session is finished where the branch has run off the listing.
It is live then. -/
theorem atEnd_of_stepBy_finished (hs : s.machine.Valid) {next : Session}
    (h : s.stepBy mode = (next, .ok .finished)) : next.machine.AtEnd := by
  rcases stepBy_cases hs mode with ⟨-, hstep⟩ | ⟨b, -, -, next', stop, reports, hstep, hstepped⟩
  · rw [h] at hstep
    cases hstep
  · cases hstep.symm.trans h
    cases hstepped.ending with
    | finished hb hid hcurrent hend => exact ⟨_, hb, hid ▸ hcurrent, hend⟩

/-- However a session has come to a command that tells it is finished. After a run no branch is
left. For `pause` the current branch may have run off the listing instead, and after a stepping
command it always has. Where control does not run off the listing, no branch is left whichever
command tells so. -/
theorem finished_when (l : Listing) (catalog : Catalog) (config : Machine.Config)
    (requests : List Request) :
    let s := (start (.start l catalog config)).answerAll requests
    (s.resume.2 = .finished ↔ s.resume.1.machine.live = []) ∧
    (s.pause.2 = .finished ↔ s.machine.live = [] ∨ s.machine.AtEnd) ∧
    (∀ mode next, s.stepBy mode = (next, .ok .finished) → next.machine.AtEnd) ∧
    (l.Enclosed → ∀ r, s.told? r = some .finished → (s.answer r).machine.live = []) := by
  intro s
  have hs : s.machine.Valid := answerAll_valid (Machine.start_valid l catalog config) requests
  refine ⟨s.resume_finished_iff, pause_finished_iff hs, ?_, ?_⟩
  · intro mode next h
    exact atEnd_of_stepBy_finished hs h
  · intro hl r hr
    have hend : ¬(s.answer r).machine.AtEnd := by
      have hreachable := answerAll_reachable l catalog config (requests ++ [r])
      rw [answerAll_concat] at hreachable
      exact hreachable.not_atEnd hl
    cases r with
    | command | adjust => cases hr
    | resume => exact s.resume_finished_iff.1 (Option.some.inj hr)
    | pause =>
      rw [machine_pause] at hend ⊢
      exact ((pause_finished_iff hs).1 (Option.some.inj hr)).resolve_right hend
    | stepBy mode =>
      exact absurd (atEnd_of_stepBy_finished hs (stepBy_of_told? hr)) hend

/-- Both ways of a fork end with `return`, and a run comes to the end of both. -/
theorem finished_when_enclosed :
    let l : Listing :=
      { ops := [.instr "txn" ["Fee"], .branch .ifNonZero 0, .int .pseudo 1, .ret, .label 0,
          .int .pseudo 2, .ret] }
    let s := (start (.start l .standard {})).answerAll [.stepBy .into, .stepBy .into]
    l.Enclosed ∧ s.machine.live.length = 2 ∧ s.told? .resume = some .finished ∧
      (s.answer .resume).machine.live = [] := by
  intro l s
  have hl : l.Enclosed := by decide
  have hresume : s.told? .resume = some .finished := by decide +kernel
  exact ⟨hl, by decide +kernel, hresume,
    (finished_when l .standard {} [.stepBy .into, .stepBy .into]).2.2.2 hl .resume hresume⟩

/-- The branch 0 jumps to the end of the listing, and a stepping command tells that the session is
finished, as `pause` does then. Both branches are live, and the branch 1 has a line before it. -/
theorem finished_while_running :
    let l : Listing :=
      { ops := [.instr "txn" ["Fee"], .branch .ifNonZero 0, .branch .always 1, .label 0,
          .int .pseudo 2, .ret, .label 1] }
    let s := (start (.start l .standard {})).answerAll [.stepBy .into, .stepBy .into]
    let left := s.answer (.stepBy .into)
    s.told? (.stepBy .into) = some .finished ∧ left.told? .pause = some .finished ∧
      (left.machine.live.map fun b => (b.id, l.nextExecutable b.pc)) = [(0, none), (1, some 4)] ∧
      left.told? (.stepBy .into) = some (.halted 0 (.terminated none)) := by
  decide +kernel

end Session

end Teal
