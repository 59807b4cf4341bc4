import Teal.Proofs.Machine.Command
import Teal.Proofs.Scratch
/-!
# Branches do not disturb each other

A turn changes its branch, may append copies of it to the list that holds it, and may then take it
out of that list. `Machine.Isolates` says what this leaves of the machine: the other branches as
they were, the branch itself after its instruction, and copies of that. `isolates_of_split` proves
it from the place of the branch among the live ones, for a turn that goes on, one that stops, and a
`fork`.
-/

namespace Teal

/-- The branch right after the line it executed has changed its stack and frames and has been paid
for and recorded. A branch that executed none is as it was. -/
def Branch.Executes (l : Listing) (catalog : Catalog) (traced : Bool) (scratch : Scratch)
    (b after : Branch) : Option Nat → Prop
  | none => after = b
  | some pc => ∃ op next, l.fetch? b.pc = some (pc, op) ∧
      after = { b.charge catalog traced pc op
        ((op.exec l catalog pc).stateAfter ⟨b.thread, scratch⟩).thread with pc := next }

theorem Branch.turn_executes (l : Listing) (catalog : Catalog) (traced : Bool) (scratch : Scratch)
    (b : Branch) :
    let t := b.turn l catalog traced scratch
    b.Executes l catalog traced scratch t.branch t.executed := by
  unfold Branch.turn
  split
  · rfl
  · split
    · rfl
    · rename_i pc op hf
      -- After a fault or a verdict the branch stays at the line, else it goes on at another.
      split
      · rename_i fault s hs
        refine ⟨op, pc, hf, ?_⟩
        rw [Exec.stateAfter, hs]
        rfl
      · rename_i approved s hs
        refine ⟨op, pc, hf, ?_⟩
        rw [Exec.stateAfter, hs]
        rfl
      · rename_i next s hs
        refine ⟨op, next, hf, ?_⟩
        rw [Exec.stateAfter, hs]
        rfl
      · rename_i next others s hs
        refine ⟨op, next, hf, ?_⟩
        rw [Exec.stateAfter, hs]
        rfl

namespace Machine

/-- What became of the branches of `m` when something was done to `b`. -/
structure Isolates (m m' : Machine) (b after : Branch) (halted : Option Halt)
    (forked : List Branch) : Prop where
  /-- The other live branches are as they were, and the new ones follow them. -/
  live : m'.live.filter (·.id != b.id) = m.live.filter (·.id != b.id) ++ forked
  /-- The retired branches are as they were. -/
  retired : m'.retired.filter (·.id != b.id) = m.retired
  /-- The branch itself is there once. -/
  self : (m'.live ++ m'.retired).filter (·.id == b.id) = [after.settle halted]
  id : after.id = b.id
  parent : after.parent = b.parent
  running : after.halt = none
  /-- A new branch differs from it by number, parent and line only. -/
  created : ∀ c ∈ forked, m.nextId ≤ c.id ∧ c = after.child c.id c.pc

variable {m m' : Machine}

theorem isolates_of_split (hm : m.Consistent) (mid stopped : List Branch)
    {before later forked : List Branch} {b after : Branch} {halted : Option Halt}
    (hlive : m.live = before ++ b :: later)
    (hlive' : m'.live = before ++ mid ++ later ++ forked)
    (hretired' : m'.retired = m.retired ++ stopped)
    (hself : mid ++ stopped = [after.settle halted])
    (hid : after.id = b.id) (hparent : after.parent = b.parent) (hrunning : after.halt = none)
    (hcreated : ∀ c ∈ forked, m.nextId ≤ c.id ∧ c = after.child c.id c.pc) :
    m.Isolates m' b after halted forked := by
  have hnodup : ((m.live ++ m.retired).map Branch.id).Nodup := hm.ids.nodup_iff.2 List.nodup_range
  -- Every branch but `b` has another number, and what `b` has become has the same.
  have hother : ∀ c ∈ before ++ later ++ m.retired ++ forked, c.id ≠ b.id := by
    intro c hc
    rcases List.mem_append.1 hc with hc | hc
    · rw [hlive] at hnodup
      simp only [List.map_append, List.map_cons, List.nodup_append, List.nodup_cons,
        List.mem_append, List.mem_cons, List.mem_map] at hnodup hc
      grind
    · have hb : b ∈ m.live ++ m.retired := by simp [hlive]
      exact Nat.ne_of_gt (Nat.lt_of_lt_of_le (hm.id_lt hb) (hcreated c hc).1)
  have hsame : ∀ c ∈ mid ++ stopped, c.id = b.id := by
    intro c hc
    rw [hself] at hc
    cases List.mem_singleton.1 hc
    exact hid
  have hkeep : ∀ cs : List Branch, (∀ c ∈ cs, c.id ≠ b.id) →
      cs.filter (·.id != b.id) = cs ∧ cs.filter (·.id == b.id) = [] := by
    intro cs hcs
    constructor
    · exact List.filter_eq_self.2 (by simpa using hcs)
    · exact List.filter_eq_nil_iff.2 (by simpa using hcs)
  have hdrop : ∀ cs : List Branch, (∀ c ∈ cs, c.id = b.id) →
      cs.filter (·.id != b.id) = [] ∧ cs.filter (·.id == b.id) = cs := by
    intro cs hcs
    constructor
    · exact List.filter_eq_nil_iff.2 (by simpa using hcs)
    · exact List.filter_eq_self.2 (by simpa using hcs)
  simp only [List.forall_mem_append] at hother hsame
  obtain ⟨⟨⟨hbefore, hlater⟩, hretired⟩, hforked⟩ := hother
  obtain ⟨hmid, hstopped⟩ := hsame
  refine ⟨?_, ?_, ?_, hid, hparent, hrunning, hcreated⟩
  · rw [hlive, hlive']
    simp [List.filter_append, (hkeep _ hbefore).1, (hkeep _ hlater).1, (hkeep _ hforked).1,
      (hdrop _ hmid).1]
  · rw [hretired']
    simp [List.filter_append, (hkeep _ hretired).1, (hdrop _ hstopped).1]
  · rw [hlive', hretired']
    simp [List.filter_append, (hkeep _ hbefore).2, (hkeep _ hlater).2, (hkeep _ hforked).2,
      (hkeep _ hretired).2, (hdrop _ hmid).2, (hdrop _ hstopped).2, hself]

/-- A turn. -/
theorem stepAt_isolates (hm : m.Consistent) (i : Fin m.live.length) :
    let t := (m.live.get i).turn m.listing m.catalog m.config.trace m.scratch
    m.Isolates (m.stepAt i).1 (m.live.get i) t.branch t.halt (m.children t.branch t.others) := by
  have halive := hm.live _ (List.get_mem m.live i)
  have ht := Branch.turn_follows halive.calls m.catalog m.config.trace m.scratch
  intro t
  have hsplit : m.live = m.live.take i ++ m.live.get i :: m.live.drop (i + 1) := by simp
  have hcreated : ∀ c ∈ m.children t.branch t.others,
      m.nextId ≤ c.id ∧ c = t.branch.child c.id c.pc := by
    intro c hc
    obtain ⟨id, pc, rfl, hle, -⟩ := mem_children hc
    exact ⟨hle, rfl⟩
  have hrunning : t.branch.halt = none := ht.running.trans halive.running
  cases hh : t.halt with
  | none =>
    refine isolates_of_split hm [t.branch] [] hsplit ?_ ?_ ?_ ht.id ht.parent
      hrunning hcreated
    · simp only [stepAt, t, hh, List.set_eq_take_append_cons_drop]
      simp
    · simp only [stepAt, t, hh]
    · rw [Branch.settle_none hrunning]
      rfl
  | some halt =>
    refine isolates_of_split hm [] [t.branch.retire halt] hsplit
      ?_ ?_ rfl ht.id ht.parent hrunning hcreated
    · simp only [stepAt, t, hh, List.eraseIdx_eq_take_drop_succ]
      simp
    · simp only [stepAt, t, hh]

/-- A turn changes shared scratch space at most where its instruction addresses it. -/
theorem stepAt_scratch (m : Machine) (i : Fin m.live.length) {slot : Nat}
    (h : (m.stepAt i).1.scratch.get? slot ≠ m.scratch.get? slot) :
    ∃ pc op, (m.stepAt i).2.executed = some pc ∧
      m.listing.fetch? (m.live.get i).pc = some (pc, op) ∧
      op.slot? (m.live.get i).thread.stack = some slot := by
  have hw := (m.live.get i).turn_writtenAt m.listing m.catalog m.config.trace m.scratch
  rcases hw with hw | ⟨pc, op, slot', c, hexec, hf, hslot, hset⟩
  · simp only [stepAt] at h
    rw [hw] at h
    exact absurd rfl h
  · refine ⟨pc, op, hexec, hf, ?_⟩
    by_cases heq : slot = slot'
    · rw [heq]
      exact hslot
    · exact absurd (Scratch.get?_set?_ne hset heq) h

/-! ## Commands -/

/-- A step gives `b` its turn, and changes scratch space at most where the instruction it executes
addresses it. -/
def StepIsolates (m : Machine) (b : Branch) : Prop :=
  ∃ report after forked, m.step.2 = .ok report ∧ report.branch = b.id ∧
    report.forked = forked.map Branch.id ∧
    m.Isolates m.step.1 b after report.halted forked ∧
    b.Executes m.listing m.catalog m.config.trace m.scratch after report.executed ∧
    ∀ slot, m.step.1.scratch.get? slot ≠ m.scratch.get? slot →
      ∃ pc op, report.executed = some pc ∧ m.listing.fetch? b.pc = some (pc, op) ∧
        op.slot? b.thread.stack = some slot

/-- A fork copies `b` if there is room, and does nothing else. -/
def ForkIsolates (m : Machine) (b : Branch) : Prop :=
  ∃ forked, m.fork.2.toOption.toList = forked.map Branch.id ∧
    m.Isolates m.fork.1 b b none forked ∧ (∀ c ∈ forked, c.pc = b.pc) ∧
    m.fork.1.scratch = m.scratch

theorem step_isolates (hm : m.Consistent) {i : Fin m.live.length} {current : Option BranchId}
    (h : m.step = ({ (m.stepAt i).1 with current }, .ok (m.stepAt i).2)) :
    m.StepIsolates (m.live.get i) := by
  have hi := stepAt_isolates hm i
  unfold StepIsolates
  rw [h]
  refine ⟨(m.stepAt i).2, _, _, rfl, rfl, rfl, ?_, Branch.turn_executes _ _ _ _ _,
    fun _ => m.stepAt_scratch i⟩
  exact ⟨hi.live, hi.retired, hi.self, hi.id, hi.parent, hi.running, hi.created⟩

theorem fork_isolates (hm : m.Consistent) {i : Fin m.live.length}
    (h : (m.nextId < m.config.maxBranches ∧
        m.fork = ({ m.copy i with current := some (m.live.get i).id }, .ok m.nextId)) ∨
      m.fork = ({ m with current := some (m.live.get i).id },
        .error (.branchLimit m.config.maxBranches))) :
    m.ForkIsolates (m.live.get i) := by
  have hrunning := (hm.live _ (List.get_mem m.live i)).running
  have hsplit : m.live = m.live.take i ++ m.live.get i :: m.live.drop (i + 1) := by simp
  have hself : [m.live.get i] ++ [] = [(m.live.get i).settle none] := by
    rw [Branch.settle_none hrunning]
    rfl
  unfold ForkIsolates
  rcases h with ⟨-, h⟩ | h <;> rw [h]
  · refine ⟨[(m.live.get i).child m.nextId (m.live.get i).pc], rfl, ?_, ?_, rfl⟩
    · refine isolates_of_split hm [m.live.get i] [] hsplit ?_ ?_ hself rfl rfl hrunning ?_
      · simp [copy]
      · simp [copy]
      · intro c hc
        cases List.mem_singleton.1 hc
        exact ⟨Nat.le_refl _, rfl⟩
    · intro c hc
      cases List.mem_singleton.1 hc
      rfl
  · refine ⟨[], rfl, ?_, nofun, rfl⟩
    refine isolates_of_split hm [m.live.get i] [] hsplit ?_ ?_ hself rfl rfl hrunning nofun
    · simp
    · simp

/-- Whatever commands a machine has carried out, `step` and `fork` act on one live branch, if there
is any, and leave all others as they are. -/
theorem branches_isolated (l : Listing) (catalog : Catalog) (config : Config)
    (commands : List Command) :
    let m := (start l catalog config).performAll commands
    (m.live = [] ∧ m.step.1 = m ∧ m.fork.1 = m) ∨
      ∃ b ∈ m.live, m.current = some b.id ∧ m.StepIsolates b ∧ m.ForkIsolates b := by
  intro m
  obtain ⟨-, hvalid⟩ := performAll_leads (start_valid l catalog config) commands
  rcases m.step_cases with ⟨hlive, hstep⟩ | ⟨i, current, hfocus, hstep⟩
  · rcases m.fork_cases with ⟨-, hfork⟩ | ⟨i, -, -⟩
    · exact .inl ⟨hlive, by rw [hstep], by rw [hfork]⟩
    · exact absurd hlive (List.ne_nil_of_mem (List.get_mem m.live i))
  · rcases m.fork_cases with ⟨hlive, -⟩ | ⟨j, hfocus', hfork⟩
    · exact absurd hlive (List.ne_nil_of_mem (List.get_mem m.live i))
    · cases Option.some.inj (hfocus.symm.trans hfocus')
      exact .inr ⟨m.live.get i, List.get_mem m.live i, hvalid.current_of_focus? hfocus,
        step_isolates hvalid.toConsistent hstep, fork_isolates hvalid.toConsistent hfork⟩

end Machine

end Teal
