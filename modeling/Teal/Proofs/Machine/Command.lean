import Teal.Proofs.Machine
/-!
# Commands to a machine

A `Command` is anything that can be asked of a machine. A machine that starts valid stays so under
any commands in any order, a refused command changes nothing, and `switch` tells a branch that has
stopped from one that never was.
-/

namespace Teal

namespace Machine

/-- What can be asked of a machine. -/
inductive Command where
  /-- Give the current branch one turn. -/
  | step
  /-- Run all branches to the next breakpoint. -/
  | run
  /-- Copy the current branch. -/
  | fork
  /-- Make another branch the current one. -/
  | switch (id : BranchId)
  /-- Replace the breakpoints. -/
  | setBreakpoints (lines : LineSet)
deriving DecidableEq

/-- Why a command was refused. -/
def refusal? {α : Type} : Except MachineError α → Option MachineError
  | .ok _ => none
  | .error e => some e

/-- Carries out a command; if it is refused, tells why. -/
def perform (m : Machine) : Command → Machine × Option MachineError
  | .step => (m.step.1, refusal? m.step.2)
  | .run => (m.run.1, none)
  | .fork => (m.fork.1, refusal? m.fork.2)
  | .switch id => ((m.switch id).1, refusal? (m.switch id).2)
  | .setBreakpoints lines => (m.setBreakpoints lines, none)

/-- Carries out commands one after the other. -/
def performAll (m : Machine) (commands : List Command) : Machine :=
  commands.foldl (fun m c => (m.perform c).1) m

variable {m : Machine}

/-- Between commands the current branch is the one that commands act on. -/
theorem Valid.current_of_focus? (hm : m.Valid) {i : Fin m.live.length} (h : m.focus? = some i) :
    m.current = some (m.live.get i).id := by
  obtain ⟨b, hb, hcur⟩ := hm.current (List.ne_nil_of_mem (List.get_mem m.live i))
  cases hi : m.indexOf? b.id with
  | none =>
    have hall := List.findFinIdx?_eq_none_iff.1 hi b hb
    simp at hall
  | some j =>
    simp only [focus?, hcur, Option.bind_some, hi, Option.some.injEq] at h
    rw [hcur, ← id_of_indexOf? hi, h]

theorem live_of_focus?_none (h : m.focus? = none) : m.live = [] := by
  unfold focus? at h
  split at h
  · cases h
  · split at h
    · cases h
    · rename_i hlive
      exact List.length_eq_zero_iff.1 (Nat.eq_zero_of_not_pos hlive)

/-! ## What a command can do -/

theorem step_cases (m : Machine) :
    (m.live = [] ∧ m.step = (m, .error .noLiveBranches)) ∨
      ∃ i current, m.focus? = some i ∧
        m.step = ({ (m.stepAt i).1 with current }, .ok (m.stepAt i).2) := by
  unfold step
  cases h : m.focus? with
  | none => exact .inl ⟨live_of_focus?_none h, rfl⟩
  | some i => exact .inr ⟨i, _, rfl, rfl⟩

/-- The machine with a copy of the branch at a place. -/
def copy (m : Machine) (i : Fin m.live.length) : Machine :=
  { m with
    live := m.live ++ [(m.live.get i).child m.nextId (m.live.get i).pc]
    nextId := m.nextId + 1 }

theorem fork_cases (m : Machine) :
    (m.live = [] ∧ m.fork = (m, .error .noLiveBranches)) ∨
      ∃ i, m.focus? = some i ∧
        ((m.nextId < m.config.maxBranches ∧
          m.fork = ({ m.copy i with current := some (m.live.get i).id }, .ok m.nextId)) ∨
        m.fork = ({ m with current := some (m.live.get i).id },
          .error (.branchLimit m.config.maxBranches))) := by
  unfold fork
  cases h : m.focus? with
  | none => exact .inl ⟨live_of_focus?_none h, rfl⟩
  | some i =>
    refine .inr ⟨i, rfl, ?_⟩
    by_cases hroom : m.nextId < m.config.maxBranches
    · exact .inl ⟨hroom, if_pos hroom⟩
    · exact .inr (if_neg hroom)

theorem switch_answers (m : Machine) (id : BranchId) :
    (m.live ≠ [] ∧ m.switch id = ({ m with current := some id }, .ok ())) ∨
      ∃ e, m.switch id = (m, .error e) := by
  unfold switch
  split
  · rename_i hlive
    obtain ⟨b, hb, -⟩ := List.any_eq_true.1 hlive
    exact .inl ⟨List.ne_nil_of_mem hb, rfl⟩
  · split <;> exact .inr ⟨_, rfl⟩

theorem switch_cases (m : Machine) (id : BranchId) :
    ∃ current, (m.switch id).1 = { m with current } := by
  rcases m.switch_answers id with ⟨-, h⟩ | ⟨e, h⟩
  · exact ⟨some id, by rw [h]⟩
  · exact ⟨m.current, by rw [h]⟩

/-! ## Validity -/

theorem step_leads (hm : m.Valid) : Leads m m.step.1 ∧ m.step.1.Valid := by
  unfold step
  split
  · exact ⟨.refl hm.toConsistent, hm⟩
  · rename_i i _
    have hstep := stepAt_leads hm.toConsistent i
    have hlive := live_of_stepAt hm.toConsistent i
    generalize m.stepAt i = r at hstep hlive
    obtain ⟨next, report⟩ := r
    dsimp only at hstep hlive ⊢
    have hnext := hstep.consistent.focus
      (if report.halted.isSome then next.live.head?.map (·.id) else some report.branch) next.paused
    -- The branch that had its turn stays current if it is still live. Otherwise the first live
    -- branch is the next one, and none if there is none.
    refine ⟨⟨hstep.listing, hstep.config, hstep.retired, hnext⟩, { hnext with
      current := fun hne => ?_
      finished := fun hnil => ?_ }⟩
    · cases hh : report.halted with
      | none =>
        obtain ⟨b, hb, hid⟩ := hlive hh
        exact ⟨b, hb, by simp [hid]⟩
      | some h =>
        obtain ⟨b, rest, hcons⟩ := List.exists_cons_of_ne_nil hne
        dsimp only at hcons
        exact ⟨b, by simp [hcons], by simp [hcons]⟩
    · dsimp only at hnil
      cases hh : report.halted with
      | none =>
        obtain ⟨b, hb, -⟩ := hlive hh
        simp [hnil] at hb
      | some h => simp [hnil]

/-- Copying a branch changes no other. -/
theorem copy_change (hm : m.Consistent) (i : Fin m.live.length)
    (hroom : m.nextId < m.config.maxBranches) (current : Option BranchId) :
    Change m { m.copy i with current } m.live []
      [(m.live.get i).child m.nextId (m.live.get i).pc] where
  listing := rfl
  config := rfl
  live := rfl
  retired := (List.append_nil _).symm
  nextId := rfl
  ids := by rw [List.append_nil]
  order := List.Sublist.refl _
  numbers := rfl
  room := Nat.le_trans hroom (Nat.le_max_right _ _)
  alive := by
    intro b hb
    rcases List.mem_append.1 hb with hb | hb
    · exact hm.live b hb
    · cases List.mem_singleton.1 hb
      have halive := hm.live _ (List.get_mem m.live i)
      exact ⟨halive.running, Branch.line?_child halive.inside _ _, halive.pc, halive.calls⟩
  done := nofun
  descends := by
    intro b hb
    rw [List.append_nil] at hb
    rcases List.mem_append.1 hb with hb | hb
    · exact hm.descends b (List.mem_append_left _ hb)
    · cases List.mem_singleton.1 hb
      exact descends_child _ (hm.id_lt (List.mem_append_left _ (List.get_mem m.live i)))

theorem fork_leads (hm : m.Valid) : Leads m m.fork.1 ∧ m.fork.1.Valid := by
  unfold fork
  split
  · exact ⟨.refl hm.toConsistent, hm⟩
  · rename_i i hi
    have hmem := List.get_mem m.live i
    have hcur := hm.current_of_focus? hi
    dsimp only
    split
    · rename_i hroom
      have hchange := copy_change hm.toConsistent i hroom (some (m.live.get i).id)
      have hleads := hchange.leads hm.toConsistent
      exact ⟨hleads, { hleads.consistent with
        current := fun _ => ⟨_, List.mem_append_left _ hmem, rfl⟩
        finished := fun hnil => absurd hnil (List.ne_nil_of_mem (List.mem_append_left _ hmem)) }⟩
    · -- No room for another branch. The focus is written back, but it was the current branch.
      rw [← hcur]
      exact ⟨.refl hm.toConsistent, hm⟩

theorem switch_leads (hm : m.Valid) (id : BranchId) :
    Leads m (m.switch id).1 ∧ (m.switch id).1.Valid := by
  unfold switch
  split
  · rename_i hlive
    obtain ⟨b, hb, hid⟩ := List.any_eq_true.1 hlive
    have hm' := hm.toConsistent.focus (some id) m.paused
    exact ⟨⟨rfl, rfl, List.prefix_rfl, hm'⟩, { hm' with
      current := fun _ => ⟨b, hb, by rw [eq_of_beq hid]⟩
      finished := fun hnil => absurd hnil (List.ne_nil_of_mem hb) }⟩
  · split <;> exact ⟨.refl hm.toConsistent, hm⟩

/-- One command. -/
theorem perform_leads (hm : m.Valid) (c : Command) :
    Leads m (m.perform c).1 ∧ (m.perform c).1.Valid := by
  cases c with
  | step => exact step_leads hm
  | run => exact run_leads hm.toConsistent
  | fork => exact fork_leads hm
  | switch id => exact switch_leads hm id
  | setBreakpoints lines =>
    exact ⟨⟨rfl, rfl, List.prefix_rfl, { hm with }⟩, { hm with }⟩

/-- Any commands in any order. -/
theorem performAll_leads (hm : m.Valid) (commands : List Command) :
    Leads m (m.performAll commands) ∧ (m.performAll commands).Valid := by
  induction commands generalizing m with
  | nil => exact ⟨.refl hm.toConsistent, hm⟩
  | cons c rest ih =>
    obtain ⟨hleads, hvalid⟩ := perform_leads hm c
    obtain ⟨hrest, hvalid'⟩ := ih hvalid
    exact ⟨hleads.trans hrest, hvalid'⟩

/-! ## Refused commands -/

/-- A refused command changes nothing. -/
theorem perform_refused (hm : m.Valid) {c : Command} {e : MachineError}
    (h : (m.perform c).2 = some e) : (m.perform c).1 = m := by
  cases c with
  | run | setBreakpoints => cases h
  | step =>
    revert h
    simp only [perform, step]
    split
    · exact fun _ => rfl
    · exact nofun
  | fork =>
    revert h
    simp only [perform, fork]
    split
    · exact fun _ => rfl
    · rename_i i hi
      split
      · exact nofun
      · intro _
        rw [← hm.current_of_focus? hi]
  | switch id =>
    revert h
    simp only [perform, switch]
    split
    · exact nofun
    · split <;> exact fun _ => rfl

theorem not_live_of_retired (hm : m.Consistent) {b c : Branch} (hb : b ∈ m.live)
    (hc : c ∈ m.retired) : b.id ≠ c.id := by
  have hnodup : ((m.live ++ m.retired).map Branch.id).Nodup :=
    hm.ids.nodup_iff.2 List.nodup_range
  rw [List.map_append, List.nodup_append] at hnodup
  exact hnodup.2.2 _ (List.mem_map_of_mem hb) _ (List.mem_map_of_mem hc)

/-- `switch` refuses a branch as stopped if it is retired. -/
theorem switch_notRunning (hm : m.Consistent) (id : BranchId) :
    (m.switch id).2 = .error (.notRunning id) ↔ ∃ b ∈ m.retired, b.id = id := by
  unfold switch
  split
  · rename_i hlive
    obtain ⟨b, hb, hid⟩ := List.any_eq_true.1 hlive
    refine ⟨nofun, ?_⟩
    rintro ⟨c, hc, rfl⟩
    exact absurd (eq_of_beq hid) (not_live_of_retired hm hb hc)
  · split
    · rename_i hretired
      obtain ⟨c, hc, hid⟩ := List.any_eq_true.1 hretired
      exact ⟨fun _ => ⟨c, hc, eq_of_beq hid⟩, fun _ => rfl⟩
    · rename_i hretired
      refine ⟨nofun, ?_⟩
      rintro ⟨c, hc, rfl⟩
      exact absurd (List.any_eq_true.2 ⟨c, hc, beq_self_eq_true c.id⟩) hretired

/-- `switch` refuses a number as unknown if no branch has got it yet. -/
theorem switch_unknownBranch (hm : m.Consistent) (id : BranchId) :
    (m.switch id).2 = .error (.unknownBranch id) ↔ m.nextId ≤ id := by
  have hmem : id < m.nextId ↔ ∃ b ∈ m.live ++ m.retired, b.id = id := by
    rw [← List.mem_range, ← hm.ids.mem_iff, List.mem_map]
  unfold switch
  split
  · rename_i hlive
    obtain ⟨b, hb, hid⟩ := List.any_eq_true.1 hlive
    have hlt := hmem.2 ⟨b, List.mem_append_left _ hb, eq_of_beq hid⟩
    exact ⟨nofun, fun hle => absurd hlt (Nat.not_lt.2 hle)⟩
  · rename_i hlive
    split
    · rename_i hretired
      obtain ⟨c, hc, hid⟩ := List.any_eq_true.1 hretired
      have hlt := hmem.2 ⟨c, List.mem_append_right _ hc, eq_of_beq hid⟩
      exact ⟨nofun, fun hle => absurd hlt (Nat.not_lt.2 hle)⟩
    · rename_i hretired
      refine ⟨fun _ => Nat.not_lt.1 fun hlt => ?_, fun _ => rfl⟩
      obtain ⟨b, hb, rfl⟩ := hmem.1 hlt
      rcases List.mem_append.1 hb with hb | hb
      · exact hlive (List.any_eq_true.2 ⟨b, hb, beq_self_eq_true b.id⟩)
      · exact hretired (List.any_eq_true.2 ⟨b, hb, beq_self_eq_true b.id⟩)

/-- Whatever commands a machine has carried out since its start, it is valid, the next command only
appends to the retired branches and changes nothing if it is refused, and `switch` refuses retired
branches and numbers that no branch has, and nothing else. -/
theorem performAll_sound (l : Listing) (catalog : Catalog) (config : Config)
    (commands : List Command) :
    let m := (start l catalog config).performAll commands
    (m.listing = l ∧ m.config = config ∧ m.Valid ∧ m.scratch.slots.toList.length = 256) ∧
      (∀ c, m.retired <+: (m.perform c).1.retired) ∧
      (∀ c e, (m.perform c).2 = some e → (m.perform c).1 = m) ∧
      ∀ id, ((m.switch id).2 = .error (.notRunning id) ↔ ∃ b ∈ m.retired, b.id = id) ∧
        ((m.switch id).2 = .error (.unknownBranch id) ↔ m.nextId ≤ id) := by
  intro m
  obtain ⟨hleads, hvalid⟩ := performAll_leads (start_valid l catalog config) commands
  refine ⟨⟨hleads.listing, hleads.config, hvalid, Vector.length_toList⟩, ?_, ?_, ?_⟩
  · intro c
    exact (perform_leads hvalid c).1.retired
  · intro c e h
    exact perform_refused hvalid h
  · intro id
    exact ⟨switch_notRunning hvalid.toConsistent id, switch_unknownBranch hvalid.toConsistent id⟩

end Machine

end Teal
