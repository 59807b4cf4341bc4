import Mathlib.Algebra.BigOperators.Group.Multiset.Basic
import Mathlib.Tactic.Abel
import Teal.Catalog.Standard
import Teal.Proofs.Machine.Loop
import Teal.Proofs.Scratch
/-!
# The order of turns does not matter

Branches share nothing but scratch space. Where no line writes to it, what becomes of a branch is
settled by the branch alone: `Branch.endings` are the outcomes of the branch and of all branches
that come from it, if none is dropped. A turn takes one of them to the retired branches or leaves it
to the branches that go on, so their sum over a machine, `Machine.tally`, stays the same whatever
branch has its turn. At the end it is what the retired branches are.

It also tells how many branches there will be, so where one schedule finds room for all of them
every schedule does.
-/

namespace Teal

/-- What there is to see of a branch but for its number and its parent. -/
structure Outcome where
  halt : Option Halt
  line : Option Nat
  stack : List Cell
  frames : List Frame
  budget : Nat
  trace : List Nat
deriving DecidableEq

def Branch.outcome (b : Branch) : Outcome where
  halt := b.halt
  line := b.line?
  stack := b.thread.stack
  frames := b.thread.frames
  budget := b.budget
  trace := b.trace

/-- What a turn makes of its branch: its outcome if it stops, else what comes of it later. -/
def Turn.own (e : Branch → Multiset Outcome) (t : Turn) : Multiset Outcome :=
  match t.halt with
  | none => e t.branch
  | some halt => {(t.branch.retire halt).outcome}

theorem length_le_card_sum {α : Type} {xs : List α} {f : α → Multiset Outcome}
    (h : ∀ x ∈ xs, 0 < (f x).card) : xs.length ≤ (xs.map f).sum.card := by
  induction xs with
  | nil => exact Nat.zero_le _
  | cons x xs ih =>
    have hx := h x List.mem_cons_self
    have hxs := ih fun y hy => h y (List.mem_cons_of_mem x hy)
    rw [List.map_cons, List.sum_cons, Multiset.card_add, List.length_cons]
    omega

namespace Branch

section Endings
variable (l : Listing) (catalog : Catalog) (traced : Bool) (scratch : Scratch)

theorem turn_budget_lt_of_mem_others {b : Branch} {pc : Nat}
    (h : pc ∈ (b.turn l catalog traced scratch).others) :
    (b.turn l catalog traced scratch).branch.budget < b.budget := by
  revert h
  unfold turn
  split
  · exact nofun
  · rename_i hb
    split
    · exact nofun
    · rename_i pc' op _
      split
      · exact nofun
      · exact nofun
      · exact nofun
      · intro _
        exact Nat.sub_lt (Nat.pos_of_ne_zero hb) (catalog.cost_pos _)

/-- The outcomes of a branch and of all that come from it, with unchanging scratch space and room
for every fork. -/
def endings (b : Branch) : Multiset Outcome :=
  let t := b.turn l catalog traced scratch
  (match _h : t.halt with
    | none => t.branch.endings
    | some halt => {(t.branch.retire halt).outcome}) +
  (t.others.attach.map fun ⟨pc, _⟩ => ({ t.branch with pc } : Branch).endings).sum
termination_by b.budget
decreasing_by
  · exact (turn_budget_lt _h).2
  · exact turn_budget_lt_of_mem_others l catalog traced scratch ‹_›

theorem endings_eq (b : Branch) :
    b.endings l catalog traced scratch =
      (b.turn l catalog traced scratch).own (endings l catalog traced scratch) +
      ((b.turn l catalog traced scratch).others.map fun pc => endings l catalog traced scratch
        { (b.turn l catalog traced scratch).branch with pc }).sum := by
  rw [endings]
  simp only [List.map_attach_eq_pmap, List.pmap_eq_map]
  congr 1
  unfold Turn.own
  split <;> rename_i h <;> rw [h]

/-- What holds of a branch if it holds of those that its turn leaves holds of every branch, since a
turn spends budget. -/
theorem turn_induction {P : Branch → Prop}
    (step : ∀ b : Branch,
      ((b.turn l catalog traced scratch).halt = none →
        P (b.turn l catalog traced scratch).branch) →
      (∀ pc ∈ (b.turn l catalog traced scratch).others,
        P { (b.turn l catalog traced scratch).branch with pc }) → P b)
    (b : Branch) : P b := by
  induction hn : b.budget using Nat.strongRecOn generalizing b with
  | ind n ih =>
    refine step b (fun hh => ?_) (fun pc hpc => ?_)
    · exact ih _ (hn ▸ (turn_budget_lt hh).2) _ rfl
    · exact ih _ (hn ▸ turn_budget_lt_of_mem_others l catalog traced scratch hpc) _ rfl

/-- The branch under another number. -/
def renamed (b : Branch) (id : BranchId) (parent : Option BranchId) : Branch :=
  { b with id, parent }

/-- What a branch is called plays no part in its turn. -/
theorem turn_renamed (b : Branch) (id : BranchId) (parent : Option BranchId) :
    (b.renamed id parent).turn l catalog traced scratch =
      { b.turn l catalog traced scratch with
        branch := (b.turn l catalog traced scratch).branch.renamed id parent } := by
  unfold turn renamed
  dsimp only
  split
  · rfl
  · split
    · rfl
    · split <;> rfl

theorem endings_renamed (b : Branch) (id : BranchId) (parent : Option BranchId) :
    (b.renamed id parent).endings l catalog traced scratch =
      b.endings l catalog traced scratch := by
  induction b using turn_induction l catalog traced scratch with
  | step b hself hothers =>
    rw [endings_eq, endings_eq l catalog traced scratch b, turn_renamed]
    generalize b.turn l catalog traced scratch = t at hself hothers ⊢
    congr 1
    · unfold Turn.own
      cases hh : t.halt with
      | none => exact hself hh
      | some halt => rfl
    · exact congrArg List.sum (List.map_congr_left hothers)

/-- A branch ends, and so does each that it forks off. -/
theorem length_others_lt_card_endings (b : Branch) :
    (b.turn l catalog traced scratch).others.length <
      (b.endings l catalog traced scratch).card := by
  induction b using turn_induction l catalog traced scratch with
  | step b hself hothers =>
    rw [endings_eq, Multiset.card_add]
    generalize b.turn l catalog traced scratch = t at hself hothers ⊢
    have hown : 0 < (t.own (endings l catalog traced scratch)).card := by
      unfold Turn.own
      cases hh : t.halt with
      | none => exact Nat.zero_lt_of_lt (hself hh)
      | some halt => exact Nat.zero_lt_one
    have hforked := length_le_card_sum fun pc hpc => Nat.zero_lt_of_lt (hothers pc hpc)
    omega

end Endings

end Branch

namespace Machine

/-! ## What is still to come -/

/-- The outcomes of the branches that have stopped, in whatever order they did. -/
def outcomes (m : Machine) : Multiset Outcome :=
  m.retired.map Branch.outcome

/-- What comes of a branch of the machine. -/
def endings (m : Machine) : Branch → Multiset Outcome :=
  Branch.endings m.listing m.catalog m.config.trace m.scratch

/-- The outcomes of the branches that have stopped and those to come. -/
def tally (m : Machine) : Multiset Outcome :=
  m.outcomes + (m.live.map m.endings).sum

variable {m : Machine}

/-- With room for all of them, what comes of the branches that a turn forks off does not depend on
their numbers. -/
theorem sum_endings_children (b : Branch) {pcs : List Nat} (hroom : pcs.length ≤ m.room) :
    ((m.children b pcs).map m.endings).sum = (pcs.map fun pc => m.endings { b with pc }).sum := by
  have htake : pcs.take (m.config.maxBranches - m.nextId) = pcs := List.take_of_length_le hroom
  have hchild : m.endings ∘ (fun (pc, id) => b.child id pc) =
      (fun pc => m.endings { b with pc }) ∘ Prod.fst := by
    funext ⟨pc, id⟩
    exact Branch.endings_renamed _ _ _ _ { b with pc } id (some b.id)
  rw [children, htake, List.map_map, hchild, ← List.map_map, List.zipIdx_map_fst]

/-- In the sum over a machine a turn puts what it makes of the branch, and the branches that it forks
off, in the place of the branch. -/
theorem stepAt_sum (e : Branch → Multiset Outcome) (i : Fin m.live.length) :
    (m.stepAt i).1.outcomes + ((m.stepAt i).1.live.map e).sum =
      m.outcomes + ((m.turnAt i).own e +
        ((m.children (m.turnAt i).branch (m.turnAt i).others).map e).sum +
        ((m.live.eraseIdx i).map e).sum) := by
  simp only [outcomes, stepAt]
  unfold turnAt
  generalize (m.live.get i).turn m.listing m.catalog m.config.trace m.scratch = t
  cases hh : t.halt with
  | none =>
    have hset := ((List.set_perm_cons_eraseIdx i.isLt t.branch).map e).sum_eq
    have hown : t.own e = e t.branch := by rw [Turn.own, hh]
    rw [hown, List.append_nil, List.map_append, List.sum_append, hset, List.map_cons, List.sum_cons]
    abel
  | some halt =>
    have hown : t.own e = {(t.branch.retire halt).outcome} := by
      rw [Turn.own, hh]
    rw [hown, List.map_append, List.map_append, List.sum_append, ← Multiset.coe_add,
      List.map_singleton, Multiset.coe_singleton]
    abel

theorem sum_live (e : Branch → Multiset Outcome) (i : Fin m.live.length) :
    (m.live.map e).sum = e (m.live.get i) + ((m.live.eraseIdx i).map e).sum :=
  ((List.getElem_cons_eraseIdx_perm i.isLt).map e).sum_eq.symm

/-- A turn leaves the tally as it is, if there is room for the branches that it forks off. -/
theorem stepAt_tally (hquiet : m.listing.Quiet) (i : Fin m.live.length)
    (hroom : (m.turnAt i).others.length ≤ m.room) : (m.stepAt i).1.tally = m.tally := by
  have hscratch : (m.stepAt i).1.scratch = m.scratch :=
    Branch.turn_scratch hquiet m.catalog m.config.trace m.scratch (m.live.get i)
  have hendings : (m.stepAt i).1.endings = m.endings := by
    unfold endings
    rw [hscratch]
    rfl
  calc (m.stepAt i).1.tally
      = (m.stepAt i).1.outcomes + ((m.stepAt i).1.live.map m.endings).sum := by
        rw [tally, hendings]
    _ = m.outcomes + ((m.turnAt i).own m.endings +
          ((m.turnAt i).others.map fun pc => m.endings { (m.turnAt i).branch with pc }).sum +
          ((m.live.eraseIdx i).map m.endings).sum) := by
        rw [stepAt_sum, sum_endings_children _ hroom]
    _ = m.outcomes + (m.endings (m.live.get i) + ((m.live.eraseIdx i).map m.endings).sum) := by
        rw [endings, Branch.endings_eq _ _ _ _ (m.live.get i)]
        rfl
    _ = m.tally := by rw [tally, sum_live m.endings i]

theorem tally_of_finished (h : m.live = []) : m.tally = m.outcomes := by
  rw [tally, h]
  exact add_zero _

/-- There is an outcome for each branch there is, and for each that a turn is about to fork off. -/
theorem nextId_le_card_tally (hm : m.Consistent) (i : Fin m.live.length) :
    (m.turnAt i).others.length + m.nextId ≤ m.tally.card := by
  have hcount := hm.ids.length_eq
  rw [List.length_map, List.length_append, List.length_range] at hcount
  have hself : (m.turnAt i).others.length < (m.endings (m.live.get i)).card :=
    Branch.length_others_lt_card_endings _ _ _ _ _
  have hrest : (m.live.eraseIdx i).length ≤ ((m.live.eraseIdx i).map m.endings).sum.card :=
    length_le_card_sum fun b _ =>
      Nat.zero_lt_of_lt (Branch.length_others_lt_card_endings _ _ _ _ b)
  rw [List.length_eraseIdx_of_lt i.isLt] at hrest
  have hi := i.isLt
  rw [tally, sum_live m.endings i, outcomes, Multiset.card_add, Multiset.card_add,
    Multiset.coe_card, List.length_map]
  omega

/-! ## Schedules -/

/-- The commands that only say which branch has its turn. -/
def Command.schedules : Command → Bool
  | .step | .switch _ => true
  | _ => false

/-- How many of the forks that its next step asks for the machine has no room for. -/
def excess (m : Machine) : Nat :=
  match m.focus? with
  | none => 0
  | some i => (m.turnAt i).others.length - (m.stepAt i).2.forked.length

/-- How many forks are dropped by the steps among commands. -/
def dropped (m : Machine) : List Command → Nat
  | [] => 0
  | .step :: rest => m.excess + m.step.1.dropped rest
  | c :: rest => (m.perform c).1.dropped rest

theorem length_forked (m : Machine) (i : Fin m.live.length) :
    (m.stepAt i).2.forked.length = min m.room (m.turnAt i).others.length := by
  simp only [stepAt, children, List.length_map, List.length_zipIdx, List.length_take]
  rfl

theorem excess_eq_zero_iff {i : Fin m.live.length} (h : m.focus? = some i) :
    m.excess = 0 ↔ (m.turnAt i).others.length ≤ m.room := by
  simp only [excess, h, length_forked]
  omega

/-- What holds of a machine as long as no fork is dropped. -/
structure OnSchedule (config : Config) (all : Multiset Outcome) (m : Machine) : Prop where
  consistent : m.Consistent
  quiet : m.listing.Quiet
  config : m.config = config
  tally : m.tally = all

theorem start_onSchedule {l : Listing} (hl : l.Quiet) (catalog : Catalog) (config : Config) :
    (start l catalog config).OnSchedule config (start l catalog config).tally :=
  ⟨(start_valid l catalog config).toConsistent, hl, rfl, rfl⟩

section OnSchedule
variable {config : Config} {all : Multiset Outcome}

theorem OnSchedule.turn (hm : m.OnSchedule config all) (i : Fin m.live.length)
    (hroom : (m.turnAt i).others.length ≤ m.room) : (m.stepAt i).1.OnSchedule config all := by
  have hleads := stepAt_leads hm.consistent i
  refine ⟨hleads.consistent, ?_, hleads.config.trans hm.config,
    (stepAt_tally hm.quiet i hroom).trans hm.tally⟩
  rw [hleads.listing]
  exact hm.quiet

theorem OnSchedule.view (hm : m.OnSchedule config all) (current : Option BranchId)
    (paused : Option (BranchId × Nat)) (breakpoints : LineSet) :
    ({ m with current, paused, breakpoints } : Machine).OnSchedule config all :=
  ⟨{ hm.consistent with }, hm.quiet, hm.config, hm.tally⟩

theorem OnSchedule.step (hm : m.OnSchedule config all) (h : m.excess = 0) :
    m.step.1.OnSchedule config all := by
  rcases m.step_cases with ⟨-, hstep⟩ | ⟨i, current, hi, hstep⟩
  · rw [hstep]
    exact hm
  · rw [hstep]
    exact (hm.turn i ((excess_eq_zero_iff hi).1 h)).view current (m.stepAt i).1.paused m.breakpoints

theorem OnSchedule.switch (hm : m.OnSchedule config all) (id : BranchId) :
    (m.switch id).1.OnSchedule config all := by
  obtain ⟨current, h⟩ := m.switch_cases id
  rw [h]
  exact hm.view current m.paused m.breakpoints

/-- A schedule that drops no fork leaves the tally as it is. -/
theorem OnSchedule.performAll (hm : m.OnSchedule config all) {commands : List Command}
    (hcommands : ∀ c ∈ commands, c.schedules) (hdropped : m.dropped commands = 0) :
    (m.performAll commands).OnSchedule config all := by
  induction commands generalizing m with
  | nil => exact hm
  | cons c rest ih =>
    have hrest : ∀ c ∈ rest, c.schedules := fun c' hc' => hcommands c' (List.mem_cons_of_mem c hc')
    have hc := hcommands c List.mem_cons_self
    cases c with
    | step =>
      simp only [dropped, Nat.add_eq_zero_iff] at hdropped
      exact ih (hm.step hdropped.1) hrest hdropped.2
    | switch id => exact ih (hm.switch id) hrest hdropped
    | run | fork | setBreakpoints => cases hc

theorem le_room_of_le_max {n k limit : Nat} (hn : 1 ≤ n) (h : k + n ≤ max 1 limit) :
    k ≤ limit - n := by
  omega

/-- Where there may be as many branches as there are outcomes, there is room for every fork. -/
theorem OnSchedule.room (hm : m.OnSchedule config all) (hall : all.card ≤ max 1 config.maxBranches)
    (i : Fin m.live.length) : (m.turnAt i).others.length ≤ m.room := by
  have hle := nextId_le_card_tally hm.consistent i
  rw [hm.tally] at hle
  rw [Machine.room, hm.config]
  exact le_room_of_le_max hm.consistent.nextId_pos (hle.trans hall)

theorem OnSchedule.excess_eq_zero (hm : m.OnSchedule config all)
    (hall : all.card ≤ max 1 config.maxBranches) : m.excess = 0 := by
  cases h : m.focus? with
  | none => simp only [excess, h]
  | some i => exact (excess_eq_zero_iff h).2 (hm.room hall i)

theorem onSchedule_invariant (hall : all.card ≤ max 1 config.maxBranches) :
    Invariant (OnSchedule config all) :=
  ⟨fun i hm => hm.turn i (hm.room hall i), fun _ _ _ hm => hm.view _ _ _⟩

theorem OnSchedule.dropped_eq_zero (hm : m.OnSchedule config all)
    (hall : all.card ≤ max 1 config.maxBranches) {commands : List Command}
    (hcommands : ∀ c ∈ commands, c.schedules) : m.dropped commands = 0 := by
  induction commands generalizing m with
  | nil => rfl
  | cons c rest ih =>
    have hrest : ∀ c ∈ rest, c.schedules := fun c' hc' => hcommands c' (List.mem_cons_of_mem c hc')
    have hc := hcommands c List.mem_cons_self
    cases c with
    | step =>
      have hexcess := hm.excess_eq_zero hall
      rw [dropped, hexcess, ih (hm.step hexcess) hrest]
    | switch id => exact ih (hm.switch id) hrest
    | run | fork | setBreakpoints => cases hc

/-- Once no branch is left, the outcomes are all there are, as many as there were branches. -/
theorem OnSchedule.finished (hm : m.OnSchedule config all) (h : m.live = []) :
    m.outcomes = all ∧ all.card ≤ max 1 config.maxBranches := by
  have houtcomes : m.outcomes = all := (tally_of_finished h).symm.trans hm.tally
  refine ⟨houtcomes, ?_⟩
  have hcount := hm.consistent.ids.length_eq
  rw [h, List.nil_append, List.length_map, List.length_range] at hcount
  have hle := hm.consistent.nextId_le
  rwa [← hcount, hm.config, ← List.length_map (f := Branch.outcome), ← Multiset.coe_card,
    ← outcomes, houtcomes] at hle

end OnSchedule

/-- Where nothing is written to scratch space, schedules that let every branch come to its end agree
on what becomes of the branches, and on whether forks are dropped; and so does a run. -/
theorem schedule_independent {l : Listing} (hl : l.Quiet) (catalog : Catalog) (config : Config)
    {first second : List Command} (hfirst : ∀ c ∈ first, c.schedules)
    (hsecond : ∀ c ∈ second, c.schedules)
    (hend : ((start l catalog config).performAll first).live = [])
    (hend' : ((start l catalog config).performAll second).live = [])
    (hdropped : (start l catalog config).dropped first = 0) :
    (start l catalog config).dropped second = 0 ∧
      ((start l catalog config).performAll second).outcomes =
        ((start l catalog config).performAll first).outcomes ∧
      (start l catalog config).run.2 = .finished ∧
      (start l catalog config).run.1.outcomes =
        ((start l catalog config).performAll first).outcomes := by
  have hstart := start_onSchedule hl catalog config
  obtain ⟨hall, hcard⟩ := (hstart.performAll hfirst hdropped).finished hend
  have hdropped' := hstart.dropped_eq_zero hcard hsecond
  have houtcomes' := ((hstart.performAll hsecond hdropped').finished hend').1
  obtain ⟨n, hrun⟩ := run_completes (start l catalog config)
  obtain ⟨hlive, hfinished⟩ := hrun.finishes rfl
  have hrun' := ((onSchedule_invariant hcard).run hstart).finished hlive
  exact ⟨hdropped', houtcomes'.trans hall.symm, hfinished, hrun'.1.trans hall.symm⟩

/-- A condition that is not known forks off a branch, which may end after its parent or before. -/
theorem schedule_independent_of_fork :
    let l : Listing :=
      { ops := [.instr "txn" ["Fee"], .branch .ifNonZero 0, .int .pseudo 1, .label 0] }
    let m := start l .standard {}
    let first : List Command := [.step, .step, .step, .step, .step]
    let second : List Command := [.step, .step, .switch 1, .step, .step, .step]
    (m.performAll first).retired.map Branch.id = [0, 1] ∧
      (m.performAll second).retired.map Branch.id = [1, 0] ∧
      m.dropped second = 0 ∧ (m.performAll second).outcomes = (m.performAll first).outcomes ∧
      m.run.2 = .finished ∧ m.run.1.outcomes = (m.performAll first).outcomes := by
  refine ⟨by decide +kernel, by decide +kernel, ?_⟩
  exact schedule_independent (by decide +kernel) .standard {} (by decide) (by decide)
    (by decide +kernel) (by decide +kernel) (by decide +kernel)

end Machine

end Teal
