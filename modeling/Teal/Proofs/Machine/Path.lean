import Teal.Proofs.Machine.Schedule
import Teal.Proofs.Optimizer.Alignment
/-!
# Paths and branches

A path is a branch without a budget, without a machine and with scratch space to itself. A turn of a
branch is a step of its path as long as there is budget (`Branch.turn_steps`), so a branch with
enough of it ends as its path does, and a branch that ends for any other reason than its budget is
at the end of a path. A machine gives its branches the same turns. Where control does not fork there
is one branch, and it has scratch space to itself. Where nothing is written to scratch space, what
the branches share does not change.
-/

namespace Teal

variable {l : Listing} {catalog : Catalog}

/-! ## Costs along a path -/

theorem Point.cost_le_of_stop {p : Point} {e : Ending} (h : p.move l catalog = .stop e) :
    p.cost ≤ e.cost := by
  unfold move at h
  split at h
  · cases h
    exact Nat.le_refl _
  · dsimp only at h
    split at h <;> cases h <;> exact Nat.le_add_right _ _

theorem Point.cost_le_of_next {p q : Point} (h : q ∈ (p.move l catalog).next) :
    p.cost ≤ q.cost := by
  unfold move at h
  split at h
  · exact absurd h List.not_mem_nil
  · dsimp only at h
    split at h
    · exact absurd h List.not_mem_nil
    · exact absurd h List.not_mem_nil
    · cases List.mem_singleton.1 h
      exact Nat.le_add_right _ _
    · obtain ⟨pc, -, rfl⟩ := List.mem_map.1 h
      exact Nat.le_add_right _ _

theorem Halts.cost_le {p : Point} {choices : List Nat} {e : Ending}
    (h : Halts l catalog p choices e) : p.cost ≤ e.cost := by
  induction h with
  | stop hmove => exact Point.cost_le_of_stop hmove
  | @go p q _ _ hmove _ ih =>
    have hnext : q ∈ (p.move l catalog).next := by
      rw [hmove]
      exact List.mem_singleton_self q
    exact (Point.cost_le_of_next hnext).trans ih
  | @choose p _ q _ _ _ hmove hq _ ih =>
    have hnext : q ∈ (p.move l catalog).next := by
      rw [hmove]
      exact List.mem_of_getElem? hq
    exact (Point.cost_le_of_next hnext).trans ih

/-! ## Turns and steps -/

/-- The place on a path where a branch is that has spent `cost`. -/
def Branch.point (b : Branch) (scratch : Scratch) (cost : Nat) : Point :=
  { pc := b.pc, state := { thread := b.thread, scratch }, cost }

/-- A turn after which the branch goes on, unless it has nothing left. -/
def Turn.Continues (t : Turn) : Prop :=
  t.halt = none ∧ 0 < t.branch.budget ∨ t.halt = some .exhausted ∧ t.branch.budget = 0

theorem Turn.Continues.goesOn {t : Turn} (h : t.Continues) (hpos : 0 < t.branch.budget) :
    t.halt = none := by
  rcases h with ⟨hhalt, -⟩ | ⟨-, hzero⟩
  · exact hhalt
  · exact absurd hzero (Nat.ne_of_gt hpos)

/-- A turn of a branch that may spend `total` is a step of a path. -/
inductive Turn.Steps (total : Nat) (t : Turn) : Move → Prop
  | stop {e : Ending} : t.halt = some e.halt → e.state = ⟨t.branch.thread, t.scratch⟩ →
      t.branch.budget = total - e.cost → t.others = [] → Steps total t (.stop e)
  | go {cost : Nat} : t.Continues → t.branch.budget = total - cost → t.others = [] →
      Steps total t (.go (t.branch.point t.scratch cost))
  | choose {cost : Nat} : t.Continues → t.branch.budget = total - cost →
      Steps total t (.choose ((t.branch.pc :: t.others).map
        fun pc => { t.branch with pc }.point t.scratch cost))

namespace Branch

theorem goOn_continues (b : Branch) (scratch : Scratch) (executed pc : Nat) (others : List Nat) :
    (b.goOn scratch executed pc others).Continues := by
  by_cases hzero : b.budget = 0
  · exact .inr ⟨if_pos hzero, hzero⟩
  · exact .inl ⟨if_neg hzero, Nat.pos_of_ne_zero hzero⟩

/-- A turn of a branch that has some of its budget left is a step of its path. -/
theorem turn_steps (l : Listing) (catalog : Catalog) (traced : Bool) (scratch : Scratch)
    {b : Branch} {total cost : Nat} (hrest : b.budget = total - cost) (hpos : 0 < b.budget) :
    (b.turn l catalog traced scratch).Steps total ((b.point scratch cost).move l catalog) := by
  simp only [turn, Point.move, point, if_neg (Nat.ne_of_gt hpos)]
  cases l.fetch? b.pc with
  | none => exact .stop rfl rfl hrest rfl
  | some line =>
    obtain ⟨pc, op⟩ := line
    have hspent : b.budget - catalog.cost (op.mnemonic?.getD "") =
        total - (cost + catalog.cost (op.mnemonic?.getD "")) := by
      rw [hrest, Nat.sub_sub]
    dsimp only
    rcases (op.exec l catalog pc).run ⟨b.thread, scratch⟩ with ⟨effect, s⟩ | ⟨fault, s⟩
    · cases effect with
      | goto next => exact .go (goOn_continues _ s.scratch pc next []) hspent rfl
      | fork next others => exact .choose (goOn_continues _ s.scratch pc next others) hspent
      | halt approved => exact .stop rfl rfl hspent rfl
    · exact .stop rfl rfl hspent rfl

end Branch

/-! ## Ends of branches and ends of paths -/

/-- A branch that has scratch space to itself comes to its end as `c`, or one of those that come
from it does, and leaves the scratch space next to it. -/
inductive Branch.Ends (l : Listing) (catalog : Catalog) (traced : Bool) :
    Scratch → Branch → Scratch → Branch → Prop
  | stops {scratch b halt} : (b.turn l catalog traced scratch).halt = some halt →
      Ends l catalog traced scratch b (b.turn l catalog traced scratch).scratch
        ((b.turn l catalog traced scratch).branch.retire halt)
  | goesOn {scratch b scratch' c} : (b.turn l catalog traced scratch).halt = none →
      Ends l catalog traced (b.turn l catalog traced scratch).scratch
        (b.turn l catalog traced scratch).branch scratch' c →
      Ends l catalog traced scratch b scratch' c
  | forks {scratch b pc scratch' c} : pc ∈ (b.turn l catalog traced scratch).others →
      Ends l catalog traced (b.turn l catalog traced scratch).scratch
        { (b.turn l catalog traced scratch).branch with pc } scratch' c →
      Ends l catalog traced scratch b scratch' c

/-- A branch that could spend `total` has stopped with `scratch` next to it as a path ends. -/
structure Branch.EndsAs (c : Branch) (scratch : Scratch) (total : Nat) (e : Ending) : Prop where
  halt : c.halt = some e.halt
  stack : c.thread.stack = e.state.thread.stack
  frames : c.thread.frames = e.state.thread.frames
  scratch : scratch = e.state.scratch
  budget : c.budget = total - e.cost

namespace Branch

variable {traced : Bool} {scratch scratch' : Scratch} {b c : Branch} {total cost : Nat}

theorem endsAs_retire {t : Turn} {e : Ending} (hstate : e.state = ⟨t.branch.thread, t.scratch⟩)
    (hbudget : t.branch.budget = total - e.cost) :
    (t.branch.retire e.halt).EndsAs t.scratch total e := by
  refine ⟨rfl, ?_, ?_, ?_, hbudget⟩ <;> rw [hstate]
  all_goals rfl

theorem budget_pos_of_pays {choices : List Nat} {e : Ending}
    (h : Halts l catalog (b.point scratch cost) choices e) (hrest : b.budget = total - cost)
    (hpays : e.cost < total) : 0 < b.budget := by
  have hle : cost ≤ e.cost := h.cost_le
  omega

/-- A branch that can pay for its path ends as the path does. -/
theorem ends_of_halts {p : Point} {choices : List Nat} {e : Ending}
    (h : Halts l catalog p choices e) (traced : Bool) (hp : p = b.point scratch cost)
    (hrest : b.budget = total - cost) (hpays : e.cost < total) :
    ∃ scratch' c, b.Ends l catalog traced scratch scratch' c ∧ c.EndsAs scratch' total e := by
  induction h generalizing b scratch cost with
  | stop hmove =>
    subst hp
    have hsteps := turn_steps l catalog traced scratch hrest
      (budget_pos_of_pays (.stop hmove) hrest hpays)
    rw [hmove] at hsteps
    cases hsteps with
    | stop hhalt hstate hbudget => exact ⟨_, _, .stops hhalt, endsAs_retire hstate hbudget⟩
  | go hmove hq ih =>
    subst hp
    have hsteps := turn_steps l catalog traced scratch hrest
      (budget_pos_of_pays (.go hmove hq) hrest hpays)
    rw [hmove] at hsteps
    cases hsteps with
    | go hcont hbudget =>
      obtain ⟨scratch', c, hends, has⟩ := ih rfl hbudget hpays
      have hpos := budget_pos_of_pays hq hbudget hpays
      exact ⟨scratch', c, .goesOn (hcont.goesOn hpos) hends, has⟩
  | @choose _ _ _ i _ _ hmove hget hq ih =>
    subst hp
    have hsteps := turn_steps l catalog traced scratch hrest
      (budget_pos_of_pays (.choose hmove hget hq) hrest hpays)
    rw [hmove] at hsteps
    cases hsteps with
    | choose hcont hbudget =>
      rw [List.getElem?_map] at hget
      obtain ⟨pc, hpc, rfl⟩ := Option.map_eq_some_iff.1 hget
      obtain ⟨scratch', c, hends, has⟩ := ih rfl hbudget hpays
      refine ⟨scratch', c, ?_, has⟩
      cases i with
      | zero =>
        -- The branch itself takes the first of the places, and the others are forked off.
        cases hpc
        have hpos := budget_pos_of_pays hq hbudget hpays
        exact .goesOn (hcont.goesOn hpos) hends
      | succ i => exact .forks (List.mem_of_getElem? hpc) hends

/-- A branch that does not end for lack of budget has some. -/
theorem Ends.budget_pos (h : b.Ends l catalog traced scratch scratch' c)
    (hpaid : c.halt ≠ some .exhausted) : 0 < b.budget := by
  refine Nat.pos_of_ne_zero fun hzero => ?_
  have hturn : b.turn l catalog traced scratch =
      { branch := b, scratch, halt := some .exhausted } :=
    turn_of_spent hzero catalog traced scratch
  cases h with
  | stops hhalt =>
    rw [hturn] at hhalt
    exact hpaid hhalt.symm
  | goesOn hhalt =>
    rw [hturn] at hhalt
    cases hhalt
  | forks hpc =>
    rw [hturn] at hpc
    exact List.not_mem_nil hpc

/-- A branch that does not end for lack of budget ends as a path does. -/
theorem halts_of_ends (h : b.Ends l catalog traced scratch scratch' c)
    (hpaid : c.halt ≠ some .exhausted) (hrest : b.budget = total - cost) :
    ∃ choices e, Halts l catalog (b.point scratch cost) choices e ∧ c.EndsAs scratch' total e := by
  have hsteps := turn_steps l catalog traced scratch hrest (h.budget_pos hpaid)
  induction h generalizing cost with
  | stops hhalt =>
    generalize hmove : Point.move l catalog _ = move at hsteps
    cases hsteps with
    | stop hhalt' hstate hbudget =>
      cases hhalt.symm.trans hhalt'
      exact ⟨[], _, .stop hmove, endsAs_retire hstate hbudget⟩
    | go hcont | choose hcont =>
      rcases hcont with ⟨hnone, -⟩ | ⟨hex, -⟩
      · cases hhalt.symm.trans hnone
      · exact absurd (hhalt.symm.trans hex) hpaid
  | goesOn hhalt hends ih =>
    generalize hmove : Point.move l catalog _ = move at hsteps
    cases hsteps with
    | stop hhalt' => cases hhalt.symm.trans hhalt'
    | go _ hbudget =>
      obtain ⟨choices, e, hhalts, has⟩ := ih hpaid hbudget
        (turn_steps l catalog traced _ hbudget (hends.budget_pos hpaid))
      exact ⟨choices, e, .go hmove hhalts, has⟩
    | choose _ hbudget =>
      obtain ⟨choices, e, hhalts, has⟩ := ih hpaid hbudget
        (turn_steps l catalog traced _ hbudget (hends.budget_pos hpaid))
      exact ⟨0 :: choices, e, .choose hmove rfl hhalts, has⟩
  | forks hpc hends ih =>
    generalize hmove : Point.move l catalog _ = move at hsteps
    cases hsteps with
    | stop _ _ _ hothers | go _ _ hothers =>
      rw [hothers] at hpc
      exact absurd hpc List.not_mem_nil
    | choose _ hbudget =>
      obtain ⟨choices, e, hhalts, has⟩ := ih hpaid hbudget
        (turn_steps l catalog traced _ hbudget (hends.budget_pos hpaid))
      obtain ⟨i, hi⟩ := List.getElem?_of_mem hpc
      refine ⟨(i + 1) :: choices, e, .choose hmove ?_ hhalts, has⟩
      rw [List.getElem?_map, List.getElem?_cons_succ, hi]
      rfl

end Branch

/-! ## Where nothing is written to scratch space -/

theorem mem_sum_iff {α : Type} {xs : List (Multiset α)} {a : α} :
    a ∈ xs.sum ↔ ∃ s ∈ xs, a ∈ s := by
  induction xs with
  | nil => simp
  | cons s xs ih => simp [ih]

namespace Branch

variable {traced : Bool} {scratch scratch' : Scratch} {b c c' : Branch} {total : Nat}

theorem EndsAs.of_outcome {e : Ending} (h : c.EndsAs scratch total e)
    (hsame : c'.outcome = c.outcome) : c'.EndsAs scratch total e where
  halt := (congrArg Outcome.halt hsame).trans h.halt
  stack := (congrArg Outcome.stack hsame).trans h.stack
  frames := (congrArg Outcome.frames hsame).trans h.frames
  scratch := h.scratch
  budget := (congrArg Outcome.budget hsame).trans h.budget

/-- Scratch space stays as it is, and how a branch ends is one of its endings. -/
theorem Ends.mem_endings (hl : l.Quiet) (h : b.Ends l catalog traced scratch scratch' c) :
    scratch' = scratch ∧ c.outcome ∈ b.endings l catalog traced scratch := by
  induction h with
  | @stops scratch b halt hhalt =>
    refine ⟨turn_scratch hl catalog traced scratch b, ?_⟩
    rw [endings_eq, Turn.own, hhalt]
    exact Multiset.mem_add.2 (.inl (Multiset.mem_singleton_self _))
  | @goesOn scratch b _ _ hhalt _ ih =>
    rw [turn_scratch hl] at ih
    refine ⟨ih.1, ?_⟩
    rw [endings_eq, Turn.own, hhalt]
    exact Multiset.mem_add.2 (.inl ih.2)
  | @forks scratch b pc _ _ hpc _ ih =>
    rw [turn_scratch hl] at ih
    refine ⟨ih.1, ?_⟩
    rw [endings_eq]
    exact Multiset.mem_add.2 (.inr (mem_sum_iff.2 ⟨_, List.mem_map_of_mem hpc, ih.2⟩))

/-- Each of the endings of a branch is an end it comes to. -/
theorem exists_ends_of_mem_endings (hl : l.Quiet) {o : Outcome}
    (h : o ∈ b.endings l catalog traced scratch) :
    ∃ c, b.Ends l catalog traced scratch scratch c ∧ c.outcome = o := by
  induction b using turn_induction l catalog traced scratch with
  | step b hself hothers =>
    have hscratch := turn_scratch hl catalog traced scratch b
    rw [endings_eq] at h
    rcases Multiset.mem_add.1 h with h | h
    · unfold Turn.own at h
      cases hhalt : (b.turn l catalog traced scratch).halt with
      | none =>
        rw [hhalt] at h
        obtain ⟨c, hends, hc⟩ := hself hhalt h
        refine ⟨c, .goesOn hhalt ?_, hc⟩
        rwa [hscratch]
      | some halt =>
        rw [hhalt] at h
        have hends := Ends.stops hhalt
        rw [hscratch] at hends
        exact ⟨_, hends, (Multiset.mem_singleton.1 h).symm⟩
    · obtain ⟨_, hmap, h⟩ := mem_sum_iff.1 h
      obtain ⟨pc, hpc, rfl⟩ := List.mem_map.1 hmap
      obtain ⟨c, hends, hc⟩ := hothers pc hpc h
      refine ⟨c, .forks hpc ?_, hc⟩
      rwa [hscratch]

end Branch

/-! ## Runs of machines -/

namespace Machine

variable {m : Machine} {b : Branch} {config : Config}

/-- A run of a machine with one branch gives this branch its turn and goes on. -/
theorem run_of_single (hlive : m.live = [b]) (hbreak : m.breakpoints = .empty) :
    ∃ i, m.live.get i = b ∧ m.run = (m.stepAt i).1.run := by
  obtain ⟨i, hi⟩ := Option.isSome_iff_exists.1 (indexOf?_head hlive)
  have hround : m.round (m.live.map (·.id)) = ((m.stepAt i).1, none) := by
    rw [hlive]
    simp only [List.map_cons, List.map_nil, round, hi, hit?_eq_none hbreak]
  have hall : ∀ c ∈ m.live, c = b := by
    rw [hlive]
    exact fun c hc => List.mem_singleton.1 hc
  refine ⟨i, hall _ (List.get_mem m.live i), ?_⟩
  rw [run, dif_neg (by simp [hlive])]
  split
  · rename_i h
    cases hround.symm.trans h
  · rename_i h
    cases hround.symm.trans h
    rfl

/-- The turn of the only branch of a machine leaves it alone if it forks nothing off. -/
theorem stepAt_of_single (hlive : m.live = [b]) {i : Fin m.live.length}
    (hothers : (m.turnAt i).others = []) :
    ((m.turnAt i).halt = none → (m.stepAt i).1.live = [(m.turnAt i).branch] ∧
      (m.stepAt i).1.retired = m.retired) ∧
    ∀ halt, (m.turnAt i).halt = some halt → (m.stepAt i).1.live = [] ∧
      (m.stepAt i).1.retired = m.retired ++ [(m.turnAt i).branch.retire halt] := by
  have hzero : (i : Nat) = 0 := by
    have hlength : m.live.length = 1 := by rw [hlive, List.length_singleton]
    omega
  unfold turnAt at hothers ⊢
  refine ⟨fun h => ?_, fun halt h => ?_⟩
  · simp only [stepAt, h, hothers, children, hzero, hlive]
    simp
  · simp only [stepAt, h, hothers, children, hzero, hlive]
    simp

/-- On a path that takes no fork a machine with one branch runs along the path. -/
theorem run_of_halts {p : Point} {choices : List Nat} {e : Ending} {total cost : Nat}
    (h : Halts l catalog p choices e) (hstraight : choices = []) (hlisting : m.listing = l)
    (hcatalog : m.catalog = catalog) (hbreak : m.breakpoints = .empty) (hlive : m.live = [b])
    (hp : p = b.point m.scratch cost) (hrest : b.budget = total - cost) (hpays : e.cost < total) :
    m.run.1.live = [] ∧
      ∃ c, m.run.1.retired = m.retired ++ [c] ∧ c.EndsAs m.run.1.scratch total e := by
  induction h generalizing m b cost with
  | stop hmove =>
    subst hp hlisting hcatalog
    obtain ⟨i, rfl, hrun⟩ := run_of_single hlive hbreak
    have hsteps : (m.turnAt i).Steps total _ :=
      Branch.turn_steps m.listing m.catalog m.config.trace m.scratch hrest
        (Branch.budget_pos_of_pays (.stop hmove) hrest hpays)
    rw [hmove] at hsteps
    cases hsteps with
    | stop hhalt hstate hbudget hothers =>
      obtain ⟨hdone, hretired⟩ := (stepAt_of_single hlive hothers).2 _ hhalt
      rw [hrun, run, dif_pos hdone]
      exact ⟨hdone, _, hretired, Branch.endsAs_retire hstate hbudget⟩
  | go hmove hq ih =>
    subst hp hlisting hcatalog
    obtain ⟨i, rfl, hrun⟩ := run_of_single hlive hbreak
    have hsteps : (m.turnAt i).Steps total _ :=
      Branch.turn_steps m.listing m.catalog m.config.trace m.scratch hrest
        (Branch.budget_pos_of_pays (.go hmove hq) hrest hpays)
    rw [hmove] at hsteps
    cases hsteps with
    | go hcont hbudget hothers =>
      have hpos := Branch.budget_pos_of_pays hq hbudget hpays
      obtain ⟨hone, hretired⟩ := (stepAt_of_single hlive hothers).1 (hcont.goesOn hpos)
      rw [hrun, ← hretired]
      exact ih hstraight rfl rfl hbreak hone rfl hbudget hpays
  | choose => cases hstraight

/-- A program that takes no fork and can pay for its path: the run of a fresh machine retires one
branch, and that ends as the path does, with what the path leaves in scratch space. -/
theorem start_run_of_halts {e : Ending} (h : Halts l catalog {} [] e)
    (hpays : e.cost < config.budget) :
    let m := (start l catalog config).run.1
    m.live = [] ∧ ∃ c, m.retired = [c] ∧ c.EndsAs m.scratch config.budget e :=
  run_of_halts (m := start l catalog config) h rfl rfl rfl rfl rfl rfl rfl hpays

/-- Where nothing is written to scratch space and there is room for every fork, as a schedule that
drops none shows: a run retires a branch for each path that its budget can pay for, and every branch
that it retires is at the end of a path or out of budget. -/
theorem start_run_quiet (hl : l.Quiet) (catalog : Catalog) (config : Config)
    {commands : List Command} (hcommands : ∀ c ∈ commands, c.schedules)
    (hend : ((start l catalog config).performAll commands).live = [])
    (hdropped : (start l catalog config).dropped commands = 0) :
    let m := (start l catalog config).run.1
    (∀ choices e, Halts l catalog {} choices e → e.cost < config.budget →
      ∃ c ∈ m.retired, c.EndsAs m.scratch config.budget e) ∧
    ∀ c ∈ m.retired, c.halt ≠ some .exhausted →
      ∃ choices e, Halts l catalog {} choices e ∧ c.EndsAs m.scratch config.budget e := by
  intro m
  -- The retired branches have the endings of the root.
  have hquiet : Invariant fun m => m.listing.Quiet ∧ m.scratch = .fresh :=
    ⟨fun i hm => ⟨hm.1, (Branch.turn_scratch hm.1 _ _ _ _).trans hm.2⟩, fun _ _ _ hm => hm⟩
  have hscratch : m.scratch = .fresh := (hquiet.run ⟨hl, rfl⟩).2
  have hstart := start_onSchedule hl catalog config
  have hroom := ((hstart.performAll hcommands hdropped).finished hend).2
  have hschedule := (onSchedule_invariant hroom).run hstart
  obtain ⟨n, hrun⟩ := run_completes (start l catalog config)
  have houtcomes : m.outcomes = (start l catalog config).tally :=
    (hschedule.finished (hrun.finishes rfl).1).1
  have htally : (start l catalog config).tally = Branch.endings l catalog config.trace .fresh
      { budget := config.budget } := by
    simp [tally, outcomes, endings, start]
  rw [htally, outcomes] at houtcomes
  refine ⟨fun choices e h hpays => ?_, fun c hc hpaid => ?_⟩
  · obtain ⟨scratch', c, hends, has⟩ :=
      Branch.ends_of_halts (b := { budget := config.budget }) h config.trace rfl rfl hpays
    obtain ⟨rfl, hmem⟩ := hends.mem_endings hl
    rw [← houtcomes] at hmem
    obtain ⟨c', hc', hsame⟩ := List.mem_map.1 hmem
    rw [hscratch]
    exact ⟨c', hc', has.of_outcome hsame⟩
  · have hmem : c.outcome ∈ (m.retired.map Branch.outcome : Multiset Outcome) :=
      List.mem_map_of_mem hc
    rw [houtcomes] at hmem
    obtain ⟨c', hends, hsame⟩ := Branch.exists_ends_of_mem_endings hl hmem
    have hhalt : c'.halt = c.halt := congrArg Outcome.halt hsame
    obtain ⟨choices, e, h, has⟩ := Branch.halts_of_ends hends (hhalt ▸ hpaid) (Nat.sub_zero _).symm
    rw [hscratch]
    exact ⟨choices, e, h, has.of_outcome hsame.symm⟩

end Machine

/-- A listing that stands in for another one runs as that does, on a path that takes no fork: each
run retires one branch, with the same outcome, and the other listing leaves no more of the
budget. -/
theorem Preserves.start_run {l' : Listing} (h : Preserves catalog l l') {e : Ending}
    (hl : Halts l catalog {} [] e) (hproto : ¬e.misplacedProto) {config : Machine.Config}
    (hpays : e.cost < config.budget) :
    ∃ c c', (Machine.start l catalog config).run.1.retired = [c] ∧
      (Machine.start l' catalog config).run.1.retired = [c'] ∧ c'.halt = c.halt ∧
      c'.thread.stack.map Cell.value = c.thread.stack.map Cell.value ∧ c.budget ≤ c'.budget := by
  obtain ⟨e', hl', hsame, hcost⟩ := h.forward [] e hl hproto
  obtain ⟨-, c, hretired, hc⟩ := Machine.start_run_of_halts hl hpays
  obtain ⟨-, c', hretired', hc'⟩ := Machine.start_run_of_halts hl' (hcost.trans_lt hpays)
  refine ⟨c, c', hretired, hretired', ?_, ?_, ?_⟩
  · rw [hc.halt, hc'.halt, hsame.halt]
  · rw [hc.stack, hc'.stack, hsame.stack]
  · rw [hc.budget, hc'.budget]
    omega

end Teal
