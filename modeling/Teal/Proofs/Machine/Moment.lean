import Teal.Proofs.Machine.Calls
import Teal.Proofs.Machine.Loop
/-!
# Moments of a run

What a machine has done is told by the reports of the turns that it has made. `Machine.Proceeds`
goes from one moment to a later one and lists the turns in between, as long as no run is stopped. A
branch that has no turn stays as it is, a branch that has one and executes nothing is retired, and
the machine forgets the last stop once its branch has a turn.

`Machine.Advances` does so within the loop of a run, and keeps track of what is left of the round.
`Machine.Ends` adds how the loop comes to its end: `run_ends`.
-/

namespace Teal

namespace Machine

/-- `m'` comes of `m` by the turns in `reports`, between which branches may be copied and the
current branch and the breakpoints be chosen anew. -/
inductive Proceeds : Machine → List Report → Machine → Prop
  | refl {m} : Proceeds m [] m
  | turn {m reports m'} (i : Fin m.live.length) : Proceeds (m.stepAt i).1 reports m' →
      Proceeds m ((m.stepAt i).2 :: reports) m'
  | copy {m reports m'} (i : Fin m.live.length) : m.nextId < m.config.maxBranches →
      Proceeds (m.copy i) reports m' → Proceeds m reports m'
  | view {m reports m'} (current : Option BranchId) (breakpoints : LineSet) :
      Proceeds { m with current, breakpoints } reports m' → Proceeds m reports m'

/-- The loop of a run comes from `m`, with `ids` left of the round, to `m'` with `ids'` left, and
makes the turns in `reports` on the way. -/
inductive Advances : Machine → List BranchId → List Report → Machine → List BranchId → Prop
  | here {m ids} : Advances m ids [] m ids
  | round {m reports m' ids'} : m.live ≠ [] →
      Advances m (m.live.map (·.id)) reports m' ids' → Advances m [] reports m' ids'
  | gone {m id ids reports m' ids'} : m.indexOf? id = none →
      Advances m ids reports m' ids' → Advances m (id :: ids) reports m' ids'
  | turn {m id ids i reports m' ids'} : m.indexOf? id = some i → m.hit? (m.live.get i) = none →
      Advances (m.stepAt i).1 ids reports m' ids' →
      Advances m (id :: ids) ((m.stepAt i).2 :: reports) m' ids'

/-- The loop of a run, with `ids` left of the round, makes the turns in `reports` and ends with
`r`. -/
inductive Ends (m : Machine) (ids : List BranchId) (reports : List Report) :
    Machine × RunOutcome → Prop
  | finished {m'} : m.Advances ids reports m' [] → m'.live = [] →
      Ends m ids reports ({ m' with current := none }, .finished)
  | stopped {m' id rest i line} : m.Advances ids reports m' (id :: rest) →
      m'.indexOf? id = some i → m'.hit? (m'.live.get i) = some line →
      Ends m ids reports
        ({ m' with current := some id, paused := some (id, line) }, .breakpoint id line)

variable {m m' : Machine} {reports : List Report}

/-! ## Turns -/

theorem branch_stepAt (i : Fin m.live.length) : (m.stepAt i).2.branch = (m.live.get i).id := rfl

/-- Another branch does not change in a turn. -/
theorem mem_live_stepAt_of_ne {i : Fin m.live.length} {c : Branch} (hc : c ∈ m.live)
    (hne : (m.stepAt i).2.branch ≠ c.id) : c ∈ (m.stepAt i).1.live := by
  obtain ⟨j, hj, rfl⟩ := List.mem_iff_getElem.1 hc
  have hij : (i : Nat) ≠ j := by
    rintro rfl
    exact hne rfl
  simp only [stepAt]
  refine List.mem_append_left _ ?_
  split
  · rw [← List.getElem_set_ne hij (by simpa using hj)]
    exact List.getElem_mem _
  · exact List.mem_eraseIdx_iff_getElem.2 ⟨j, hj, hij.symm, rfl⟩

theorem retired_stepAt (m : Machine) (i : Fin m.live.length) :
    m.retired <+: (m.stepAt i).1.retired :=
  List.prefix_append _ _

/-- A turn in which nothing is executed is the last one of its branch. -/
theorem retired_of_executed_none {i : Fin m.live.length} (h : (m.stepAt i).2.executed = none) :
    ∃ c ∈ (m.stepAt i).1.retired, c.id = (m.stepAt i).2.branch := by
  have hid := (m.turnAt_cases i).same.1
  rcases (m.turnAt_cases i).executed_cases with ⟨-, -, -, hhalt⟩ | ⟨pc, op, hexec, -⟩
  · obtain ⟨halt, hhalt⟩ := Option.ne_none_iff_exists'.1 hhalt
    refine ⟨(m.turnAt i).branch.retire halt, ?_, hid⟩
    rw [turnAt] at hhalt ⊢
    simp only [stepAt]
    rw [hhalt]
    exact List.mem_append_right _ (List.mem_singleton.2 rfl)
  · cases h.symm.trans hexec

/-! ## From one moment to a later one -/

section Proceeds
variable (h : m.Proceeds reports m')
include h

theorem Proceeds.leads (hm : m.Consistent) : Leads m m' := by
  induction h with
  | refl => exact .refl hm
  | turn i _ ih =>
    have hleads := stepAt_leads hm i
    exact hleads.trans (ih hleads.consistent)
  | @copy m _ _ i hroom _ ih =>
    have hleads : Leads m (m.copy i) := (copy_change hm i hroom m.current).leads hm
    exact hleads.trans (ih hleads.consistent)
  | view current breakpoints _ ih =>
    have hleads := ih { hm with }
    exact ⟨hleads.listing, hleads.config, hleads.retired, hleads.consistent⟩

theorem Proceeds.listing : m'.listing = m.listing := by
  induction h with
  | refl => rfl
  | turn _ _ ih | copy _ _ _ ih | view _ _ _ ih => exact ih

/-- The last stop is remembered until its branch has a turn. -/
theorem Proceeds.paused_iff {stop : BranchId × Nat} :
    m'.paused = some stop ↔ m.paused = some stop ∧ ∀ x ∈ reports, x.branch ≠ stop.1 := by
  induction h with
  | refl => simp
  | @turn m reports m' i _ ih =>
    have hpaused : (m.stepAt i).1.paused = some stop ↔
        m.paused = some stop ∧ (m.stepAt i).2.branch ≠ stop.1 := by
      refine Option.filter_eq_some_iff.trans (and_congr_right fun _ => ?_)
      rw [bne_iff_ne, branch_stepAt]
      exact ne_comm
    rw [ih, hpaused, List.forall_mem_cons, and_assoc]
  | copy _ _ _ ih | view _ _ _ ih => exact ih

/-- A branch that has no turn does not change. -/
theorem Proceeds.mem_live {c : Branch} (hc : c ∈ m.live) (hturn : ∀ x ∈ reports, x.branch ≠ c.id) :
    c ∈ m'.live := by
  induction h with
  | refl => exact hc
  | turn i _ ih =>
    rw [List.forall_mem_cons] at hturn
    exact ih (mem_live_stepAt_of_ne hc hturn.1) hturn.2
  | copy i _ _ ih => exact ih (List.mem_append_left _ hc) hturn
  | view _ _ _ ih => exact ih hc hturn

theorem Proceeds.retired : m.retired <+: m'.retired := by
  induction h with
  | refl => exact List.prefix_rfl
  | turn i _ ih => exact (retired_stepAt _ i).trans ih
  | copy _ _ _ ih | view _ _ _ ih => exact ih

/-- A branch that has a turn and executes nothing is retired. -/
theorem Proceeds.mem_retired {x : Report} (hx : x ∈ reports) (hexec : x.executed = none) :
    ∃ c ∈ m'.retired, c.id = x.branch := by
  induction h with
  | refl => exact absurd hx List.not_mem_nil
  | turn i h ih =>
    rcases List.mem_cons.1 hx with rfl | hx
    · obtain ⟨c, hc, hid⟩ := retired_of_executed_none hexec
      exact ⟨c, h.retired.subset hc, hid⟩
    · exact ih hx
  | copy _ _ _ ih | view _ _ _ ih => exact ih hx

end Proceeds

/-- Looking elsewhere at the end. -/
theorem Proceeds.look (h : m.Proceeds reports m') (current : Option BranchId) :
    m.Proceeds reports { m' with current } := by
  induction h with
  | @refl m => exact .view current m.breakpoints .refl
  | turn i _ ih => exact .turn i ih
  | copy i hroom _ ih => exact .copy i hroom ih
  | view current breakpoints _ ih => exact .view current breakpoints ih

/-! ## Within a run -/

theorem hit?_eq_some_iff {b : Branch} {line : Nat} : m.hit? b = some line ↔
    m.listing.nextExecutable b.pc = some line ∧ m.breakpoints.contains line = true ∧
      m.paused ≠ some (b.id, line) := by
  rw [hit?, Option.filter_eq_some_iff, Bool.and_eq_true, bne_iff_ne]

theorem Advances.proceeds {ids ids' : List BranchId} (h : m.Advances ids reports m' ids') :
    m.Proceeds reports m' := by
  induction h with
  | here => exact .refl
  | round _ _ ih => exact ih
  | gone _ _ ih => exact ih
  | @turn _ _ _ i _ _ _ _ _ _ ih => exact .turn i ih

theorem Advances.breakpoints {ids ids' : List BranchId} (h : m.Advances ids reports m' ids') :
    m'.breakpoints = m.breakpoints := by
  induction h with
  | here => rfl
  | round _ _ ih | gone _ _ ih | turn _ _ _ ih => exact ih

theorem Completes.ends {ids : List BranchId} {n : Nat} {r : Machine × RunOutcome}
    (h : m.Completes ids n r) : ∃ reports, m.Ends ids reports r := by
  induction h with
  | finished hlive => exact ⟨[], .finished .here hlive⟩
  | stop hi hhit => exact ⟨[], .stopped .here hi hhit⟩
  | round hlive _ ih =>
    obtain ⟨reports, hends⟩ := ih
    refine ⟨reports, ?_⟩
    cases hends with
    | finished hadv hnil => exact .finished (.round hlive hadv) hnil
    | stopped hadv hi hhit => exact .stopped (.round hlive hadv) hi hhit
  | gone hgone _ ih =>
    obtain ⟨reports, hends⟩ := ih
    refine ⟨reports, ?_⟩
    cases hends with
    | finished hadv hnil => exact .finished (.gone hgone hadv) hnil
    | stopped hadv hi hhit => exact .stopped (.gone hgone hadv) hi hhit
  | @turn m _ _ i _ _ hi hnone _ ih =>
    obtain ⟨reports, hends⟩ := ih
    refine ⟨(m.stepAt i).2 :: reports, ?_⟩
    cases hends with
    | finished hadv hnil => exact .finished (.turn hi hnone hadv) hnil
    | stopped hadv hi' hhit => exact .stopped (.turn hi hnone hadv) hi' hhit

/-- Every run makes some turns and comes to its end. -/
theorem run_ends (m : Machine) : ∃ reports, m.Ends [] reports m.run := by
  obtain ⟨n, hrun⟩ := m.run_completes
  exact hrun.ends

theorem get_of_indexOf?_head {b : Branch} {bs : List Branch} (hlive : m.live = b :: bs)
    {i : Fin m.live.length} (hi : m.indexOf? b.id = some i) : m.live.get i = b := by
  have hzero : (i : Nat) = 0 := by
    by_contra hne
    have hpos : 0 < m.live.length := Nat.zero_lt_of_lt i.isLt
    have hbefore := (List.findFinIdx?_eq_some_iff.1 hi).2 ⟨0, hpos⟩ (Nat.pos_of_ne_zero hne)
    simp [hlive] at hbefore
  simp [hzero, hlive]

/-- How a run begins: it stops at once, before the first live branch, or gives that one a turn. -/
theorem Ends.first {r : Machine × RunOutcome} (h : m.Ends [] reports r) {b : Branch}
    {bs : List Branch} (hlive : m.live = b :: bs) :
    (∃ line, m.hit? b = some line ∧ reports = [] ∧
      r = ({ m with current := some b.id, paused := some (b.id, line) }, .breakpoint b.id line)) ∨
    (m.hit? b = none ∧ ∃ i rest, m.live.get i = b ∧ reports = (m.stepAt i).2 :: rest) := by
  have hids : m.live.map Branch.id = b.id :: bs.map Branch.id := by rw [hlive, List.map_cons]
  have hsome := indexOf?_head hlive
  cases h with
  | finished hadv hnil =>
    cases hadv with
    | here => cases hlive.symm.trans hnil
    | round _ hadv =>
      rw [hids] at hadv
      cases hadv with
      | gone hgone => simp [hgone] at hsome
      | turn hi hhit =>
        have hget := get_of_indexOf?_head hlive hi
        exact .inr ⟨hget ▸ hhit, _, _, hget, rfl⟩
  | stopped hadv hi' hhit' =>
    cases hadv with
    | round _ hadv =>
      rw [hids] at hadv
      cases hadv with
      | here =>
        have hget := get_of_indexOf?_head hlive hi'
        exact .inl ⟨_, hget ▸ hhit', rfl, rfl⟩
      | gone hgone => simp [hgone] at hsome
      | turn hi hhit =>
        have hget := get_of_indexOf?_head hlive hi
        exact .inr ⟨hget ▸ hhit, _, _, hget, rfl⟩
/-- Before each turn of a run its branch does not stand before a breakpoint, or is let go on. -/
theorem Advances.split {ids ids' : List BranchId} {done rest : List Report} {report : Report}
    (h : m.Advances ids (done ++ report :: rest) m' ids') :
    ∃ m₁ id ids₁ i, m.Advances ids done m₁ (id :: ids₁) ∧ m₁.indexOf? id = some i ∧
      m₁.hit? (m₁.live.get i) = none ∧ report = (m₁.stepAt i).2 := by
  generalize hall : done ++ report :: rest = all at h
  induction h generalizing done with
  | here => simp at hall
  | round hlive _ ih =>
    obtain ⟨m₁, id, ids₁, i, hadv, hmoment⟩ := ih hall
    exact ⟨m₁, id, ids₁, i, .round hlive hadv, hmoment⟩
  | gone hgone _ ih =>
    obtain ⟨m₁, id, ids₁, i, hadv, hmoment⟩ := ih hall
    exact ⟨m₁, id, ids₁, i, .gone hgone hadv, hmoment⟩
  | turn hi hnone _ ih =>
    cases done with
    | nil =>
      cases hall
      exact ⟨_, _, _, _, .here, hi, hnone, rfl⟩
    | cons x done =>
      obtain ⟨rfl, htail⟩ := List.cons.inj hall
      obtain ⟨m₁, id, ids₁, j, hadv, hmoment⟩ := ih htail
      exact ⟨m₁, id, ids₁, j, .turn hi hnone hadv, hmoment⟩

end Machine

end Teal
