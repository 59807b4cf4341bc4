import Teal.Proofs.Machine.Budget
import Teal.Proofs.Machine.Resumption
/-!
# More budget

Two machines that differ only in how much their branches may spend do the same until the poorer one
runs short. `Branch.Richer` and `Machine.Richer` say that they differ in nothing else. A turn of the
poorer branch that does not end for lack of budget is a turn of the richer branch, with the same
reports and the same branches forked off: `Branch.Richer.turn`, `Machine.Richer.stepAt`. The two
machines look up the same branches, so the loop of a run goes through the same turns on both:
`Advances.richer`.

That a branch was retired for lack of budget can be seen at the end of the run, because no retired
branch is ever removed. So a run that leaves none such is the run of every richer machine as well.
-/

namespace Teal

/-! ## Turns -/

/-- `b'` is the branch `b` but for its budget, which is no smaller. -/
structure Branch.Richer (b b' : Branch) : Prop where
  same : { b with budget := b'.budget } = b'
  budget : b.budget ≤ b'.budget

/-- Both turns do the same, and leave one branch richer than the other. -/
structure Turn.Richer (t t' : Turn) : Prop where
  branch : t.branch.Richer t'.branch
  scratch : t'.scratch = t.scratch
  executed : t'.executed = t.executed
  others : t'.others = t.others
  halt : t'.halt = t.halt

namespace Branch.Richer

variable {b b' : Branch}

theorem pc (h : b.Richer b') : b'.pc = b.pc := by
  rw [← h.same]

theorem id (h : b.Richer b') : b'.id = b.id := by
  rw [← h.same]

theorem thread (h : b.Richer b') : b'.thread = b.thread := by
  rw [← h.same]

theorem child (h : b.Richer b') (id : BranchId) (pc : Nat) :
    (b.child id pc).Richer (b'.child id pc) := by
  obtain ⟨hsame, hle⟩ := h
  refine ⟨?_, hle⟩
  rw [← hsame]
  rfl

theorem retire (h : b.Richer b') (halt : Halt) : (b.retire halt).Richer (b'.retire halt) := by
  obtain ⟨hsame, hle⟩ := h
  refine ⟨?_, hle⟩
  rw [← hsame]
  rfl

theorem charge (h : b.Richer b') (catalog : Catalog) (traced : Bool) (pc : Nat) (op : Op LabelId)
    (thread : Thread) :
    (b.charge catalog traced pc op thread).Richer (b'.charge catalog traced pc op thread) := by
  obtain ⟨hsame, hle⟩ := h
  refine ⟨?_, Nat.sub_le_sub_right hle _⟩
  rw [← hsame]
  rfl

theorem goOn (h : b.Richer b') {scratch : Scratch} {executed pc : Nat} {others : List Nat}
    (hpaid : (b.goOn scratch executed pc others).halt ≠ some .exhausted) :
    (b.goOn scratch executed pc others).Richer (b'.goOn scratch executed pc others) := by
  obtain ⟨hsame, hle⟩ := h
  have hne : b.budget ≠ 0 := by
    intro hzero
    exact hpaid (if_pos hzero)
  have hne' : b'.budget ≠ 0 := by
    omega
  refine ⟨⟨?_, hle⟩, rfl, rfl, rfl, ?_⟩
  · rw [← hsame]
    rfl
  · exact (if_neg hne').trans (if_neg hne).symm

/-- A turn that the poorer branch can pay for is a turn of the richer one. -/
theorem turn (h : b.Richer b') {l : Listing} {catalog : Catalog} {traced : Bool} {scratch : Scratch}
    (hpaid : (b.turn l catalog traced scratch).halt ≠ some .exhausted) :
    (b.turn l catalog traced scratch).Richer (b'.turn l catalog traced scratch) := by
  have hne : b.budget ≠ 0 := by
    intro hzero
    exact hpaid (by rw [turn_of_spent hzero])
  have hne' : b'.budget ≠ 0 := by
    have hle := h.budget
    omega
  revert hpaid
  simp only [Branch.turn, if_neg hne, if_neg hne', h.pc, h.thread]
  split
  · intro _
    exact ⟨h, rfl, rfl, rfl, rfl⟩
  · rename_i pc op _
    split
    · intro _
      exact ⟨h.charge catalog traced pc op _, rfl, rfl, rfl, rfl⟩
    · intro _
      exact ⟨h.charge catalog traced pc op _, rfl, rfl, rfl, rfl⟩
    · exact (h.charge catalog traced pc op _).goOn
    · exact (h.charge catalog traced pc op _).goOn

end Branch.Richer

namespace Machine

/-! ## Machines -/

/-- The machines differ in the budget that branches start with, which branch is current, and the
budgets of their branches, each of which is no smaller in `m'`. -/
structure Richer (m m' : Machine) : Prop where
  listing : m'.listing = m.listing
  catalog : m'.catalog = m.catalog
  maxBranches : m'.config.maxBranches = m.config.maxBranches
  trace : m'.config.trace = m.config.trace
  scratch : m'.scratch = m.scratch
  nextId : m'.nextId = m.nextId
  breakpoints : m'.breakpoints = m.breakpoints
  paused : m'.paused = m.paused
  live : List.Forall₂ Branch.Richer m.live m'.live
  retired : List.Forall₂ Branch.Richer m.retired m'.retired

variable {m m' : Machine}

theorem map_id_of_richer {bs bs' : List Branch} (h : List.Forall₂ Branch.Richer bs bs') :
    bs'.map Branch.id = bs.map Branch.id := by
  induction h with
  | nil => rfl
  | cons hb _ ih => rw [List.map_cons, List.map_cons, hb.id, ih]

theorem findFinIdx?_of_richer {bs bs' : List Branch} (h : List.Forall₂ Branch.Richer bs bs')
    (id : BranchId) :
    (bs'.findFinIdx? (·.id == id)).map Fin.val = (bs.findFinIdx? (·.id == id)).map Fin.val := by
  rw [← List.findIdx?_eq_map_findFinIdx?_val, ← List.findIdx?_eq_map_findFinIdx?_val]
  have hids := map_id_of_richer h
  have hmap : ∀ cs : List Branch,
      cs.findIdx? (·.id == id) = (cs.map Branch.id).findIdx? (· == id) := by
    intro cs
    rw [List.findIdx?_map]
    rfl
  rw [hmap, hmap, hids]

namespace Richer

theorem get (h : m.Richer m') {i : Fin m.live.length} {i' : Fin m'.live.length}
    (hi : i.val = i'.val) : (m.live.get i).Richer (m'.live.get i') := by
  rcases Comparison.forall₂_getElem? h.live i with ⟨b, b', hb, hb', hrich⟩ | ⟨hnone, -⟩
  · rw [hi] at hb'
    rw [List.get_eq_getElem, List.get_eq_getElem]
    rw [List.getElem?_eq_getElem i.isLt, Option.some.injEq] at hb
    rw [List.getElem?_eq_getElem i'.isLt, Option.some.injEq] at hb'
    rw [hb, hb']
    exact hrich
  · exact absurd i.isLt (Nat.not_lt.2 (List.getElem?_eq_none_iff.1 hnone))

theorem indexOf? (h : m.Richer m') (id : BranchId) :
    (m'.indexOf? id).map Fin.val = (m.indexOf? id).map Fin.val :=
  findFinIdx?_of_richer h.live id

theorem hit? (h : m.Richer m') {b b' : Branch} (hb : b.Richer b') : m'.hit? b' = m.hit? b := by
  rw [Machine.hit?, Machine.hit?, h.listing, h.breakpoints, h.paused, hb.pc, hb.id]

theorem children (h : m.Richer m') {b b' : Branch} (hb : b.Richer b') (pcs : List Nat) :
    List.Forall₂ Branch.Richer (m.children b pcs) (m'.children b' pcs) := by
  rw [Machine.children, Machine.children, h.maxBranches, h.nextId,
    List.forall₂_map_left_iff, List.forall₂_map_right_iff]
  exact List.forall₂_same.2 fun _ _ => hb.child _ _

/-- A turn that is paid for is the same on the richer machine. -/
theorem stepAt (h : m.Richer m') {i : Fin m.live.length} {i' : Fin m'.live.length}
    (hi : i.val = i'.val) (hpaid : (m.stepAt i).2.halted ≠ some .exhausted) :
    (m.stepAt i).1.Richer (m'.stepAt i').1 ∧ (m'.stepAt i').2 = (m.stepAt i).2 := by
  have hget := h.get hi
  have hturn : (m.turnAt i).Richer (m'.turnAt i') := by
    rw [turnAt, turnAt, h.listing, h.catalog, h.trace, h.scratch]
    exact hget.turn hpaid
  simp only [Machine.stepAt]
  rw [← turnAt, ← turnAt]
  generalize m.turnAt i = t at hturn ⊢
  generalize m'.turnAt i' = t' at hturn ⊢
  obtain ⟨hbranch, hscratch, hexecuted, hothers, hhalt⟩ := hturn
  rw [hscratch, hexecuted, hothers, hhalt, hget.id]
  have hforked := h.children hbranch t.others
  have hlength := hforked.length_eq
  refine ⟨?_, ?_⟩
  · cases t.halt with
    | none =>
      exact {
        h with
        scratch := rfl
        nextId := by simp only [h.nextId, hlength]
        paused := by simp only [h.paused]
        live := List.rel_append (hi ▸ Comparison.forall₂_set h.live hbranch i) hforked
        retired := List.rel_append h.retired .nil }
    | some halt =>
      exact {
        h with
        scratch := rfl
        nextId := by simp only [h.nextId, hlength]
        paused := by simp only [h.paused]
        live := List.rel_append (hi ▸ Comparison.forall₂_eraseIdx h.live i) hforked
        retired := List.rel_append h.retired (.cons (hbranch.retire _) .nil) }
  · rw [map_id_of_richer hforked]

end Richer

/-! ## Runs -/

variable {reports : List Report} {ids ids' : List BranchId}

/-- A turn in which a branch stops leaves it among the retired ones. -/
theorem Proceeds.halt_mem_retired (h : m.Proceeds reports m') {x : Report} (hx : x ∈ reports)
    {halt : Halt} (hhalt : x.halted = some halt) : ∃ c ∈ m'.retired, c.halt = some halt := by
  induction h with
  | refl => exact absurd hx List.not_mem_nil
  | @turn m _ _ i h ih =>
    rcases List.mem_cons.1 hx with rfl | hx
    · refine ⟨(m.turnAt i).branch.retire halt, h.retired.subset ?_, rfl⟩
      rw [show (m.stepAt i).2.halted = (m.turnAt i).halt from rfl] at hhalt
      rw [turnAt] at hhalt ⊢
      simp only [Machine.stepAt, hhalt]
      exact List.mem_append_right _ List.mem_cons_self
    · exact ih hx
  | copy _ _ _ ih | view _ _ _ ih => exact ih hx

/-- As long as every turn is paid for, the loop of a run makes the same turns on the richer
machine. -/
theorem Advances.richer {next : Machine} (h : m.Advances ids reports next ids')
    (hpaid : ∀ x ∈ reports, x.halted ≠ some .exhausted) (hrich : m.Richer m') :
    ∃ next', m'.Advances ids reports next' ids' ∧ next.Richer next' := by
  induction h generalizing m' with
  | here => exact ⟨m', .here, hrich⟩
  | @round m _ _ _ hlive _ ih =>
    obtain ⟨next', hadv, hnext⟩ := ih hpaid hrich
    refine ⟨next', .round ?_ ?_, hnext⟩
    · intro hnil
      have hempty := hrich.live
      rw [hnil, List.forall₂_nil_right_iff] at hempty
      exact hlive hempty
    · rw [map_id_of_richer hrich.live]
      exact hadv
  | @gone m id _ _ _ _ hgone _ ih =>
    obtain ⟨next', hadv, hnext⟩ := ih hpaid hrich
    have hgone' := hrich.indexOf? id
    rw [hgone, Option.map_none, Option.map_eq_none_iff] at hgone'
    exact ⟨next', .gone hgone' hadv, hnext⟩
  | @turn m id _ i _ _ _ hi hhit _ ih =>
    obtain ⟨hfirst, hrest⟩ := List.forall_mem_cons.1 hpaid
    have hi' := hrich.indexOf? id
    rw [hi, Option.map_some, Option.map_eq_some_iff] at hi'
    obtain ⟨i', hi', hplace⟩ := hi'
    obtain ⟨hstep, hreport⟩ := hrich.stepAt hplace.symm hfirst
    obtain ⟨next', hadv, hnext⟩ := ih hrest hstep
    have hhit' : m'.hit? (m'.live.get i') = none := by
      rw [hrich.hit? (hrich.get hplace.symm)]
      exact hhit
    refine ⟨next', ?_, hnext⟩
    rw [← hreport]
    exact .turn hi' hhit' hadv

theorem start_richer (l : Listing) (catalog : Catalog) (config : Config) {budget : Nat}
    (hle : config.budget ≤ budget) :
    (start l catalog config).Richer (start l catalog { config with budget }) where
  listing := rfl
  catalog := rfl
  maxBranches := rfl
  trace := rfl
  scratch := rfl
  nextId := rfl
  breakpoints := rfl
  paused := rfl
  live := .cons ⟨rfl, hle⟩ .nil
  retired := .nil

/-- A run of a fresh machine in which no branch stops for lack of budget is its run with any larger
budget too: it retires the same branches in the same order, which differ in nothing but what they
have left, and leaves the same scratch space. -/
theorem more_budget_same_run (l : Listing) (catalog : Catalog) (config : Config) (budget : Nat)
    (hle : config.budget ≤ budget)
    (hpaid : ∀ b ∈ (start l catalog config).run.1.retired, b.halt ≠ some .exhausted) :
    let run := (start l catalog config).run
    let run' := (start l catalog { config with budget }).run
    run.2 = .finished ∧ run'.2 = .finished ∧ run.1.live = [] ∧ run'.1.live = [] ∧
      List.Forall₂ Branch.Richer run.1.retired run'.1.retired ∧
      run'.1.scratch = run.1.scratch ∧ run'.1.nextId = run.1.nextId := by
  intro run run'
  obtain ⟨hlive, hfinished⟩ := start_run_finished l catalog config
  obtain ⟨hlive', hfinished'⟩ := start_run_finished l catalog { config with budget }
  obtain ⟨reports, hends⟩ := (start l catalog config).run_ends
  refine ⟨hfinished, hfinished', hlive, hlive', ?_⟩
  change run.2 = .finished at hfinished
  change ∀ b ∈ run.1.retired, _ at hpaid
  change Ends _ _ _ run at hends
  clear_value run
  cases hends with
  | stopped => cases hfinished
  | @finished next hadv hnil =>
    have hturns : ∀ x ∈ reports, x.halted ≠ some .exhausted := by
      intro x hx hhalt
      obtain ⟨c, hc, hexhausted⟩ := hadv.proceeds.halt_mem_retired hx hhalt
      exact hpaid c hc hexhausted
    obtain ⟨next', hadv', hrich⟩ := hadv.richer hturns (start_richer l catalog config hle)
    have hnil' : next'.live = [] := by
      have hempty := hrich.live
      rw [hnil, List.forall₂_nil_left_iff] at hempty
      exact hempty
    have hrun : run' = ({ next' with current := none }, .finished) := by
      refine Eq.trans (b := next'.run) hadv'.runFrom_eq ?_
      rw [Machine.run, dif_pos hnil']
    rw [hrun]
    exact ⟨hrich.retired, hrich.scratch, hrich.nextId⟩

/-- A program that writes to scratch space, or does not, and approves. -/
def maybeStore : Listing :=
  { ops := [.instr "txn" ["Fee"], .branch .ifNonZero 0, .int .pseudo 7, .store 0, .label 0,
      .int .pseudo 1, .ret] }

/-- The branch that writes spends its last unit on returning, and is not short of anything. -/
theorem more_budget_same_run_fork :
    let run := (start maybeStore .standard { budget := 6 }).run
    let run' := (start maybeStore .standard { budget := 700 }).run
    (∀ b ∈ run.1.retired, b.halt ≠ some .exhausted) ∧
      run.1.retired.map (fun b => (b.id, b.budget)) = [(1, 2), (0, 0)] ∧
      run'.1.retired.map (fun b => (b.id, b.budget)) = [(1, 696), (0, 694)] ∧
      List.Forall₂ Branch.Richer run.1.retired run'.1.retired ∧
      run'.1.scratch = run.1.scratch := by
  intro run run'
  have hpaid : ∀ b ∈ run.1.retired, b.halt ≠ some .exhausted := by decide +kernel
  obtain ⟨-, -, -, -, hretired, hscratch, -⟩ :=
    more_budget_same_run maybeStore .standard { budget := 6 } 700 (by decide) hpaid
  exact ⟨hpaid, by decide +kernel, by decide +kernel, hretired, hscratch⟩

end Machine

end Teal
