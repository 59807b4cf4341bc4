import Teal.Catalog.Standard
import Teal.Proofs.Machine.Isolation
import Teal.Proofs.Machine.Moment
/-!
# Turns are shared out fairly

A round of a run goes through the numbers of the branches that were live when it began, while its
turns take branches out of the machine and put new ones in. `Machine.Passes` follows the loop of a
run from moment to moment and counts the rounds. `Moment.Fair` is what holds at each of them: the
turns so far and those to come are those of the branches that were live when the round began, and
every live branch that has had its turn has a history one line longer than those that wait for it.
-/

namespace Teal.Machine

/-- A moment of a run. -/
structure Moment where
  /-- The number of the round; the first one is round 1. -/
  round : Nat
  /-- The machine when the round began. -/
  began : Machine
  /-- The turns of the round so far. -/
  turns : List Report
  /-- The machine now. -/
  now : Machine
  /-- The branches that the round has not come to yet. -/
  left : List BranchId

/-- The beginning of a round. -/
def Moment.opening (round : Nat) (m : Machine) : Moment :=
  { round, began := m, turns := [], now := m, left := m.live.map Branch.id }

/-- The moment after a turn, which is that of the first branch that is left. -/
def Moment.after (x : Moment) (i : Fin x.now.live.length) (left : List BranchId) : Moment :=
  { x with turns := x.turns ++ [(x.now.stepAt i).2], now := (x.now.stepAt i).1, left }

/-- The loop of a run of `m` passes through a moment. -/
inductive Passes (m : Machine) : Moment → Prop
  | first : m.live ≠ [] → Passes m (.opening 1 m)
  /-- The round is over, and there are branches for another one. -/
  | next {x} : Passes m x → x.left = [] → x.now.live ≠ [] →
      Passes m (.opening (x.round + 1) x.now)
  /-- The branch that the round has come to is not live any more. -/
  | gone {x id ids} : Passes m x → x.left = id :: ids → x.now.indexOf? id = none →
      Passes m { x with left := ids }
  | turn {x id ids i} : Passes m x → x.left = id :: ids → x.now.indexOf? id = some i →
      x.now.hit? (x.now.live.get i) = none → Passes m (x.after i ids)

variable {m : Machine} {x : Moment}

/-! ## The moments of a run -/

section Completes
variable {id : BranchId} {ids : List BranchId} {n : Nat} {r : Machine × RunOutcome}

theorem Completes.of_round (h : m.Completes [] n r) (hlive : m.live ≠ []) :
    m.Completes (m.live.map Branch.id) n r := by
  cases h with
  | finished hnil => exact absurd hnil hlive
  | round _ h => exact h

theorem Completes.of_gone (h : m.Completes (id :: ids) n r) (hgone : m.indexOf? id = none) :
    m.Completes ids n r := by
  cases h with
  | gone _ h => exact h
  | stop hi => cases hgone.symm.trans hi
  | turn hi => cases hgone.symm.trans hi

theorem Completes.of_turn (h : m.Completes (id :: ids) n r) {i : Fin m.live.length}
    (hi : m.indexOf? id = some i) (hnone : m.hit? (m.live.get i) = none) :
    ∃ k, (m.stepAt i).1.Completes ids k r := by
  cases h with
  | gone hgone => cases hgone.symm.trans hi
  | stop hi' hhit =>
    cases hi.symm.trans hi'
    cases hnone.symm.trans hhit
  | turn hi' _ h =>
    cases hi.symm.trans hi'
    exact ⟨_, h⟩

end Completes

/-- From every moment that a run passes through the loop goes on to the end of this run. -/
theorem Passes.completes (h : Passes m x) : ∃ n, x.now.Completes x.left n m.run := by
  induction h with
  | first hlive =>
    obtain ⟨n, hn⟩ := m.run_completes
    exact ⟨n, hn.of_round hlive⟩
  | next _ hleft hlive ih =>
    obtain ⟨n, hn⟩ := ih
    rw [hleft] at hn
    exact ⟨n, hn.of_round hlive⟩
  | gone _ hleft hgone ih =>
    obtain ⟨n, hn⟩ := ih
    rw [hleft] at hn
    exact ⟨n, hn.of_gone hgone⟩
  | turn _ hleft hi hnone ih =>
    obtain ⟨n, hn⟩ := ih
    rw [hleft] at hn
    exact hn.of_turn hi hnone

/-- Without breakpoints the last moment of a run is the end of a round that leaves no branch. -/
theorem Completes.passes {now : Machine} {ids : List BranchId} {n : Nat} {r : Machine × RunOutcome}
    (h : now.Completes ids n r) (hbreak : now.breakpoints = .empty) (hx : Passes m x)
    (hnow : x.now = now) (hleft : x.left = ids) :
    ∃ y, Passes m y ∧ y.left = [] ∧ y.now.live = [] ∧
      r = ({ y.now with current := none }, .finished) := by
  induction h generalizing x with
  | finished hlive =>
    subst hnow
    exact ⟨x, hx, hleft, hlive, rfl⟩
  | round hlive _ ih =>
    subst hnow
    exact ih hbreak (hx.next hleft hlive) rfl rfl
  | gone hgone _ ih =>
    subst hnow
    exact ih hbreak (hx.gone hleft hgone) rfl rfl
  | stop _ hhit => cases (hit?_eq_none hbreak _).symm.trans hhit
  | turn hi hnone _ ih =>
    subst hnow
    exact ih hbreak (hx.turn hleft hi hnone) rfl rfl

/-! ## One turn -/

section Turn
variable {i : Fin m.live.length} {c : Branch}

/-- The live branches after a turn: the others as they were, and what the turn has left. -/
theorem live_stepAt_cases (hm : m.Consistent) (hc : c ∈ (m.stepAt i).1.live) :
    (c ∈ m.live ∧ c.id ≠ (m.live.get i).id) ∨ c ∈ (m.turnAt i).leaves m := by
  have hisolates := stepAt_isolates hm i
  by_cases hid : c.id = (m.live.get i).id
  · have hself : c ∈ ((m.stepAt i).1.live ++ (m.stepAt i).1.retired).filter
        (·.id == (m.live.get i).id) :=
      List.mem_filter.2 ⟨List.mem_append_left _ hc, beq_iff_eq.2 hid⟩
    rw [hisolates.self, List.mem_singleton] at hself
    exact .inr (List.mem_cons.2 (.inl hself))
  · have hother : c ∈ (m.stepAt i).1.live.filter (·.id != (m.live.get i).id) :=
      List.mem_filter.2 ⟨hc, bne_iff_ne.2 hid⟩
    rw [hisolates.live] at hother
    rcases List.mem_append.1 hother with hold | hnew
    · exact .inl ⟨(List.mem_filter.1 hold).1, hid⟩
    · exact .inr (List.mem_cons_of_mem _ hnew)

/-- What a turn leaves live has executed a line. -/
theorem length_trace_of_leaves (hm : m.Consistent) (htrace : m.config.trace = true)
    (hc : c ∈ (m.stepAt i).1.live) (hleft : c ∈ (m.turnAt i).leaves m) :
    c.trace.length = (m.live.get i).trace.length + 1 := by
  rcases (m.turnAt_cases i).executed_cases with ⟨-, -, hothers, hhalt⟩ | ⟨line, op, hexec, -⟩
  · -- A branch that executes nothing is retired, and forks nothing off.
    have hrunning := ((stepAt_leads hm i).consistent.live c hc).running
    rcases Turn.mem_leaves hleft with rfl | ⟨id, pc, hpc, -⟩
    · exact absurd hrunning hhalt
    · rw [hothers] at hpc
      exact absurd hpc List.not_mem_nil
  · rw [(m.turnAt_cases i).trace hexec hleft, if_pos htrace, List.length_cons]

/-- A branch that a turn leaves has the number of the branch that had it, or a new one. -/
theorem id_of_leaves (hc : c ∈ (m.turnAt i).leaves m) :
    c.id = (m.live.get i).id ∨ m.nextId ≤ c.id := by
  rcases List.mem_cons.1 hc with rfl | hc
  · exact .inl (m.turnAt_cases i).same.1
  · obtain ⟨id, pc, rfl, hle, -⟩ := mem_children hc
    exact .inr hle

theorem le_of_mem_forked {id : BranchId} (h : id ∈ (m.stepAt i).2.forked) : m.nextId ≤ id := by
  obtain ⟨c, hc, rfl⟩ := List.mem_map.1 h
  obtain ⟨id, pc, rfl, hle, -⟩ := mem_children hc
  exact hle

theorem indexOf?_of_mem (h : c ∈ m.live) : m.indexOf? c.id ≠ none := by
  intro hnone
  have hall := List.findFinIdx?_eq_none_iff.1 hnone c h
  simp at hall

end Turn

/-! ## Rounds -/

/-- What holds at every moment of a run without breakpoints. -/
structure Moment.Fair (x : Moment) : Prop where
  began : x.began.Consistent
  now : x.now.Consistent
  nextId : x.began.nextId ≤ x.now.nextId
  breakpoints : x.now.breakpoints = .empty
  /-- The branches that were live when the round began have had their turns, or will have them. -/
  turns : x.turns.map Report.branch ++ x.left = x.began.live.map Branch.id
  waiting : ∀ id ∈ x.left, ∃ b ∈ x.now.live, b.id = id
  /-- Branches that were forked off in the round have new numbers. -/
  forked : ∀ report ∈ x.turns, ∀ id ∈ report.forked, x.began.nextId ≤ id
  /-- A branch has executed a line in every round, but for this one if it waits for its turn. -/
  history : x.now.config.trace = true → ∀ b ∈ x.now.live,
    (b.id ∈ x.left → b.trace.length + 1 = x.round) ∧ (b.id ∉ x.left → b.trace.length = x.round)

namespace Moment.Fair

theorem opening {round : Nat} (hm : m.Consistent) (hbreak : m.breakpoints = .empty)
    (hhistory : m.config.trace = true → ∀ b ∈ m.live, b.trace.length + 1 = round) :
    (Moment.opening round m).Fair where
  began := hm
  now := hm
  nextId := Nat.le_refl _
  breakpoints := hbreak
  turns := rfl
  waiting _ hid := List.mem_map.1 hid
  forked := nofun
  history htrace b hb :=
    ⟨fun _ => hhistory htrace b hb, fun hnot => absurd (List.mem_map_of_mem hb) hnot⟩

/-- A branch that waits for its turn has a number that was there when the round began. -/
theorem lt_of_mem_left (h : x.Fair) {id : BranchId} (hid : id ∈ x.left) : id < x.began.nextId := by
  have hmem : id ∈ x.began.live.map Branch.id := h.turns ▸ List.mem_append_right _ hid
  obtain ⟨b, hb, rfl⟩ := List.mem_map.1 hmem
  exact h.began.id_lt (List.mem_append_left _ hb)

/-- The branch that has its turn does not wait for another one in the round. -/
theorem not_mem_left (h : x.Fair) {id : BranchId} {ids : List BranchId}
    (hleft : x.left = id :: ids) : id ∉ ids := by
  have hnodup : (x.turns.map Report.branch ++ x.left).Nodup :=
    h.turns ▸ h.began.order.imp Nat.ne_of_lt
  rw [hleft] at hnodup
  exact (List.nodup_cons.1 (List.nodup_append.1 hnodup).2.1).1

theorem turn (h : x.Fair) {id : BranchId} {ids : List BranchId} {i : Fin x.now.live.length}
    (hleft : x.left = id :: ids) (hi : x.now.indexOf? id = some i) : (x.after i ids).Fair := by
  have hid : (x.now.live.get i).id = id := id_of_indexOf? hi
  have hnot := h.not_mem_left hleft
  have hchange : x.now.nextId ≤ (x.now.stepAt i).1.nextId := Nat.le_add_right _ _
  have hwaits : ∀ id' ∈ ids, id' ∈ x.left := fun id' h' => hleft ▸ List.mem_cons_of_mem id h'
  refine ⟨h.began, (stepAt_leads h.now i).consistent, Nat.le_trans h.nextId hchange, h.breakpoints,
    ?_, ?_, ?_, ?_⟩
  · have hturns := h.turns
    rw [hleft] at hturns
    simpa [after, branch_stepAt, ← hid] using hturns
  · intro id' hid'
    obtain ⟨b, hb, rfl⟩ := h.waiting id' (hwaits id' hid')
    refine ⟨b, mem_live_stepAt_of_ne hb ?_, rfl⟩
    rw [branch_stepAt, hid]
    rintro rfl
    exact hnot hid'
  · intro report hreport new hnew
    rcases List.mem_append.1 hreport with hold | hlast
    · exact h.forked report hold new hnew
    · cases List.mem_singleton.1 hlast
      exact Nat.le_trans h.nextId (le_of_mem_forked hnew)
  · intro htrace c hc
    rcases live_stepAt_cases h.now hc with ⟨hold, hne⟩ | hnew
    · have hlength := h.history htrace c hold
      rwa [hleft, List.mem_cons, or_iff_right (hid ▸ hne)] at hlength
    · -- The branch has been waiting, and neither it nor what it forks off does so any more.
      have hself : id ∈ x.left := hleft ▸ List.mem_cons_self
      have hwaited := (h.history htrace _ (List.get_mem x.now.live i)).1 (hid ▸ hself)
      have hdone : c.id ∉ ids := by
        rcases id_of_leaves hnew with heq | hle
        · rw [heq, hid]
          exact hnot
        · intro hmem
          exact absurd (h.lt_of_mem_left (hwaits _ hmem)) (Nat.not_lt.2 (Nat.le_trans h.nextId hle))
      have hlength := length_trace_of_leaves h.now htrace hc hnew
      exact ⟨fun hmem => absurd hmem hdone, fun _ => hlength.trans hwaited⟩

/-- No branch is ahead of the round, and none is more than one line behind. -/
theorem length_trace (h : x.Fair) (htrace : x.now.config.trace = true) {b : Branch}
    (hb : b ∈ x.now.live) : b.trace.length ≤ x.round ∧ x.round ≤ b.trace.length + 1 := by
  obtain ⟨hwaits, hdone⟩ := h.history htrace b hb
  by_cases hmem : b.id ∈ x.left
  · have hlength := hwaits hmem
    omega
  · have hlength := hdone hmem
    omega

end Moment.Fair

theorem Passes.config (h : Passes m x) : x.now.config = m.config := by
  induction h with
  | first => rfl
  | next _ _ _ ih | gone _ _ _ ih | turn _ _ _ _ ih => exact ih

theorem Passes.fair (h : Passes m x) (hm : m.Consistent) (hbreak : m.breakpoints = .empty)
    (hfresh : ∀ b ∈ m.live, b.trace = []) : x.Fair := by
  induction h with
  | first =>
    refine .opening hm hbreak fun _ b hb => ?_
    rw [hfresh b hb]
    rfl
  | next _ hleft _ ih =>
    refine .opening ih.now ih.breakpoints fun htrace b hb => ?_
    have hlength := (ih.history htrace b hb).2 (hleft ▸ List.not_mem_nil)
    rw [hlength]
  | gone _ hleft hgone ih =>
    -- No branch stops but in its own turn.
    obtain ⟨b, hb, rfl⟩ := ih.waiting _ (hleft ▸ List.mem_cons_self)
    exact absurd hgone (indexOf?_of_mem hb)
  | turn _ hleft hi _ ih => exact ih.turn hleft hi

/-- A round that has begun goes on until all its branches have had their turns. -/
theorem Moment.Fair.closes (h : x.Fair) (hx : Passes m x) :
    ∃ y, Passes m y ∧ y.round = x.round ∧ y.began = x.began ∧ x.turns <+: y.turns ∧
      y.left = [] := by
  generalize hids : x.left = ids
  induction ids generalizing x with
  | nil => exact ⟨x, hx, rfl, rfl, List.prefix_rfl, hids⟩
  | cons id ids ih =>
    obtain ⟨b, hb, rfl⟩ := h.waiting _ (hids ▸ List.mem_cons_self)
    obtain ⟨i, hi⟩ := Option.ne_none_iff_exists'.1 (indexOf?_of_mem hb)
    obtain ⟨y, hy, hround, hbegan, hturns, hleft⟩ :=
      ih (h.turn hids hi) (hx.turn hids hi (hit?_eq_none h.breakpoints _)) rfl
    exact ⟨y, hy, hround, hbegan, (List.prefix_append _ _).trans hturns, hleft⟩

/-- A run without breakpoints goes round after round until no branch is left. In each round the
branches that were live when it began have one turn each, in the order of their numbers, and those
forked off in the round have none. So after a round every live branch has executed as many lines as
there were rounds, and at any moment no branch is more than one line ahead of another. -/
theorem run_fair (l : Listing) (catalog : Catalog) (config : Config) :
    let m := start l catalog config
    (∃ x, Passes m x ∧ x.left = [] ∧ x.now.live = [] ∧
      m.run = ({ x.now with current := none }, .finished)) ∧
    ∀ x, Passes m x →
      (∃ n, x.now.Completes x.left n m.run) ∧
      (∃ y, Passes m y ∧ y.round = x.round ∧ y.began = x.began ∧ x.turns <+: y.turns ∧
        y.left = []) ∧
      x.turns.map Report.branch ++ x.left = x.began.live.map Branch.id ∧
      (x.began.live.map Branch.id).Pairwise (· < ·) ∧
      (∀ report ∈ x.turns, ∀ id ∈ report.forked,
        id ∉ x.turns.map Report.branch ∧ id ∉ x.left) ∧
      (config.trace = true →
        (x.left = [] → ∀ b ∈ x.now.live, b.trace.length = x.round) ∧
        ∀ b ∈ x.now.live, ∀ c ∈ x.now.live, b.trace.length ≤ c.trace.length + 1) := by
  intro m
  have hfirst : Passes m (.opening 1 m) := .first nofun
  refine ⟨?_, fun x hx => ?_⟩
  · obtain ⟨n, hrun⟩ := m.run_completes
    exact (hrun.of_round nofun).passes rfl hfirst rfl rfl
  · have hfair := hx.fair (start_valid l catalog config).toConsistent rfl fun b hb => by
      cases List.mem_singleton.1 hb
      rfl
    refine ⟨hx.completes, hfair.closes hx, hfair.turns, hfair.began.order, ?_, ?_⟩
    · intro report hreport id hid
      have hnew := hfair.forked report hreport id hid
      have hnot : id ∉ x.turns.map Report.branch ++ x.left := by
        rw [hfair.turns]
        intro hmem
        obtain ⟨b, hb, rfl⟩ := List.mem_map.1 hmem
        exact absurd (hfair.began.id_lt (List.mem_append_left _ hb)) (Nat.not_lt.2 hnew)
      rw [List.mem_append, not_or] at hnot
      exact hnot
    · intro htrace
      have htraced : x.now.config.trace = true := by rw [hx.config]; exact htrace
      refine ⟨fun hleft b hb => (hfair.history htraced b hb).2 (hleft ▸ List.not_mem_nil), ?_⟩
      intro b hb c hc
      have hb' := hfair.length_trace htraced hb
      have hc' := hfair.length_trace htraced hc
      omega

/-- A condition that is not known, with a line to execute either way. -/
def twoWays : Listing :=
  { ops := [.instr "txn" ["Fee"], .branch .ifNonZero 0, .int .pseudo 1, .label 0, .int .pseudo 2] }

/-- The branch that is forked off in the second round has its first turn in the third, after its
parent. -/
theorem run_fair_of_fork :
    let m := start twoWays .standard {}
    ∃ x, Passes m x ∧ x.round = 3 ∧ x.turns.map Report.branch = [0] ∧ x.left = [1] ∧
      x.now.live.map (·.trace) = [[2, 1, 0], [1, 0]] ∧ x.began.live.map Branch.id = [0, 1] ∧
      ∃ y, Passes m y ∧ y.round = 3 ∧ y.turns.map Report.branch = [0, 1] ∧
        ∀ b ∈ y.now.live, b.trace.length = 3 := by
  intro m
  let x₁ := (Moment.opening 1 m).after ⟨0, by decide⟩ []
  let x₂ := (Moment.opening 2 x₁.now).after ⟨0, by decide +kernel⟩ []
  let x₃ := (Moment.opening 3 x₂.now).after ⟨0, by decide +kernel⟩ [1]
  have hlive₁ : (Moment.opening 1 m).left = [0] := rfl
  have hlive₂ : (Moment.opening 2 x₁.now).left = [0] := by decide +kernel
  have hlive₃ : (Moment.opening 3 x₂.now).left = [0, 1] := by decide +kernel
  have h₁ : Passes m x₁ :=
    .turn (.first (by decide +kernel)) hlive₁ (by decide +kernel) (by decide +kernel)
  have h₂ : Passes m x₂ :=
    .turn (h₁.next rfl (by decide +kernel)) hlive₂ (by decide +kernel) (by decide +kernel)
  have h₃ : Passes m x₃ :=
    .turn (h₂.next rfl (by decide +kernel)) hlive₃ (by decide +kernel) (by decide +kernel)
  obtain ⟨-, hfair⟩ := run_fair twoWays .standard {}
  obtain ⟨-, ⟨y, hy, hround, hbegan, -, hleft⟩, -⟩ := hfair x₃ h₃
  have hbegan₃ : x₃.began.live.map Branch.id = [0, 1] := by decide +kernel
  obtain ⟨-, -, hturns, -, -, hhistory⟩ := hfair y hy
  refine ⟨x₃, h₃, rfl, by decide +kernel, rfl, by decide +kernel, hbegan₃, y, hy, hround, ?_, ?_⟩
  · rwa [hleft, List.append_nil, hbegan, hbegan₃] at hturns
  · have hlength := (hhistory rfl).1 hleft
    rw [hround] at hlength
    exact hlength

end Teal.Machine
