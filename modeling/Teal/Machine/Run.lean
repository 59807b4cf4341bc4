import Teal.Machine.Basic
/-!
# Runs

`Machine.run` gives every live branch its turn, round after round, until none is left or one stands
before a breakpoint. It ends because a turn either forks off branches, which the limit bounds, or
leaves less budget among the live branches, or one branch fewer.
-/

namespace Teal

namespace Branch

/-- How many turns a branch can have at most: each of them costs something, and without budget it is
stopped at its next turn. -/
def turnsLeft (b : Branch) : Nat :=
  max 1 b.budget

/-- A turn spends budget, if it does anything. -/
theorem turn_budget_le (l : Listing) (catalog : Catalog) (traced : Bool) (scratch : Scratch)
    (b : Branch) : (b.turn l catalog traced scratch).branch.budget ≤ b.budget := by
  unfold turn
  split
  · exact Nat.le_refl _
  · split
    · exact Nat.le_refl _
    · split <;> exact Nat.sub_le _ _

theorem budget_pos_of_goOn {b : Branch} {scratch : Scratch} {executed pc : Nat} {others : List Nat}
    (h : (b.goOn scratch executed pc others).halt = none) : 0 < b.budget := by
  unfold goOn at h
  split at h
  · cases h
  · omega

/-- A branch that goes on after its turn has spent something and has something left. -/
theorem turn_budget_lt {l : Listing} {catalog : Catalog} {traced : Bool} {scratch : Scratch}
    {b : Branch} (h : (b.turn l catalog traced scratch).halt = none) :
    0 < (b.turn l catalog traced scratch).branch.budget ∧
      (b.turn l catalog traced scratch).branch.budget < b.budget := by
  revert h
  unfold turn
  split
  · intro h; cases h
  · split
    · intro h; cases h
    · rename_i hb _ pc op _
      have hc := catalog.cost_pos (op.mnemonic?.getD "")
      split
      · intro h; cases h
      · intro h; cases h
      all_goals
        intro h
        exact ⟨budget_pos_of_goOn h, Nat.sub_lt (Nat.pos_of_ne_zero hb) hc⟩

end Branch

/-- How a run ended. -/
inductive RunOutcome where
  /-- No branch is left. -/
  | finished
  /-- A branch stands before a breakpoint. -/
  | breakpoint (branch : BranchId) (line : Nat)
deriving DecidableEq, Repr

namespace Machine

/-! ## Why stepping ends -/

/-- How many turns branches can have at most. -/
def turns : List Branch → Nat
  | [] => 0
  | b :: bs => b.turnsLeft + turns bs

/-- The most turns one of the branches can have. -/
def peak : List Branch → Nat
  | [] => 0
  | b :: bs => max b.turnsLeft (peak bs)

/-- How many branches may still be made. -/
def room (m : Machine) : Nat :=
  m.config.maxBranches - m.nextId

/-- How many turns there can be at most: those of the live branches and those of the branches that
may still be made, which have no more than the branch they are made from. -/
def effort (m : Machine) : Nat :=
  turns m.live + m.room * peak m.live

theorem turns_append (as bs : List Branch) : turns (as ++ bs) = turns as + turns bs := by
  induction as with
  | nil => exact (Nat.zero_add _).symm
  | cons a as ih => simp only [List.cons_append, turns, ih, Nat.add_assoc]

theorem turnsLeft_le_peak {b : Branch} {bs : List Branch} (h : b ∈ bs) :
    b.turnsLeft ≤ peak bs := by
  induction h with
  | head bs => exact Nat.le_max_left _ _
  | tail a _ ih => exact Nat.le_trans ih (Nat.le_max_right _ _)

theorem peak_le {bs : List Branch} {n : Nat} (h : ∀ b ∈ bs, b.turnsLeft ≤ n) : peak bs ≤ n := by
  induction bs with
  | nil => exact Nat.zero_le n
  | cons a bs ih =>
    exact Nat.max_le.2 ⟨h a List.mem_cons_self, ih fun b hb => h b (List.mem_cons_of_mem a hb)⟩

theorem turns_le {bs : List Branch} {n : Nat} (h : ∀ b ∈ bs, b.turnsLeft ≤ n) :
    turns bs ≤ bs.length * n := by
  induction bs with
  | nil => exact Nat.zero_le _
  | cons a bs ih =>
    have ha := h a List.mem_cons_self
    have hbs := ih fun b hb => h b (List.mem_cons_of_mem a hb)
    simp only [turns, List.length_cons, Nat.add_mul, Nat.one_mul]
    omega

theorem turns_set_lt {bs : List Branch} {i : Nat} {b : Branch} (hi : i < bs.length)
    (h : b.turnsLeft < bs[i].turnsLeft) : turns (bs.set i b) < turns bs := by
  induction bs generalizing i with
  | nil => exact absurd hi (Nat.not_lt_zero i)
  | cons a bs ih =>
    cases i with
    | zero => exact Nat.add_lt_add_right h _
    | succ i => exact Nat.add_lt_add_left (ih (Nat.lt_of_succ_lt_succ hi) h) _

theorem turns_eraseIdx_lt {bs : List Branch} {i : Nat} (hi : i < bs.length) :
    turns (bs.eraseIdx i) < turns bs := by
  induction bs generalizing i with
  | nil => exact absurd hi (Nat.not_lt_zero i)
  | cons a bs ih =>
    cases i with
    | zero => exact Nat.lt_add_of_pos_left (Nat.le_max_left 1 a.budget)
    | succ i => exact Nat.add_lt_add_left (ih (Nat.lt_of_succ_lt_succ hi)) _

theorem length_children_le (m : Machine) (b : Branch) (pcs : List Nat) :
    (m.children b pcs).length ≤ m.room := by
  simp only [children, room, List.length_map, List.length_zipIdx, List.length_take]
  exact Nat.min_le_left _ _

theorem turnsLeft_of_mem_children {m : Machine} {b c : Branch} {pcs : List Nat}
    (h : c ∈ m.children b pcs) : c.turnsLeft = b.turnsLeft := by
  obtain ⟨⟨pc, id⟩, _, rfl⟩ := List.mem_map.1 h
  rfl

/-- Every turn leaves less to do. -/
theorem stepAt_effort_lt (m : Machine) (i : Fin m.live.length) :
    (m.stepAt i).1.effort < m.effort := by
  have hmem : m.live.get i ∈ m.live := List.get_mem _ _
  have hle := Branch.turn_budget_le m.listing m.catalog m.config.trace m.scratch (m.live.get i)
  have hlt := @Branch.turn_budget_lt m.listing m.catalog m.config.trace m.scratch (m.live.get i)
  simp only [effort, stepAt, room]
  generalize (m.live.get i).turn m.listing m.catalog m.config.trace m.scratch = t at hle hlt ⊢
  have hb : t.branch.turnsLeft ≤ peak m.live :=
    Nat.le_trans (by simp only [Branch.turnsLeft]; omega) (turnsLeft_le_peak hmem)
  have hchildren : ∀ c ∈ m.children t.branch t.others, c.turnsLeft ≤ peak m.live :=
    fun c hc => turnsLeft_of_mem_children hc ▸ hb
  obtain ⟨r, hr⟩ := Nat.exists_eq_add_of_le (m.length_children_le t.branch t.others)
  have hroom : m.config.maxBranches - (m.nextId + (m.children t.branch t.others).length) = r := by
    simp only [room] at hr
    omega
  have main : ∀ kept : List Branch, turns kept < turns m.live →
      (∀ c ∈ kept, c.turnsLeft ≤ peak m.live) →
      turns (kept ++ m.children t.branch t.others) +
          r * peak (kept ++ m.children t.branch t.others) <
        turns m.live + m.room * peak m.live := by
    intro kept hkept hpeak
    have hp : peak (kept ++ m.children t.branch t.others) ≤ peak m.live :=
      peak_le fun c hc => (List.mem_append.1 hc).elim (hpeak c) (hchildren c)
    have hsum := turns_le hchildren
    have hmul := Nat.mul_le_mul_left r hp
    rw [turns_append, hr, Nat.add_mul]
    omega
  rw [hroom]
  cases hh : t.halt with
  | none =>
    refine main _ (turns_set_lt i.isLt ?_) fun c hc => ?_
    · have := hlt hh
      simp only [Branch.turnsLeft, List.get_eq_getElem] at this ⊢
      omega
    · rcases List.mem_or_eq_of_mem_set hc with hc | rfl
      · exact turnsLeft_le_peak hc
      · exact hb
  | some h =>
    exact main _ (turns_eraseIdx_lt i.isLt)
      fun c hc => turnsLeft_le_peak (List.mem_of_mem_eraseIdx hc)

/-! ## Running -/

/-- The breakpoint a branch stands before, unless it was already stopped there. -/
def hit? (m : Machine) (b : Branch) : Option Nat :=
  (m.listing.nextExecutable b.pc).filter fun line =>
    m.breakpoints.contains line && m.paused != some (b.id, line)

/-- Gives the branches of a list their turns, as far as they are live, and stops where one of them
stands before a breakpoint. -/
def round (m : Machine) : List BranchId → Machine × Option (BranchId × Nat)
  | [] => (m, none)
  | id :: ids =>
    match m.indexOf? id with
    | none => m.round ids
    | some i =>
      match m.hit? (m.live.get i) with
      | some line => (m, some (id, line))
      | none => (m.stepAt i).1.round ids

/-- A round leaves no more to do. -/
theorem round_effort_le (m : Machine) (ids : List BranchId) :
    (m.round ids).1.effort ≤ m.effort := by
  induction ids generalizing m with
  | nil => exact Nat.le_refl _
  | cons id ids ih =>
    unfold round
    split
    · exact ih m
    · rename_i i _
      split
      · exact Nat.le_refl _
      · exact Nat.le_of_lt (Nat.lt_of_le_of_lt (ih _) (m.stepAt_effort_lt i))

theorem indexOf?_head {m : Machine} {b : Branch} {bs : List Branch} (h : m.live = b :: bs) :
    (m.indexOf? b.id).isSome := by
  simp [indexOf?, h]

/-- A whole round of a machine with live branches leaves less to do. -/
theorem round_effort_lt {m : Machine} (hlive : m.live ≠ [])
    (hstop : (m.round (m.live.map (·.id))).2 = none) :
    (m.round (m.live.map (·.id))).1.effort < m.effort := by
  obtain ⟨b, bs, h⟩ := List.exists_cons_of_ne_nil hlive
  obtain ⟨i, hi⟩ := Option.isSome_iff_exists.1 (indexOf?_head h)
  have hids : m.live.map (·.id) = b.id :: bs.map (·.id) := by rw [h]; rfl
  rw [hids] at hstop ⊢
  simp only [round, hi] at hstop ⊢
  cases hhit : m.hit? (m.live.get i) with
  | some line => rw [hhit] at hstop; cases hstop
  | none => exact Nat.lt_of_le_of_lt (round_effort_le _ _) (m.stepAt_effort_lt i)

/-- Gives every live branch its turn until none is left or one stands before a breakpoint, which is
then the current one. -/
def run (m : Machine) : Machine × RunOutcome :=
  if hlive : m.live = [] then ({ m with current := none }, .finished)
  else
    match h : m.round (m.live.map (·.id)) with
    | (next, some (id, line)) =>
      ({ next with current := some id, paused := some (id, line) }, .breakpoint id line)
    | (next, none) =>
      have : next.effort < m.effort := by
        have hlt := round_effort_lt hlive (by rw [h])
        rwa [h] at hlt
      next.run
termination_by m.effort

end Machine

end Teal
