import Mathlib.Algebra.GroupWithZero.Nat
import Teal.Proofs.Machine.Reachable
/-!
# What a branch has spent

A branch pays for a line once it has executed it, and the price is cut off where the budget ends.
The lines it has recorded tell what it has paid: its budget is what the costs of these lines leave
of the budget it started with. Branches that are forked off take the recorded lines of their parent
along with what the parent had left, so the sum is right for them too.

A branch has its turn only while it has budget, so before its last line it had not spent all of it.
A branch that stops for lack of budget has none, and one that runs off the end of the listing has
some, since the budget is looked at first.
-/

namespace Teal

/-! ## Costs -/

namespace Listing

/-- What it costs to execute a line. -/
def costAt (l : Listing) (catalog : Catalog) (line : Nat) : Nat :=
  match l.ops[line]? with
  | some op => catalog.cost (op.mnemonic?.getD "")
  | none => 0

/-- What it costs to execute lines one after the other. -/
def spent (l : Listing) (catalog : Catalog) (lines : List Nat) : Nat :=
  (lines.map (l.costAt catalog)).sum

variable {l : Listing} {catalog : Catalog}

@[simp] theorem spent_nil : l.spent catalog [] = 0 := rfl

@[simp] theorem spent_cons (line : Nat) (lines : List Nat) :
    l.spent catalog (line :: lines) = l.costAt catalog line + l.spent catalog lines := by
  simp [spent]

@[simp] theorem spent_reverse (lines : List Nat) :
    l.spent catalog lines.reverse = l.spent catalog lines := by
  simp [spent, List.sum_reverse]

theorem costAt_of_fetch? {i pc : Nat} {op : Op LabelId} (h : l.fetch? i = some (pc, op)) :
    l.costAt catalog pc = catalog.cost (op.mnemonic?.getD "") := by
  simp [costAt, getElem?_of_fetch? h]

/-- Control at a line that executes comes to this line. -/
theorem fetch?_again {i pc : Nat} {op : Op LabelId} (h : l.fetch? i = some (pc, op)) :
    l.fetch? pc = some (pc, op) := by
  rcases l.fetch?_cases i with ⟨-, hnone⟩ | ⟨pc', op', hahead, hsome, -, hdrop⟩
  · cases hnone.symm.trans h
  · cases hsome.symm.trans h
    have hexec := executable_of_ahead hahead
    have hnext : l.nextExecutable pc = some pc := by
      simp [nextExecutable, nextWhere, hdrop, List.findIdx?_cons, hexec]
    simp [fetch?, hnext, getElem?_of_fetch? h]

end Listing

/-! ## Branches -/

namespace Branch

/-- A branch that started with `budget` has paid for the lines it has recorded, and had not spent
all of its budget before the last of them. -/
structure Paid (l : Listing) (catalog : Catalog) (budget : Nat) (b : Branch) : Prop where
  rest : b.budget = budget - l.spent catalog b.trace
  earlier : ∀ lines, lines <:+ b.trace → lines ≠ b.trace → l.spent catalog lines < budget

/-- A branch that stopped because it had come to the end of the listing. -/
def RanOff (l : Listing) (b : Branch) : Prop :=
  (∃ verdict, b.halt = some (.terminated verdict)) ∧ l.fetch? b.pc = none

/-- What is known of the budget of a branch from why it stopped. -/
structure Closed (l : Listing) (b : Branch) : Prop where
  exhausted : b.halt = some .exhausted → b.budget = 0
  ranOff : b.RanOff l → 0 < b.budget
  returned : ∀ verdict, b.halt = some (.terminated verdict) → ¬b.RanOff l →
    ∃ line earlier, b.trace = line :: earlier ∧ l.ops[line]? = some .ret

section Turn
variable {l : Listing} {catalog : Catalog} {budget : Nat} {b : Branch}

theorem Paid.charge (hb : b.Paid l catalog budget) (hpos : b.budget ≠ 0) {pc : Nat}
    {op : Op LabelId} (hfetch : l.fetch? b.pc = some (pc, op)) (thread : Thread) :
    (b.charge catalog true pc op thread).Paid l catalog budget := by
  have hrest := hb.rest
  constructor
  · simp only [Branch.charge, if_true, Listing.spent_cons, Listing.costAt_of_fetch? hfetch]
    omega
  · intro lines hsuffix hne
    simp only [Branch.charge, if_true] at hsuffix hne
    rcases List.suffix_cons_iff.1 hsuffix with rfl | hsuffix
    · exact absurd rfl hne
    · -- The lines before this one had not used up the budget, or there would be no turn.
      by_cases hall : lines = b.trace
      · subst hall
        omega
      · exact hb.earlier lines hsuffix hall

theorem closed_of_running (h : b.halt = none) : b.Closed l := by
  constructor
  · intro hex
    simp [h] at hex
  · rintro ⟨⟨verdict, hv⟩, -⟩
    simp [h] at hv
  · intro verdict hv
    simp [h] at hv

theorem Paid.turn (hb : b.Paid l catalog budget) (scratch : Scratch) :
    let t := b.turn l catalog true scratch
    t.branch.Paid l catalog budget ∧ (t.branch.settle t.halt).Closed l := by
  intro t
  by_cases hzero : b.budget = 0
  · have ht : t = { branch := b, scratch, halt := some .exhausted } :=
      turn_of_spent hzero catalog true scratch
    rw [ht]
    refine ⟨hb, fun _ => hzero, ?_, ?_⟩
    · rintro ⟨⟨verdict, hv⟩, -⟩
      cases hv
    · intro verdict hv
      cases hv
  · have hcases : b.TurnCases l catalog true scratch t := b.turn_cases l catalog true scratch
    clear_value t
    cases hcases with
    | spent hspent => exact absurd hspent hzero
    | left hnone =>
      refine ⟨hb, nofun, fun _ => Nat.pos_of_ne_zero hzero, ?_⟩
      intro verdict hv hnot
      exact absurd ⟨⟨verdict, hv⟩, hnone⟩ hnot
    | @fails pc op fault s hfetch =>
      refine ⟨hb.charge hzero hfetch s.thread, nofun, ?_, ?_⟩
      · rintro ⟨⟨verdict, hv⟩, -⟩
        cases hv
      · intro verdict hv
        cases hv
    | @ends pc op approved s hfetch hout =>
      have hpaid := hb.charge hzero hfetch s.thread
      have hret : op = .ret := by
        cases hout with
        | works _ _ hcont =>
          rcases hcont with ⟨hop, -⟩ | ⟨hlines, -⟩
          · exact hop
          · exact absurd rfl hlines
      subst hret
      refine ⟨hpaid, nofun, ?_, ?_⟩
      · -- Control is still at the line that ended the program.
        rintro ⟨-, hnone⟩
        cases hnone.symm.trans (Listing.fetch?_again hfetch)
      · intro verdict _ _
        exact ⟨pc, b.trace, rfl, Listing.getElem?_of_fetch? hfetch⟩
    | @goes pc op e s next others hfetch =>
      have hpaid := hb.charge hzero hfetch s.thread
      refine ⟨⟨hpaid.rest, hpaid.earlier⟩, ?_, ?_, ?_⟩
      · intro hex
        simpa [goOn, settle] using hex
      · rintro ⟨⟨verdict, hv⟩, -⟩
        simp only [goOn] at hv
        split at hv <;> cases hv
      · intro verdict hv
        simp only [goOn] at hv
        split at hv <;> cases hv

end Turn

end Branch

namespace Machine

variable {l : Listing} {catalog : Catalog} {config : Config} {m : Machine}

theorem Reachable.paid (htrace : config.trace = true) (h : Reachable l catalog config m) :
    ∀ b ∈ m.live ++ m.retired, b.Paid l catalog config.budget ∧ b.Closed l := by
  refine h.branches ?_ ?_ ?_
  · refine ⟨⟨by simp, fun lines hsuffix hne => ?_⟩, Branch.closed_of_running rfl⟩
    exact absurd (List.suffix_nil.1 hsuffix) hne
  · intro b scratch hrunning hb
    rw [htrace]
    intro t
    obtain ⟨hpaid, hclosed⟩ := hb.1.turn scratch
    refine ⟨⟨⟨hpaid.rest, hpaid.earlier⟩, hclosed⟩, fun id pc _ => ?_⟩
    have hsame : t.branch.halt = none :=
      ((b.turn_cases l catalog true scratch).same.2.2).trans hrunning
    exact ⟨⟨hpaid.rest, hpaid.earlier⟩, Branch.closed_of_running hsame⟩
  · intro b id hrunning hb
    exact ⟨⟨hb.1.rest, hb.1.earlier⟩, Branch.closed_of_running hrunning⟩

/-- With lines recorded, the budget of every branch of a reachable machine is what the recorded
lines leave of the budget of the machine, and no earlier part of them costs as much as that. A
branch that has stopped for lack of budget has none, and one that has run off the listing has some;
any other branch that has terminated has executed a `return`. -/
theorem budget_accounts (l : Listing) (catalog : Catalog) (config : Config)
    (htrace : config.trace = true) :
    (∀ commands, Reachable l catalog config ((start l catalog config).performAll commands)) ∧
    ∀ m, Reachable l catalog config m → ∀ b ∈ m.live ++ m.retired,
      b.budget = config.budget - l.spent catalog b.trace ∧
      (∀ lines, lines <+: b.trace.reverse → lines ≠ b.trace.reverse →
        l.spent catalog lines < config.budget) ∧
      (b.halt = some .exhausted → b.budget = 0) ∧
      (b.RanOff l → 0 < b.budget) ∧
      ∀ verdict, b.halt = some (.terminated verdict) → ¬b.RanOff l →
        ∃ line earlier, b.trace = line :: earlier ∧ l.ops[line]? = some .ret := by
  refine ⟨reachable_performAll l catalog config, ?_⟩
  intro m h b hb
  obtain ⟨hpaid, hclosed⟩ := h.paid htrace b hb
  refine ⟨hpaid.rest, ?_, hclosed.exhausted, hclosed.ranOff, hclosed.returned⟩
  intro lines hprefix hne
  -- The trace has the last line first.
  have hsuffix : lines.reverse <:+ b.trace := by
    rw [← List.reverse_prefix, List.reverse_reverse]
    exact hprefix
  have hproper : lines.reverse ≠ b.trace := by
    intro heq
    exact hne (by rw [← heq, List.reverse_reverse])
  simpa using hpaid.earlier lines.reverse hsuffix hproper

/-- A program that hashes what it is given, or does not. -/
def maybeHash : Listing :=
  { ops := [.instr "txn" ["Fee"], .branch .ifNonZero 0, .instr "txn" ["Sender"],
      .instr "sha256" [], .label 0] }

/-- The hash costs more than there is left, so the branch that computes it has nothing left; the
other one runs off with what its two lines have left it. -/
theorem budget_accounts_fork :
    let config : Config := { budget := 10 }
    let m := (start maybeHash .standard config).performAll [.step, .step, .step, .step, .step]
    ∃ hashed skipped, m.retired = [hashed, skipped] ∧
      (hashed.halt = some .exhausted ∧ hashed.trace = [3, 2, 1, 0] ∧ hashed.budget = 0 ∧
        maybeHash.spent .standard [0, 1, 2] < 10 ∧ 10 < maybeHash.spent .standard [0, 1, 2, 3]) ∧
      skipped.RanOff maybeHash ∧ skipped.trace = [1, 0] ∧ skipped.budget = 10 - 2 ∧
        0 < skipped.budget := by
  intro config m
  let hashed := m.retired.get ⟨0, by decide +kernel⟩
  let skipped := m.retired.get ⟨1, by decide +kernel⟩
  have haccounts := budget_accounts maybeHash .standard config rfl
  have hm := haccounts.2 m (haccounts.1 _)
  obtain ⟨hcut, hearlier, -⟩ := hm hashed (List.mem_append_right _ (List.get_mem _ _))
  obtain ⟨hrest, -, -, hoff, -⟩ := hm skipped (List.mem_append_right _ (List.get_mem _ _))
  have hskipped : skipped.RanOff maybeHash := ⟨⟨none, by decide +kernel⟩, by decide +kernel⟩
  refine ⟨hashed, skipped, by decide +kernel, ⟨by decide +kernel, by decide +kernel,
    hcut.trans (by decide +kernel), ?_, by decide +kernel⟩, hskipped, by decide +kernel, ?_,
    hoff hskipped⟩
  · exact hearlier [0, 1, 2] (by decide +kernel) (by decide +kernel)
  · exact hrest.trans (by decide +kernel)

end Machine

end Teal
