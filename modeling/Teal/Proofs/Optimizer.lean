import Teal.Catalog.Standard
import Teal.Proofs.Optimizer.Merge
/-!
# The optimizer keeps the meaning of a listing

Every pass aligns its result with the listing it is given, and keeps labels declared at most once,
so any number of passes after one another keeps the meaning.

Labels must be declared at most once to begin with: a pass may otherwise delete the first of two
declarations and so move the target of a jump.
-/

namespace Teal.Optimizer

/-- What every pass keeps of a listing, any passes after one another keep. -/
theorem passes_induction {P : Listing → Prop}
    (hpass : ∀ {l : Listing}, P l → ∀ pass : Pass, P (pass.apply l)) (passes : List Pass)
    {l : Listing} (hl : P l) : P (passes.foldl (fun l pass => pass.apply l) l) := by
  induction passes generalizing l with
  | nil => exact hl
  | cons pass rest ih => exact ih (hpass hl pass)

/-- What every pass keeps of a listing, the optimizer keeps. -/
theorem optimize_induction {P : Listing → Prop}
    (hpass : ∀ {l : Listing}, P l → ∀ pass : Pass, P (pass.apply l)) {l : Listing} (hl : P l) :
    P l.optimize := by
  have hrounds (n : Nat) {l : Listing} (hl : P l) : P (rounds n l) := by
    induction n generalizing l with
    | zero => exact hl
    | succ n ih =>
      simp only [rounds]
      split
      · exact passes_induction hpass Pass.all hl
      · exact ih (passes_induction hpass Pass.all hl)
  exact hrounds maxRounds hl

theorem Pass.preserves (catalog : Catalog) {l : Listing} (hl : l.Unambiguous) (pass : Pass) :
    Preserves catalog l (pass.apply l) := by
  cases pass with
  | unusedLabels => exact (trims_removeUnusedLabels l).alignment.preserves catalog
  | deadCode => exact (trims_removeDeadCode l).alignment.preserves catalog
  | redundantBranches =>
    have hahead := branchesAhead_of_unambiguous hl
    exact (trims_removeRedundantBranches hahead).alignment.preserves catalog
  | mergeLabels => exact (trims_mergeLabels hl).alignment.preserves catalog

theorem Pass.unambiguous {l : Listing} (hl : l.Unambiguous) (pass : Pass) :
    (pass.apply l).Unambiguous := by
  cases pass with
  | unusedLabels => exact hl.sublist (declaredLabels_sublist (dropLabels_sublist _ l.ops))
  | deadCode => exact hl.sublist (declaredLabels_sublist (dropDead_sublist false l.ops))
  | redundantBranches => exact hl.sublist (declaredLabels_sublist (dropBranches_sublist l.ops))
  | mergeLabels =>
    have hops : declaredLabels (Optimizer.mergeLabels l).ops =
        declaredLabels (collapse none l.ops).1 := declaredLabels_map_retarget _ _
    rw [Listing.Unambiguous, Pass.apply, hops]
    exact hl.sublist (declaredLabels_sublist (collapse_sublist none l.ops))

theorem optimize_preserves (catalog : Catalog) {l : Listing} (hl : l.Unambiguous) :
    Preserves catalog l l.optimize := by
  have hkept : Preserves catalog l l.optimize ∧ l.optimize.Unambiguous := by
    refine optimize_induction (P := fun l' => Preserves catalog l l' ∧ l'.Unambiguous) ?_
      ⟨.refl catalog l, hl⟩
    rintro l' ⟨hpres, hl'⟩ pass
    exact ⟨hpres.trans (pass.preserves catalog hl'), pass.unambiguous hl'⟩
  exact hkept.1

/-- Where every label is declared at most once, each pass keeps the meaning of the listing, and so
does the optimizer. -/
theorem meaning_preserved (catalog : Catalog) (l : Listing) (hl : l.Unambiguous) :
    (∀ pass : Pass, Preserves catalog l (pass.apply l)) ∧ Preserves catalog l l.optimize :=
  ⟨Pass.preserves catalog hl, optimize_preserves catalog hl⟩

theorem meaning_preserved_of_call :
    let l : Listing :=
      { ops := [.callsub 1, .ret, .label 0, .label 1, .branch .always 2, .label 2, .int .push 1,
          .retsub] }
    l.Unambiguous ∧ l.optimize.size < l.size ∧ Preserves .standard l l.optimize :=
  ⟨by decide, by decide, (meaning_preserved .standard _ (by decide)).2⟩

end Teal.Optimizer
