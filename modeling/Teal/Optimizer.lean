import Teal.Optimizer.Pass
/-!
# Optimizer

`optimize` applies the four passes in turn, round after round, until a round changes nothing, at
most 32 rounds.
-/

namespace Teal

namespace Optimizer

/-- The passes, in the order in which a round applies them. -/
inductive Pass where
  | unusedLabels
  | deadCode
  | redundantBranches
  | mergeLabels
deriving DecidableEq, Repr

namespace Pass

/-- The name of a pass. -/
def name : Pass → String
  | .unusedLabels => "unused-labels"
  | .deadCode => "dead-code"
  | .redundantBranches => "redundant-branches"
  | .mergeLabels => "merge-labels"

/-- What a pass does to a listing. -/
def apply : Pass → Listing → Listing
  | .unusedLabels => removeUnusedLabels
  | .deadCode => removeDeadCode
  | .redundantBranches => removeRedundantBranches
  | .mergeLabels => Optimizer.mergeLabels

/-- Every pass, in order. -/
def all : List Pass :=
  [.unusedLabels, .deadCode, .redundantBranches, .mergeLabels]

end Pass

/-- Every pass once. -/
def round (l : Listing) : Listing :=
  Pass.all.foldl (fun l pass => pass.apply l) l

/-- Rounds until one changes nothing, at most the given number. -/
def rounds : Nat → Listing → Listing
  | 0, l => l
  | n + 1, l =>
    let next := round l
    if next.ops = l.ops then next else rounds n next

/-- How many rounds are made at most. -/
def maxRounds : Nat := 32

end Optimizer

/-- The listing after as many rounds as change something, within the limit. -/
def Listing.optimize (l : Listing) : Listing :=
  Optimizer.rounds Optimizer.maxRounds l

end Teal
