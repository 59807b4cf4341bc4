import Teal.Lint.Availability
import Teal.Lint.Flow
import Teal.Lint.Labels
/-!
# Linting

`Listing.lint` checks a listing with every rule that is switched on.
-/

namespace Teal

namespace Lint

/-- Every rule, in the order in which remarks on one line are given. -/
def registry : List Rule :=
  [duplicateLabel, unusedLabel, unreachableCode, redundantBranch, missingLabel, infiniteLoop,
    pragmaPlacement, unknownOpcode, versionAvailability, modeAvailability]

end Lint

/-- The remarks on a listing. -/
def Listing.lint (l : Listing) (catalog : Catalog) (config : Lint.Config) : List Diagnostic :=
  Lint.runRules { listing := l, catalog, config } Lint.registry

end Teal
