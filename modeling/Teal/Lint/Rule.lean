import Teal.Catalog
import Teal.Diagnostic
import Teal.Listing
/-!
# Lint rules

A rule looks at a listing and makes remarks. `Lint.runRules` collects the remarks of all enabled
rules in the order of their lines; a rule that fails is passed over.
-/

namespace Teal.Lint

/-- What a lint run is asked for. -/
structure Config where
  /-- The kind of program the listing is meant to be, if that is to be checked. -/
  mode : Option Mode := none
  /-- The rules that are switched off. -/
  disabled : List String := []
deriving DecidableEq, Repr

/-- Whether a rule is switched on. -/
def Config.isEnabled (c : Config) (rule : String) : Bool :=
  !c.disabled.contains rule

/-- What a rule may look at. -/
structure Context where
  listing : Listing
  catalog : Catalog
  config : Config

/-- A check with a name. Its check gives nothing when it fails. -/
structure Rule where
  name : String
  check : Context → Option (List Diagnostic)

/-- The remarks of the enabled rules, in the order of their lines. Remarks on one line keep the
order of the rules and the order in which a rule made them. -/
def runRules (context : Context) (rules : List Rule) : List Diagnostic :=
  let enabled := rules.filter (context.config.isEnabled ·.name)
  Diagnostic.sortByLine (enabled.flatMap fun rule => (rule.check context).getD [])

end Teal.Lint
