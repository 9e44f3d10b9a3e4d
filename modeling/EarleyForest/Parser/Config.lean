/-!
# Settings of the parser
-/

namespace EarleyForest

/-- What a run of the parser may use and what it reports. -/
structure ParserConfig where
  /-- The number of items that the chart may hold in all; without one there is no bound. -/
  maxItems : Option Nat := some 4000000
  /-- Whether an error lists the kinds that would have been accepted. -/
  collectExpected : Bool := true
deriving DecidableEq, Inhabited

/-- The limit, if `count` items are more than it allows. -/
def ParserConfig.exceeded? (config : ParserConfig) (count : Nat) : Option Nat :=
  config.maxItems.filter (· < count)

end EarleyForest
