-- How far a simplification may go.
import SwitchingAlgebra.Limits

namespace SwitchingAlgebra

/-- Limits of a simplification. -/
structure SimplifyConfig where
  /-- The most passes; without a number the limit grows with the terms. -/
  maxPasses : Option Nat := none
  /-- The deepest nesting that is simplified. -/
  maxDepth : Nat := maxNestingDepth
  /-- Steps are reported at a higher level. -/
  trace : Bool := false
  deriving DecidableEq, Repr

/-- The passes allowed for an expression with this many terms. -/
def SimplifyConfig.passBudget (c : SimplifyConfig) (terms : Nat) : Nat :=
  c.maxPasses.getD (16 + 4 * terms)

end SwitchingAlgebra
