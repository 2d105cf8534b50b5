-- The two limits that the whole library shares.

namespace SwitchingAlgebra

/-- The deepest nesting of expressions that is evaluated, rendered or parsed. -/
def maxNestingDepth : Nat := 256

/-- The most inputs whose assignments a table lists. -/
def maxTableInputs : Nat := 20

end SwitchingAlgebra
