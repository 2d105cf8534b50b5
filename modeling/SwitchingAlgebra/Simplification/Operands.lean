-- Laws inside one term: its operands are sorted, and repeated ones dropped.
import SwitchingAlgebra.Rendering

namespace SwitchingAlgebra

/-! ## Sorting -/

namespace Operand

/-- `x` may stand in front of `y`: names ascend, and nested expressions follow them. -/
def mayPrecede : Operand → Operand → Bool
  | .input x, .input y => decide (x ≤ y)
  | .input _, .nested _ => true
  | .nested _, .input _ => false
  | .nested _, .nested _ => true

/-- Each operand may stand in front of the next. -/
def inOrder : List Operand → Bool
  | x :: y :: rest => x.mayPrecede y && inOrder (y :: rest)
  | _ => true

/-- Two neighbouring names that stand the wrong way round. -/
def swapped? : Operand → Operand → Option (String × String)
  | .input a, .input b => if b < a then some (a, b) else none
  | _, _ => none

/-- The first two neighbouring names that stand the wrong way round. -/
def firstSwapped? : List Operand → Option (String × String)
  | x :: y :: rest => (swapped? x y).or (firstSwapped? (y :: rest))
  | _ => none

end Operand

namespace Term

/-- Sorts the operands, unless they stand in order already. -/
def sort (t : Term) : Term × List Step :=
  if Operand.inOrder t.operands then (t, [])
  else
    (⟨t.operator, t.operands.mergeSort Operand.mayPrecede⟩,
      match Operand.firstSwapped? t.operands with
      | some (a, b) => [.swapInputs a b]
      | none => [.moveNested])

end Term

/-! ## Repeated operands -/

namespace Operand

/-- One of the operands is the same as `x`. -/
def isAmong (x : Operand) (xs : List Operand) : Bool := xs.any (·.same x)

/-- The operands that are not the same as an earlier one. -/
def distinct (seen : List Operand) : List Operand → List Operand
  | [] => []
  | x :: xs => if x.isAmong seen then distinct seen xs else x :: distinct (x :: seen) xs

/-- The operands that are the same as an earlier one. -/
def repeated (seen : List Operand) : List Operand → List Operand
  | [] => []
  | x :: xs => if x.isAmong seen then x :: repeated seen xs else repeated (x :: seen) xs

end Operand

namespace Term

/-- Drops repeated operands of an `AND` or an `OR`: `a ∧ a = a` and `a ∨ a = a`. -/
def dropRepeated (t : Term) : Term × List Step :=
  if t.operator = .and || t.operator = .or then
    (⟨t.operator, Operand.distinct [] t.operands⟩,
      match ((Operand.repeated [] t.operands).map Operand.label).eraseDups with
      | [] => []
      | labels => [.removeDuplicates labels])
  else (t, [])

end Term

namespace Expression

/-- Changes every term by itself. -/
def mapTerms (f : Term → Term × List Step) (e : Expression) : Expression × List Step :=
  ({ e with terms := e.terms.map (fun t => (f t).1) }, e.terms.flatMap (fun t => (f t).2))

/-- Sorts the operands of every term. -/
def sortOperands (e : Expression) : Expression × List Step := e.mapTerms Term.sort

/-- Drops repeated operands of every term. -/
def dropRepeated (e : Expression) : Expression × List Step := e.mapTerms Term.dropRepeated

end Expression

end SwitchingAlgebra
