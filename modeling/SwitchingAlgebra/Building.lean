-- Building expressions term by term. A new term binds the names that it brings
-- along; what is bound already stays as it is.
import SwitchingAlgebra.Expression
import SwitchingAlgebra.Error

namespace SwitchingAlgebra

/-! ## Appending a term -/

/-- The bindings that an operand brings along: its own name without a value, or all
that a nested expression binds. -/
def Operand.bindInto (m : Bindings) : Operand → Bindings
  | .input n => m.insertNew n .unresolved
  | .nested e => m.merge e.inputs

namespace Expression

/-- Appends a term, whatever the number of its operands. -/
def append (e : Expression) (op : Operator) (operands : List Operand) : Expression :=
  { e with
    inputs := operands.foldl Operand.bindInto e.inputs
    terms := e.terms ++ [⟨op, operands⟩] }

/-- Negates all that was folded so far. -/
def negate (e : Expression) : Expression := e.append .not []

/-- The reason to refuse a term with `given` operands at the end of `terms`. -/
def arityFault? (terms : List Term) (op : Operator) (given : Nat) : Option ArityError :=
  match op.maxOperands? with
  | none => none
  | some limit =>
    if given > limit then some (.tooManyOperands op given limit)
    else if op.isBinaryOnly then
      match terms.getLast? with
      | some last =>
        if last.operator = op && last.operands.length + given > limit then
          some (.chainedBinary op last.operands.length given)
        else none
      | none => none
    else none

/-- Remembers a warning. -/
def warn (e : Expression) (w : Warning) : Expression :=
  { e with journal := { e.journal with warnings := e.journal.warnings ++ [w] } }

/-- Appends a term that is within the limits of its operator. A `NOT` with operands
is taken with a warning. -/
def push (e : Expression) (op : Operator) (operands : List Operand) :
    Except ArityError Expression :=
  match arityFault? e.terms op operands.length with
  | some fault => .error fault
  | none =>
    if op = .not && !operands.isEmpty then
      .ok ((e.warn (.impreciseNot operands.length)).append op operands)
    else .ok (e.append op operands)

/-- An expression of one term. -/
def single (op : Operator) (operands : List Operand) : Except ArityError Expression :=
  empty.push op operands

/-! ## Combining expressions -/

/-- Both sides nested in one new term. -/
def combine (op : Operator) (left right : Expression) : Expression :=
  empty.append op [.nested left, .nested right]

/-- Both hold. -/
def conj (left right : Expression) : Expression := combine .and left right

/-- At least one holds. -/
def disj (left right : Expression) : Expression := combine .or left right

/-- Exactly one holds. -/
def exclusive (left right : Expression) : Expression := combine .xor left right

/-! ## Inputs -/

/-- Assigns a raw value to an input, which is bound first when it is new. -/
def assign (e : Expression) (name : String) (v : Bool) : Expression :=
  { e with inputs := e.inputs.assign name v }

/-- Gives the inversion flag of an input, which is bound first when it is new. -/
def setInverted (e : Expression) (name : String) (flag : Bool) : Expression :=
  { e with inputs := e.inputs.setInverted name flag }

end Expression

end SwitchingAlgebra
