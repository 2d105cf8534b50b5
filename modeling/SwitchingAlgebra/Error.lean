-- What can go wrong, by cause, and how each cause reads.
import SwitchingAlgebra.Operator
import SwitchingAlgebra.Journal
import SwitchingAlgebra.Text.Quoted

namespace SwitchingAlgebra

/-! ## Building -/

/-- A term was refused because of the number of its operands. -/
inductive ArityError where
  /-- The term holds more than its operator allows. -/
  | tooManyOperands (op : Operator) (given limit : Nat)
  /-- The term follows one with the same operator, and both together hold more than
  two operands. -/
  | chainedBinary (op : Operator) (existing given : Nat)
  deriving DecidableEq, Repr

/-- How a refusal of a term reads. -/
def ArityError.message : ArityError → String
  | .tooManyOperands op given limit =>
    s!"{op.name} accepts at most {limit} operand(s), got {given}"
  | .chainedBinary op existing given =>
    s!"{op.name} is binary: cannot follow a {op.name} term holding {existing} operand(s) with {given} more"

/-! ## Reading a formula -/

/-- What is wrong with a formula. -/
inductive SyntaxFault where
  | emptyFormula
  | missingOperator
  | emptyParentheses
  | unbalancedClosing
  | barWithoutName
  | unexpectedCharacter (c : Char)
  | unclosedOpening
  /-- No reduction applies to what is left of the formula. -/
  | unresolved (text : String)
  /-- A placeholder stands for nothing. -/
  | dangling (place : Nat)
  deriving DecidableEq, Repr

/-- How a fault of a formula reads. -/
def SyntaxFault.message : SyntaxFault → String
  | .emptyFormula => "empty formula"
  | .missingOperator => "missing operator"
  | .emptyParentheses => "empty parentheses"
  | .unbalancedClosing => "unbalanced ')'"
  | .barWithoutName => "negation bar without a name"
  | .unexpectedCharacter c => "unexpected character " ++ Text.inQuotes c.toString
  | .unclosedOpening => "unclosed '('"
  | .unresolved text => "cannot resolve " ++ Text.inQuotes text
  | .dangling place => s!"dangling sub-expression @{place}"

/-- A formula was refused. Positions count characters. -/
inductive ParseError where
  | invalidSyntax (fault : SyntaxFault) (input : String) (position : Option Nat)
  | tooDeeplyNested (input : String) (depth limit : Nat)
  deriving DecidableEq, Repr

/-- How a refusal of a formula reads. -/
def ParseError.message : ParseError → String
  | .invalidSyntax fault input (some position) =>
    s!"Failed to parse boolean formula at position {position}: {fault.message}. Input: " ++
      Text.quoted input
  | .invalidSyntax fault input none =>
    s!"Failed to parse boolean formula: {fault.message}. Input: " ++ Text.quoted input
  | .tooDeeplyNested input depth limit =>
    s!"Parentheses nested {depth} deep exceed the limit of {limit}. Input: " ++
      Text.quoted input

/-! ## Evaluating and simplifying -/

/-- An expression has no value, or a table cannot be listed. -/
inductive EvaluationError where
  /-- A name is bound nowhere. -/
  | unknownInput (name : String)
  | tooDeeplyNested (limit : Nat)
  | tooManyInputs (count limit : Nat)
  deriving DecidableEq, Repr

/-- How a failed evaluation reads. -/
def EvaluationError.message : EvaluationError → String
  | .unknownInput name => s!"Input '{name}' is not bound"
  | .tooDeeplyNested limit => s!"Nested expressions exceed the depth limit of {limit}"
  | .tooManyInputs count limit =>
    s!"Cannot enumerate {count} inputs: at most {limit} are supported"

/-- A simplification was given up. -/
inductive SimplifyError where
  /-- The passes allowed were used up while each still changed something. -/
  | didNotConverge (passes : Nat) (changes : List Change)
  | tooDeeplyNested (depth limit : Nat)
  deriving DecidableEq, Repr

/-- How a simplification that was given up reads. -/
def SimplifyError.message : SimplifyError → String
  | .didNotConverge passes changes =>
    s!"Simplification did not converge after {passes} passes ({changes.length} rewrites recorded)"
  | .tooDeeplyNested depth limit =>
    s!"Expression nested {depth} deep exceeds the simplification limit of {limit}"

/-! ## Any of them -/

/-- Any error of the library. -/
inductive LogicError where
  | parse (e : ParseError)
  | arity (e : ArityError)
  | evaluation (e : EvaluationError)
  | simplify (e : SimplifyError)
  deriving DecidableEq, Repr

/-- An error reads as the one that it wraps. -/
def LogicError.message : LogicError → String
  | .parse e => e.message
  | .arity e => e.message
  | .evaluation e => e.message
  | .simplify e => e.message

end SwitchingAlgebra
