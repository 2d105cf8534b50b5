-- Reading an expression from text.
import SwitchingAlgebra.Parsing.Validation
import SwitchingAlgebra.Parsing.Reduction

namespace SwitchingAlgebra

namespace Expression

/-- A formula that is a single name, negated or not. -/
def ofLoneName? : List Fragment → Option Expression
  | [.name w] => some (empty.append .and [.input w])
  | [.negation, .name w] => some ((empty.append .and [.input w]).setInverted w true)
  | _ => none

/-- Reads an expression from fragments. -/
def ofFragments (fs : List Fragment) : Except SyntaxFault Expression :=
  let settled := Fragment.settle fs
  match ofLoneName? settled with
  | some e => .ok e
  | none =>
    match Reduction.run (Fragment.mixedNames settled) ⟨settled, []⟩ with
    | .ok e => .ok e
    | .error (.inl k) => .error (.dangling k)
    | .error (.inr left) => .error (.unresolved (Fragment.textAll left))

/-- Reads an expression from text. Binary operators associate to the left, and none
binds tighter than another; a negation belongs to the name or group that follows. -/
def parse (text : String) : Except ParseError Expression :=
  match Validation.validate text with
  | .error (.fault fault position) => .error (.invalidSyntax fault text position)
  | .error (.tooDeep depth) => .error (.tooDeeplyNested text depth maxNestingDepth)
  | .ok () =>
    match ofFragments (Fragment.ofText text) with
    | .ok e => .ok e
    | .error fault => .error (.invalidSyntax fault text none)

end Expression

end SwitchingAlgebra
