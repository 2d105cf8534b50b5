-- The text of an expression: every term but the last stands in parentheses, and a
-- nested expression always does.
import SwitchingAlgebra.Evaluation
import SwitchingAlgebra.Text.Bar

namespace SwitchingAlgebra

/-- How a value reads. -/
def valueText : Option Bool → String
  | some true => "true"
  | some false => "false"
  | none => "?"

/-- An input as text: its name, barred when it is inverted, or its effective value. -/
def inputText (scope : Bindings) (useNames : Bool) (name : String) : String :=
  let b := (scope.get? name).getD .unresolved
  if !useNames then valueText b.value
  else if b.inverted then Text.bar name
  else name

/-- Negates the text so far, or the first operand when there is none. A name takes a
bar, all else the sign. -/
def negatedText (useNames : Bool) (operands : List Operand) (fragments : List String)
    (acc : Option String) : Option String :=
  match acc, operands, fragments with
  | some text, _, _ => some (Operator.not.glyph.toString ++ text)
  | none, .input _ :: _, fragment :: _ =>
    if useNames then some (Text.bar fragment)
    else some (Operator.not.glyph.toString ++ fragment)
  | none, _, fragment :: _ => some (Operator.not.glyph.toString ++ fragment)
  | none, _, [] => none

/-- Joins the text so far and the operands of a term by its operator. -/
def joinedText (op : Operator) (parens : Bool) (fragments : List String)
    (acc : Option String) : Option String :=
  match acc.toList ++ fragments with
  | [] => none
  | pieces =>
    let joined := op.separator.intercalate pieces
    some (if parens then "(" ++ joined ++ ")" else joined)

mutual

/-- The text of an expression under bindings that hold all that can be seen. -/
def Expression.textIn (scope : Bindings) (useNames parens : Bool) (depth : Nat) :
    Expression → String
  | { terms, .. } => (Term.textAll scope useNames parens depth terms none).getD ""

/-- Adds the text of the remaining terms to the text so far. -/
def Term.textAll (scope : Bindings) (useNames parens : Bool) (depth : Nat) :
    List Term → Option String → Option String
  | [], acc => acc
  | ⟨op, operands⟩ :: ts, acc =>
    let fragments := Operand.textAll scope useNames depth operands
    let acc' :=
      if op = .not then negatedText useNames operands fragments acc
      else joinedText op (parens || !ts.isEmpty) fragments acc
    Term.textAll scope useNames parens depth ts acc'

/-- The texts of operands. -/
def Operand.textAll (scope : Bindings) (useNames : Bool) (depth : Nat) :
    List Operand → List String
  | [] => []
  | x :: xs => x.textIn scope useNames depth :: Operand.textAll scope useNames depth xs

/-- The text of an operand. Below the deepest level an ellipsis stands for it. -/
def Operand.textIn (scope : Bindings) (useNames : Bool) (depth : Nat) : Operand → String
  | .input n => inputText scope useNames n
  | .nested e =>
    if depth ≥ maxNestingDepth then "(…)"
    else e.textIn (e.scopeIn scope) useNames true (depth + 1)

end

namespace Expression

/-- The text of an expression. With `useNames` inputs appear by name, otherwise by
their value under the assignment; `parens` puts the last term in parentheses too. -/
def render (e : Expression) (s : Option Assignment) (useNames parens : Bool) : String :=
  let scope := match s with
    | some s => e.scope s
    | none => e.inputs
  e.textIn scope useNames parens 0

/-- The text by names, without parentheses around the last term. -/
def text (e : Expression) : String := e.render none true false

end Expression

/-- The text of an operand by itself, in parentheses when it is nested. -/
def Operand.label : Operand → String
  | .input n => n
  | .nested e => e.render none true true

end SwitchingAlgebra
