-- What an expression remembers of its own past: the text it had before it was first
-- simplified, the steps of simplification since, and the warnings met while it was built.
import SwitchingAlgebra.Operator
import SwitchingAlgebra.Text.Layout

namespace SwitchingAlgebra

open Text

/-- A step of a simplification, with what the log says of it. -/
inductive Step where
  /-- A simplification begins for the first time. -/
  | start
  /-- The operands of a term were sorted; the first two names that stood the wrong
  way round. -/
  | swapInputs (first second : String)
  /-- The operands of a term were sorted, and only nested ones stood too early. -/
  | moveNested
  /-- Repeated operands of a term were dropped. -/
  | removeDuplicates (labels : List String)
  /-- Two terms with one operator became one. -/
  | combine (op : Operator)
  /-- Operands were absorbed. -/
  | absorb (op : Operator) (labels : List String)
  /-- A common operand was factored out. -/
  | distribute
  /-- An input that nothing refers to was dropped. -/
  | removeInput (name : String)
  deriving DecidableEq, Repr

/-- How the log names a step. -/
def Step.text : Step → String
  | .start => "Simplifying boolean equation:"
  | .swapInputs a b => "Swap inputs " ++ inQuotes a ++ " ⇆ " ++ inQuotes b
  | .moveNested => "Move nested expressions after inputs"
  | .removeDuplicates labels =>
    "Remove duplicate" ++ pluralEnding labels.length ++ " " ++
      ", ".intercalate (labels.map inQuotes)
  | .combine op => "Combine " ++ op.name ++ "s"
  | .absorb op labels =>
    op.name ++ " absorption of " ++ ", ".intercalate (labels.map inQuotes)
  | .distribute => "Apply distributive law"
  | .removeInput name => "Removed obsolete input " ++ inQuotes name

/-- One entry of the change log: a step, and the text of the expression after it. -/
structure Change where
  step : Step
  formula : String
  deriving DecidableEq, Repr

/-- The entry on one line, the step in a column of its own. -/
def Change.text (c : Change) : String := "› " ++ padRight 30 c.step.text ++ " ⇒ " ++ c.formula

/-- Something that may surprise, recorded beside a result. -/
inductive Warning where
  /-- A `NOT` term was given operands. -/
  | impreciseNot (operands : Nat)
  /-- A cell of a truth table holds no value. -/
  | unresolvedCell (output : String) (row : Nat)
  deriving DecidableEq, Repr

/-- How a warning reads. -/
def Warning.message : Warning → String
  | .impreciseNot operands =>
    s!"NOT with {operands} explicit operand(s) might not be accurate for multi-term expressions"
  | .unresolvedCell output row =>
    s!"Output '{output}' is unresolved in row {row} (NAND, NOR and XNOR chains are not fully supported)"

/-- The memory of an expression. -/
structure Journal where
  /-- The text before the first simplification. -/
  firstText : Option String := none
  changes : List Change := []
  warnings : List Warning := []
  deriving DecidableEq, Repr

end SwitchingAlgebra
