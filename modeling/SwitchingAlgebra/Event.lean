-- What the library reports while it works: a level and a message for each event.
import SwitchingAlgebra.TruthTable

namespace SwitchingAlgebra

/-- How much an event matters, from a warning down to a detail. -/
inductive Level where
  | warn
  | info
  | debug
  | trace
  deriving DecidableEq, Repr

/-- Something worth reporting. -/
inductive Event where
  /-- A `NOT` term was given operands. -/
  | impreciseNot
  /-- An input to be inverted is not bound. -/
  | cannotInvert (name : String)
  /-- Cells of a truth table hold no value. -/
  | unresolvedCells (count : Nat)
  /-- A pass of a simplification begins on an expression with this text. -/
  | passStarted (number : Nat) (text : String)
  /-- A change was logged; `prominent` raises its level. -/
  | changeLogged (change : Change) (prominent : Bool)
  /-- The last pass changed nothing. -/
  | converged (passes : Nat)
  /-- Outputs follow the simplified terms. -/
  | refreshed (count : Nat)
  /-- The output named by the text was named again. -/
  | renamed (old new : String)
  deriving DecidableEq, Repr

namespace Event

/-- The level of an event. -/
def level : Event → Level
  | .impreciseNot | .cannotInvert _ | .unresolvedCells _ => .warn
  | .passStarted _ _ => .trace
  | .changeLogged _ prominent => if prominent then .info else .debug
  | .converged _ | .refreshed _ | .renamed _ _ => .debug

/-- How an event reads. -/
def message : Event → String
  | .impreciseNot =>
    "NOT with an explicit operand might not be accurate for multi-term expressions"
  | .cannotInvert name => s!"Cannot invert unknown input '{name}'"
  | .unresolvedCells count =>
    s!"{count} truth table cell(s) could not be resolved: NAND, NOR and XNOR chains are not fully supported"
  | .passStarted number text => s!"Simplification pass {number} on {text}"
  | .changeLogged change _ => change.text
  | .converged passes => s!"Simplification converged after {passes} pass(es)"
  | .refreshed count => s!"Refreshed {count} output snapshot(s)"
  | .renamed old new => s!"Renamed output '{old}' to '{new}'"

end Event

/-! ## What operations report -/

namespace Expression

/-- What a push reports: a `NOT` with operands that was taken. -/
def pushEvents (e : Expression) (op : Operator) (operands : List Operand) : List Event :=
  match e.push op operands with
  | .ok _ => if op = .not && !operands.isEmpty then [.impreciseNot] else []
  | .error _ => []

/-- What an inversion reports: each name that is not bound. -/
def invertEvents (e : Expression) (names : List String) : List Event :=
  (names.filter (!e.inputs.contains ·)).map .cannotInvert

/-- What a table reports: how many of its cells hold no value. -/
def tableEvents (columns : List OutputColumn) : List Event :=
  match (columns.flatMap (·.warnings)).length with
  | 0 => []
  | count => [.unresolvedCells count]

/-- What a request for the columns of a truth table reports. -/
def truthEvents (e : Expression) : List Event :=
  match e.truthColumns with
  | .ok columns => tableEvents columns
  | .error _ => []

end Expression

end SwitchingAlgebra
