-- The seven operators of switching algebra: their truth functions, how many
-- operands a term of each may hold, and how each is written.

namespace SwitchingAlgebra

/-- The operator of a term. -/
inductive Operator where
  | and
  | or
  | xor
  | nand
  | nor
  | xnor
  | not
  deriving DecidableEq, Repr

namespace Operator

/-! ## Truth functions -/

/-- The truth function on two values. `not` looks at the first value only. -/
def apply : Operator → Bool → Bool → Bool
  | .and, a, b => a && b
  | .or, a, b => a || b
  | .xor, a, b => a != b
  | .nand, a, b => !(a && b)
  | .nor, a, b => !(a || b)
  | .xnor, a, b => a == b
  | .not, a, _ => !a

/-- The operator that absorption and distribution pair this one with. -/
def complement? : Operator → Option Operator
  | .and => some .or
  | .or => some .and
  | _ => none

/-- Two operators are dual when one is `and` and the other is `or`. -/
def isDual (first second : Operator) : Bool := first.complement? == some second

/-! ## Limits on operands -/

/-- An operator that is defined on exactly two values. -/
def isBinaryOnly : Operator → Bool
  | .nand | .nor | .xnor => true
  | .and | .or | .xor | .not => false

/-- The most operands that one term may hold, where there is a limit. -/
def maxOperands? : Operator → Option Nat
  | .and | .or | .xor => none
  | .nand | .nor | .xnor => some 2
  | .not => some 1

/-! ## Written forms -/

/-- Every operator, in the order in which they are listed. -/
def all : List Operator := [.and, .or, .xor, .nand, .nor, .xnor, .not]

/-- The place of an operator in `all`. -/
def index : Operator → Nat
  | .and => 0
  | .or => 1
  | .xor => 2
  | .nand => 3
  | .nor => 4
  | .xnor => 5
  | .not => 6

/-- The name in messages, in capitals. -/
def name : Operator → String
  | .and => "AND"
  | .or => "OR"
  | .xor => "XOR"
  | .nand => "NAND"
  | .nor => "NOR"
  | .xnor => "XNOR"
  | .not => "NOT"

/-- The sign in rendered text. -/
def glyph : Operator → Char
  | .and => '∧'
  | .or => '∨'
  | .xor => '⊕'
  | .nand => '⊼'
  | .nor => '⊽'
  | .xnor => '⊻'
  | .not => '¬'

/-- The sign between two operands, with a space on each side. -/
def separator (op : Operator) : String := " " ++ op.glyph.toString ++ " "

/-- The operator of a capital name. -/
def ofName? (text : String) : Option Operator := all.find? (·.name == text)

/-- The operator of a sign. -/
def ofGlyph? (c : Char) : Option Operator := all.find? (·.glyph == c)

theorem mem_all (op : Operator) : op ∈ all := by
  cases op <;> simp [all]

theorem all_getElem?_index (op : Operator) : all[op.index]? = some op := by
  cases op <;> rfl

theorem ofName?_name (op : Operator) : ofName? op.name = some op := by
  cases op <;> rfl

theorem ofGlyph?_glyph (op : Operator) : ofGlyph? op.glyph = some op := by
  cases op <;> rfl

theorem isDual_comm (first second : Operator) : isDual first second = isDual second first := by
  cases first <;> cases second <;> rfl

end Operator

end SwitchingAlgebra
