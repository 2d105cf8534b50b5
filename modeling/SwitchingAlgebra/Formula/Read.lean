-- Reading formula notation: operators associate to the left, none binds tighter than
-- another, and a negation belongs to the name, place or group that follows.
import SwitchingAlgebra.Formula
import SwitchingAlgebra.Formula.Token

namespace SwitchingAlgebra.Formula

/-! ## The state of a reading -/

/-- What waits for the next operand at one level of parentheses: the formula and the
operator on its left, and the negations in front of it. -/
structure Waiting where
  left : Option (Formula × Operator)
  negations : Nat
  deriving DecidableEq, Repr

namespace Waiting

/-- Nothing was read yet. -/
def fresh : Waiting := ⟨none, 0⟩

/-- Puts negations in front of a formula. -/
def negate : Nat → Formula → Formula
  | 0, f => f
  | n + 1, f => .not (negate n f)

/-- Takes the operand that was waited for. -/
def take (w : Waiting) (f : Formula) : Formula :=
  match w.left with
  | some (left, op) => .binary op left (negate w.negations f)
  | none => negate w.negations f

end Waiting

/-- Where a reading stands. The levels around the present one wait for it as an operand. -/
inductive Reading where
  /-- An operand has to follow. -/
  | before (here : Waiting) (around : List Waiting)
  /-- An operand was read, and `f` is the formula so far at this level. -/
  | behind (f : Formula) (around : List Waiting)
  deriving DecidableEq, Repr

namespace Reading

/-- Reads one token. -/
def step (r : Reading) (t : Token) : Option Reading :=
  match r, t with
  | .before w around, .name n => some (.behind (w.take (.name n)) around)
  | .before w around, .embedded p => some (.behind (w.take (.embedded p)) around)
  | .before w around, .negation =>
    some (.before { w with negations := w.negations + 1 } around)
  | .before w around, .opening => some (.before .fresh (w :: around))
  | .behind f around, .operator op => some (.before ⟨some (f, op), 0⟩ around)
  | .behind f (w :: around), .closing => some (.behind (w.take (.group f)) around)
  | _, _ => none

/-- The formula, if the reading may end here. -/
def result? : Reading → Option Formula
  | .behind f [] => some f
  | _ => none

end Reading

/-- The formula of a list of tokens. -/
def ofTokens? (ts : List Token) : Option Formula :=
  (ts.foldlM Reading.step (.before .fresh [])).bind Reading.result?

/-- The formula of a text in formula notation. -/
def ofText? (text : String) : Option Formula := (Token.ofText? text).bind ofTokens?

end SwitchingAlgebra.Formula
