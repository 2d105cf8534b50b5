-- Formulas as trees, and the expression that a formula stands for.
import SwitchingAlgebra.Building

namespace SwitchingAlgebra

/-- A formula over names and over expressions that are put in from outside. -/
inductive Formula where
  | name (n : String)
  /-- An expression from outside, by the name of its place. -/
  | embedded (place : String)
  | group (f : Formula)
  | not (f : Formula)
  | binary (op : Operator) (left right : Formula)
  deriving DecidableEq, Repr

namespace Formula

/-! ## Polarity -/

/-- The names used in one polarity. `after` says that the formula itself is negated.
A negation reaches a name through groups and other negations only. -/
def namesUsed (negated after : Bool) : Formula → List String
  | .name n => if after == negated then [n] else []
  | .embedded _ => []
  | .group f => f.namesUsed negated after
  | .not f => f.namesUsed negated (!after)
  | .binary _ left right => left.namesUsed negated false ++ right.namesUsed negated false

/-- The names used both plain and negated. -/
def mixedNames (f : Formula) : List String :=
  (f.namesUsed true false).filter (f.namesUsed false false).contains

/-- The names used negated only. -/
def invertedNames (f : Formula) : List String :=
  (f.namesUsed true false).filter (!f.mixedNames.contains ·)

/-! ## Building -/

/-- A part of a formula in the two forms that it may be needed in. -/
structure Built where
  operand : Operand
  expression : Expression

/-- A nested expression, in both forms. -/
def Built.ofExpression (e : Expression) : Built := ⟨.nested e, e⟩

/-- Builds a part of a formula; `negated` says that an odd number of negations stand in
front of it. A negated name stays an input, which the whole formula inverts, unless
the name is `mixed`. -/
def build (env : String → Expression) (mixed : List String) : Bool → Formula → Built
  | negated, .name n =>
    let e := Expression.empty.append .and [.input n]
    if negated && mixed.contains n then .ofExpression e.negate else ⟨.input n, e⟩
  | negated, .embedded place =>
    let e := Expression.empty.append .and [.nested (env place)]
    if negated then .ofExpression e.negate else ⟨.nested (env place), e⟩
  | negated, .group f => build env mixed negated f
  | negated, .not f => build env mixed (!negated) f
  | negated, .binary op left right =>
    let e := Expression.empty.append op
      [(build env mixed false left).operand, (build env mixed false right).operand]
    .ofExpression (if negated then e.negate else e)

/-- The expression of a formula. Names that are used negated only are inverted inputs. -/
def toExpression (env : String → Expression) (f : Formula) : Expression :=
  f.invertedNames.foldl (fun e n => e.setInverted n true)
    (build env f.mixedNames false f).expression

end Formula

end SwitchingAlgebra
