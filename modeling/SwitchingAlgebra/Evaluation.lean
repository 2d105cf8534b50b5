-- The value of an expression: its terms are folded from left to right, and the result
-- so far is the first operand of the next term.
import SwitchingAlgebra.Limits
import SwitchingAlgebra.Building

namespace SwitchingAlgebra

/-! ## Assignments -/

/-- Raw values for names. Of two values for one name the first counts. -/
structure Assignment where
  values : List (String × Bool)
  deriving DecidableEq, Repr

namespace Assignment

/-- No values. -/
def empty : Assignment := ⟨[]⟩

/-- The value of a name. -/
def get? (s : Assignment) (name : String) : Option Bool := s.values.lookup name

/-- A name has a value. -/
def contains (s : Assignment) (name : String) : Bool := (s.get? name).isSome

/-- The values of `s`, and behind them those of `t`. -/
def append (s t : Assignment) : Assignment := ⟨s.values ++ t.values⟩

/-- Assigns the values to inputs; a name that is not bound yet is bound first. -/
def applyTo (s : Assignment) (m : Bindings) : Bindings :=
  s.values.foldr (fun e acc => acc.assign e.1 e.2) m

/-- The values of names in row `k` of a table: the bits of `k`, the first name's bit
the most significant. -/
def rowValues : List String → Nat → List (String × Bool)
  | [], _ => []
  | name :: rest, k => (name, k.testBit rest.length) :: rowValues rest k

/-- The assignment of row `k` of a table over these names. -/
def ofRow (names : List String) (k : Nat) : Assignment := ⟨rowValues names k⟩

end Assignment

/-! ## One term -/

/-- The result of the terms folded so far. -/
inductive Running where
  /-- No term has given a result yet. -/
  | blank
  | known (b : Bool)
  /-- A term gave no definite result, and no later term can mend that. -/
  | unknown
  deriving DecidableEq, Repr

namespace Running

/-- The result of a term that gave `v`. -/
def ofValue : Option Bool → Running
  | some b => .known b
  | none => .unknown

/-- The result as a value. -/
def value : Running → Option Bool
  | .known b => some b
  | .blank => none
  | .unknown => none

end Running

/-- An operator over known values. A binary operator lets a single value through and
has no result for more than two. -/
def Operator.combine (op : Operator) (values : List Bool) : Option Bool :=
  match op with
  | .and | .or | .xor =>
    match values with
    | [] => none
    | b :: bs => some (bs.foldl op.apply b)
  | .nand | .nor | .xnor =>
    match values with
    | [b] => some b
    | [a, b] => some (op.apply a b)
    | _ => none
  | .not => values.head?.map (!·)

/-- An operator over values that may be missing: one that is missing leaves no result. -/
def Operator.reduce (op : Operator) (values : List (Option Bool)) : Option Bool :=
  (values.mapM id).bind op.combine

/-- Folds one term with these operand values into the result so far. `NOT` negates
the result so far, or its own first operand when there is none. A term without
operands changes nothing. -/
def Running.step (op : Operator) (values : List (Option Bool)) (acc : Running) : Running :=
  match op, acc with
  | .not, .known b => .known (!b)
  | .not, .unknown => .unknown
  | .not, .blank =>
    match values with
    | v :: _ => .ofValue (v.map (!·))
    | [] => .blank
  | _, .unknown => .unknown
  | op, .known b => .ofValue (op.reduce (some b :: values))
  | op, .blank => if values.isEmpty then .blank else .ofValue (op.reduce values)

/-! ## The fold -/

/-- The bindings that a nested expression sees: those around it, and its own for names
that are not bound there. -/
def Expression.scopeIn (e : Expression) (outer : Bindings) : Bindings := outer.merge e.inputs

mutual

/-- The value of the terms under bindings that hold all that can be seen, `depth`
levels below the outermost expression. -/
def Expression.fold (scope : Bindings) (depth : Nat) :
    Expression → Except EvaluationError (Option Bool)
  | { terms, .. } =>
    if depth > maxNestingDepth then .error (.tooDeeplyNested maxNestingDepth)
    else (Term.foldAll scope depth terms .blank).map Running.value

/-- Folds a list of terms into the result so far. -/
def Term.foldAll (scope : Bindings) (depth : Nat) :
    List Term → Running → Except EvaluationError Running
  | [], acc => .ok acc
  | ⟨op, operands⟩ :: ts, acc =>
    match Operand.valuesOf scope depth operands with
    | .error err => .error err
    | .ok values => Term.foldAll scope depth ts (acc.step op values)

/-- The values of operands, from left to right. -/
def Operand.valuesOf (scope : Bindings) (depth : Nat) :
    List Operand → Except EvaluationError (List (Option Bool))
  | [] => .ok []
  | x :: xs =>
    match x.valueIn scope depth with
    | .error err => .error err
    | .ok v =>
      match Operand.valuesOf scope depth xs with
      | .error err => .error err
      | .ok vs => .ok (v :: vs)

/-- The value of one operand. -/
def Operand.valueIn (scope : Bindings) (depth : Nat) :
    Operand → Except EvaluationError (Option Bool)
  | .input n =>
    match scope.get? n with
    | some b => .ok b.value
    | none => .error (.unknownInput n)
  | .nested e => e.fold (e.scopeIn scope) (depth + 1)

end

namespace Expression

/-- The inputs with the values of an assignment. -/
def scope (e : Expression) (s : Assignment) : Bindings := s.applyTo e.inputs

/-- The value under an assignment. Names that it leaves out keep the value stored in
the expression. -/
def valueOf (e : Expression) (s : Assignment) : Except EvaluationError (Option Bool) :=
  e.fold (e.scope s) 0

/-- The value under the stored values. -/
def evaluate (e : Expression) : Except EvaluationError (Option Bool) := e.fold e.inputs 0

end Expression

end SwitchingAlgebra
