-- A report of every completion of a partial assignment.
import SwitchingAlgebra.TruthTable

namespace SwitchingAlgebra

namespace Expression

/-- The inputs that an assignment leaves open, in ascending order. -/
def missingInputs (e : Expression) (s : Assignment) : List String :=
  e.inputs.names.filter (!s.contains ·)

/-- The assignment completed by the bits of `k` for the open inputs. -/
def completion (e : Expression) (s : Assignment) (k : Nat) : Assignment :=
  (Assignment.ofRow (e.missingInputs s) k).append s

/-- The first line: which inputs are open, and how many states follow. -/
def reportHeader (missing : List String) (states : Nat) : String :=
  let lead :=
    if missing.isEmpty then ""
    else
      s!"Missing {missing.length} input{Text.pluralEnding missing.length} (" ++
        ", ".intercalate missing ++ "). "
  lead ++ s!"Resolving {states} possible state{Text.pluralEnding states}:\n"

/-- The line of one state: the expression by values, and its value. `true` is filled
to the width of `false`. -/
def reportLine (e : Expression) (s : Assignment) (value : Option Bool) : String :=
  Text.replaceAll "true" "true " ("\t" ++ e.render (some s) false false ++ " = " ++
    valueText value ++ "\n")

/-- A header, and one line for each completion of the assignment. -/
def report (e : Expression) (s : Assignment) : Except EvaluationError String :=
  let missing := e.missingInputs s
  match countFault? missing.length with
  | some fault => .error fault
  | none =>
    let states := Nat.pow 2 missing.length
    ((List.range states).mapM (fun k =>
      (e.valueOf (e.completion s k)).map (e.reportLine (e.completion s k)))).map
      (fun lines => reportHeader missing states ++ String.join lines)

end Expression

end SwitchingAlgebra
