-- Truth tables: every assignment of the inputs, one row each, with the value of every
-- output.
import SwitchingAlgebra.Labels

namespace SwitchingAlgebra

/-! ## Columns -/

/-- The column of an input. Its heading is the name, barred when it is inverted. -/
structure InputColumn where
  name : String
  heading : String
  inverted : Bool
  deriving DecidableEq, Repr

/-- The column of an output: its label and its values from the first row to the last. -/
structure OutputColumn where
  label : String
  values : List (Option Bool)
  deriving DecidableEq, Repr

namespace OutputColumn

/-- One warning for each cell without a value, from the first row to the last. -/
def warnings (c : OutputColumn) : List Warning :=
  c.values.zipIdx.filterMap (fun (v, row) =>
    if v.isNone then some (.unresolvedCell c.label row) else none)

end OutputColumn

namespace Expression

/-- The columns of the inputs, in ascending order of names. -/
def inputColumns (e : Expression) : List InputColumn :=
  e.inputs.entries.map (fun (name, b) =>
    { name, heading := if b.inverted then Text.bar name else name, inverted := b.inverted })

/-- The expression with all the outputs that its table shows: its own, or its text
where it has none, and those of nested expressions. -/
def withOutputs (e : Expression) : Expression :=
  (if e.outputs.isEmpty then e.addLabel none false else e).gatherLabels

/-- There are too many names to list every assignment. -/
def countFault? (count : Nat) : Option EvaluationError :=
  if count > maxTableInputs then some (.tooManyInputs count maxTableInputs) else none

/-- What a request for a table leaves: the outputs are set unless there are too many
inputs. -/
def prepared (e : Expression) : Expression :=
  if (countFault? e.inputs.names.length).isSome then e else e.withOutputs

/-- The value of an output in row `k`: its snapshot under the inputs around it. -/
def outputValue (e : Expression) (o : Output) (k : Nat) :
    Except EvaluationError (Option Bool) :=
  o.snapshot.fold (o.snapshot.scopeIn (e.scope (.ofRow e.inputs.names k))) 0

/-- The number of rows. -/
def rowCount (e : Expression) : Nat := Nat.pow 2 e.inputs.names.length

/-- The columns of all outputs, as they are set now. -/
def outputColumns (e : Expression) : Except EvaluationError (List OutputColumn) :=
  e.outputs.mapM (fun o => do
    let values ← (List.range e.rowCount).mapM (e.outputValue o)
    pure { label := o.label, values })

/-- The values of every output under every assignment. -/
def truthColumns (e : Expression) : Except EvaluationError (List OutputColumn) :=
  match countFault? e.inputs.names.length with
  | some fault => .error fault
  | none => e.withOutputs.outputColumns

end Expression

/-! ## Tables -/

/-- One row: its number, and its cells under their headings, inputs first. -/
structure TruthRow where
  index : Nat
  cells : List (String × Option Bool)
  deriving DecidableEq, Repr

namespace TruthRow

/-- The cell under a heading. Of two columns with one heading the first counts. -/
def get? (r : TruthRow) (heading : String) : Option (Option Bool) := r.cells.lookup heading

end TruthRow

/-- Every assignment of the inputs with the value of every output. -/
structure TruthTable where
  inputs : List InputColumn
  outputs : List String
  rows : List TruthRow
  warnings : List Warning
  deriving DecidableEq, Repr

namespace TruthTable

/-- Every cell of an output holds a value. -/
def isFullyResolved (t : TruthTable) : Bool := t.warnings.isEmpty

/-- The values under a heading, from the first row to the last. -/
def column? (t : TruthTable) (heading : String) : Option (List (Option Bool)) :=
  t.rows.mapM (·.get? heading)

end TruthTable

namespace Expression

/-- Row `k`: the effective value of each input, then the value of each output. -/
def tableRow (inputs : List InputColumn) (columns : List OutputColumn) (k : Nat) : TruthRow :=
  let raw := Assignment.ofRow (inputs.map (·.name)) k
  { index := k
    cells :=
      inputs.map (fun c => (c.heading, (raw.get? c.name).map (· != c.inverted))) ++
        columns.map (fun c => (c.label, (c.values[k]?).join)) }

/-- The whole table. -/
def truthTable (e : Expression) : Except EvaluationError TruthTable :=
  e.truthColumns.map (fun columns =>
    let inputs := e.inputColumns
    { inputs
      outputs := columns.map (·.label)
      rows := (List.range e.rowCount).map (tableRow inputs columns)
      warnings := columns.flatMap (·.warnings) })

end Expression

/-! ## Layout -/

/-- How a cell of a table reads. -/
def cellText : Option Bool → String
  | some true => "1"
  | some false => "0"
  | none => "-"

namespace TruthTable

/-- The column between inputs and outputs. -/
def arrow : String := "→"

/-- The headings, with an arrow between inputs and outputs. -/
def headings (t : TruthTable) : List String :=
  t.inputs.map (·.heading) ++ [arrow] ++ t.outputs

/-- The cells of a row, with an arrow between inputs and outputs. -/
def rowTexts (t : TruthTable) (r : TruthRow) : List String :=
  let cells := r.cells.map (fun c => cellText c.2)
  cells.take t.inputs.length ++ [arrow] ++ cells.drop t.inputs.length

/-- The table as plain text, one line per row, cells as wide as their headings. -/
def text (t : TruthTable) : String :=
  let line := fun texts => " | ".intercalate texts ++ "\n"
  let widths := t.headings.map (·.length)
  line t.headings ++
    String.join (t.rows.map (fun r =>
      line (((t.rowTexts r).zip widths).map (fun (cell, width) => Text.padRight width cell))))

end TruthTable

end SwitchingAlgebra
