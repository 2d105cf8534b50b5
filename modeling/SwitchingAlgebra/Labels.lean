-- Labelled outputs. A label keeps the terms as they are when it is set; labels of
-- nested expressions can be gathered, and inverting an input puts a bar over
-- it in the labels that mention it, or takes it away.
import SwitchingAlgebra.Rendering
import SwitchingAlgebra.Text.Word

namespace SwitchingAlgebra

namespace Expression

/-! ## Setting a label -/

/-- The inputs and terms alone. -/
def snapshot (e : Expression) : Expression := { inputs := e.inputs, terms := e.terms }

end Expression

/-- Puts an output in the place of the one with the same label, or at the end. -/
def Output.put (o : Output) : List Output → List Output
  | [] => [o]
  | p :: ps => if p.label = o.label then o :: ps else p :: Output.put o ps

namespace Expression

/-- The snapshot under a label. -/
def output? (e : Expression) (label : String) : Option Expression :=
  (e.outputs.find? (·.label == label)).map (·.snapshot)

/-- The label of an output: the name, or the text where no name is given. An inverted
label is the barred name of a single word, and otherwise negates a group. -/
def labelFor (e : Expression) (name : Option String) (inverted : Bool) : String :=
  let plain := name.getD e.text
  if !inverted then plain
  else if Text.isSingleWord plain then Text.bar plain
  else Operator.not.glyph.toString ++ "(" ++ plain ++ ")"

/-- What a label keeps: the snapshot, negated when the label is inverted. -/
def labelled (e : Expression) (inverted : Bool) : Expression :=
  if inverted then e.snapshot.negate else e.snapshot

/-- Sets a label. One with the same text is replaced. -/
def addLabel (e : Expression) (name : Option String) (inverted : Bool) : Expression :=
  { e with outputs := (⟨e.labelFor name inverted, e.labelled inverted⟩ : Output).put e.outputs }

end Expression

/-! ## Gathering nested labels -/

mutual

/-- The outputs of the expressions nested in an expression: of what a term holds the
last comes first, and each brings its own outputs before those nested in it. -/
def Expression.nestedOutputs : Expression → List Output
  | { terms, .. } => Term.outputsAll terms

/-- The outputs nested in a list of terms, the last term first. -/
def Term.outputsAll : List Term → List Output
  | [] => []
  | ⟨_, operands⟩ :: ts => Term.outputsAll ts ++ Operand.outputsAll operands

/-- The outputs nested in a list of operands, the last operand first. -/
def Operand.outputsAll : List Operand → List Output
  | [] => []
  | x :: xs => Operand.outputsAll xs ++ x.outputsOf

/-- The outputs of an operand. -/
def Operand.outputsOf : Operand → List Output
  | .input _ => []
  | .nested e => e.outputs ++ e.nestedOutputs

end

/-- Adds an output unless its label is taken. -/
def Output.addNew (os : List Output) (o : Output) : List Output :=
  if os.any (·.label == o.label) then os else os ++ [o]

namespace Expression

/-- Adds the outputs of nested expressions whose labels are not taken. -/
def gatherLabels (e : Expression) : Expression :=
  { e with outputs := e.nestedOutputs.foldl Output.addNew e.outputs }

end Expression

/-! ## Inverting inputs -/

/-- Toggles the bar over a name that stands as a whole word in a label. The barred
form is looked for first, and one place is changed. -/
def toggleBarIn (name label : String) : String :=
  let barred := Text.bar name
  ((Text.replaceWord? barred name label).or (Text.replaceWord? name barred label)).getD label

namespace Output

/-- Toggles the bar in the label and flips the input of the snapshot, where it is bound there. -/
def invertInput (name : String) (o : Output) : Output :=
  { label := toggleBarIn name o.label
    snapshot := { o.snapshot with inputs := o.snapshot.inputs.toggle name } }

end Output

namespace Expression

/-- Flips the inversion of one input, in the labels and their snapshots too. An input
that is not bound changes nothing. -/
def invertInput (e : Expression) (name : String) : Expression :=
  if e.inputs.contains name then
    { e with
      inputs := e.inputs.toggle name
      outputs := e.outputs.map (Output.invertInput name) }
  else e

/-- Flips the inversion of inputs, one after the other. -/
def invert (e : Expression) (names : List String) : Expression :=
  names.foldl invertInput e

end Expression

end SwitchingAlgebra
