-- What a simplification does once its passes are over: outputs follow the simplified
-- terms, and inputs that nothing refers to are dropped.
import SwitchingAlgebra.Labels

namespace SwitchingAlgebra

/-! ## Outputs -/

/-- An output that was set on the terms before the simplification, negated or not,
with the simplified terms in their place. -/
def Output.refreshed? (before now : Expression) (o : Output) : Option Output :=
  let negations := o.snapshot.terms.drop before.terms.length
  if o.snapshot.inputs = before.inputs && before.terms.isPrefixOf o.snapshot.terms &&
      negations.all (·.operator = .not) then
    some { o with snapshot := { now.snapshot with terms := now.terms ++ negations } }
  else none

/-- Gives a new name and snapshot to the first output with the label `old`. -/
def Output.rename (old new : String) (snapshot : Expression) : List Output → List Output
  | [] => []
  | o :: os => if o.label = old then ⟨new, snapshot⟩ :: os else o :: rename old new snapshot os

namespace Expression

/-- Outputs set on the terms before the simplification follow the simplified ones. -/
def refreshOutputs (before e : Expression) : Expression :=
  { e with outputs := e.outputs.map (fun o => (o.refreshed? before e).getD o) }

/-- The number of outputs that follow the simplified terms. -/
def refreshedCount (before e : Expression) : Nat :=
  e.outputs.countP (fun o => (o.refreshed? before e).isSome)

/-- The first text and the present one, where an output is still named by the first. -/
def renaming? (e : Expression) : Option (String × String) :=
  match e.journal.firstText with
  | some first =>
    if e.text ≠ first && e.outputs.any (·.label == first) then some (first, e.text)
    else none
  | none => none

/-- Names the output of the first text by the present text. An output that had this
label already is dropped. -/
def renameOutput (e : Expression) : Expression :=
  match e.renaming? with
  | some (old, new) =>
    { e with
      outputs := Output.rename old new e.snapshot (e.outputs.filter (·.label ≠ new)) }
  | none => e

/-! ## Inputs -/

/-- A term or an output mentions the name. -/
def isUsed (e : Expression) (name : String) : Bool :=
  e.mentions.contains name || e.outputs.any (·.snapshot.mentions.contains name)

/-- The bound names that nothing mentions. -/
def unusedInputs (e : Expression) : List String := e.inputs.names.filter (!e.isUsed ·)

/-- Drops the inputs that nothing mentions. -/
def dropUnused (e : Expression) : Expression := { e with inputs := e.inputs.keep e.isUsed }

end Expression

end SwitchingAlgebra
