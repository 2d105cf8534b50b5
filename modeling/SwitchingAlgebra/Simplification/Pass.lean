-- One pass of a simplification: every law once on an expression, and then the same on
-- the expressions nested in what is left.
import SwitchingAlgebra.Simplification.Terms

namespace SwitchingAlgebra

/-! ## What a pass leaves -/

/-- The outcome of a pass. When nesting became too deep the pass stops there, and what
was done until then stays. -/
structure PassOutcome (α : Type) where
  result : α
  changes : List Change := []
  changed : Bool := false
  tooDeep : Option Nat := none

namespace PassOutcome

/-- Passes over a list until one element stops the pass. -/
def overList {α : Type} (f : α → PassOutcome α) : List α → PassOutcome (List α)
  | [] => { result := [] }
  | x :: xs =>
    let first := f x
    match first.tooDeep with
    | some depth =>
      { result := first.result :: xs, changes := first.changes, changed := first.changed,
        tooDeep := some depth }
    | none =>
      let rest := overList f xs
      { result := first.result :: rest.result
        changes := first.changes ++ rest.changes
        changed := first.changed || rest.changed
        tooDeep := rest.tooDeep }

/-- Puts a result into another form. -/
def map {α β : Type} (g : α → β) (o : PassOutcome α) : PassOutcome β :=
  { result := g o.result, changes := o.changes, changed := o.changed, tooDeep := o.tooDeep }

end PassOutcome

/-! ## One level -/

namespace Expression

/-- Log entries for steps that left `e`. -/
def entries (e : Expression) (steps : List Step) : List Change := steps.map (⟨·, e.text⟩)

/-- Absorption, where it applies. -/
def absorb (e : Expression) : Expression × List Step :=
  match e.absorb? with
  | some (e', step) => (e', [step])
  | none => (e, [])

/-- Distribution, where it applies, and the cleaning after it. -/
def distribute (e : Expression) : Expression × List Step :=
  match e.distribute? with
  | some e' => (e'.clean, [.distribute])
  | none => (e, [])

/-- Every law once, on the terms of the expression itself. A splice counts as a
change and is not logged. -/
def simplifyLevel (e : Expression) : PassOutcome Expression :=
  let e₁ := e.unnest
  let (e₂, sorted) := e₁.sortOperands
  let e₃ := e₂.unnest
  let (e₄, dropped) := e₃.dropRepeated
  let (e₅, merged) := e₄.associate
  let (e₆, absorbed) := e₅.absorb
  let (e₇, distributed) := e₆.distribute
  let changes := e₂.entries sorted ++ e₄.entries dropped ++ e₅.entries merged ++
    e₆.entries absorbed ++ e₇.entries distributed
  { result := e₇
    changes
    changed := e.unnest?.isSome || e₂.unnest?.isSome || !changes.isEmpty }

end Expression

/-! ## All levels -/

/-- Passes over the nested expression of an operand. -/
def Operand.pass (f : Expression → PassOutcome Expression) : Operand → PassOutcome Operand
  | .input n => { result := .input n }
  | .nested e => (f e).map .nested

/-- Passes over the operands of a term. -/
def Term.pass (f : Expression → PassOutcome Expression) (t : Term) : PassOutcome Term :=
  (PassOutcome.overList (Operand.pass f) t.operands).map (⟨t.operator, ·⟩)

namespace Expression

/-- A pass over an expression that lies `depth` levels down, with this many levels
left before nesting is too deep. -/
def passFrom : Nat → Nat → Expression → PassOutcome Expression
  | 0, depth, e => { result := e, tooDeep := some depth }
  | levels + 1, depth, e =>
    let here := e.simplifyLevel
    let below := PassOutcome.overList (Term.pass (passFrom levels (depth + 1))) here.result.terms
    { result := { here.result with terms := below.result }
      changes := here.changes ++ below.changes
      changed := here.changed || below.changed
      tooDeep := below.tooDeep }

/-- A pass over all levels down to `maxDepth`. -/
@[irreducible] def pass (maxDepth : Nat) (e : Expression) : PassOutcome Expression :=
  e.passFrom (maxDepth + 1) 0

end Expression

end SwitchingAlgebra
