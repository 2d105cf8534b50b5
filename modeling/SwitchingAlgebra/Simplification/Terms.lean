-- Laws between terms: a leading nested expression is spliced, equal neighbours are
-- merged, and the laws of absorption and distribution are applied. Each keeps the
-- value because it acts only where the fold from left to right makes the law hold.
import SwitchingAlgebra.Simplification.Operands

namespace SwitchingAlgebra

/-- The operands of an expression of one term with this operator. -/
def Expression.soleOperands? (e : Expression) (op : Operator) : Option (List Operand) :=
  match e.terms with
  | [t] => if t.operator = op then some t.operands else none
  | _ => none

namespace Operand

/-- Every operand of `xs` is among `ys`. -/
def allAmong (xs ys : List Operand) : Bool := xs.all (·.isAmong ys)

/-- Some operand of `xs` is among `ys`. -/
def anyAmong (xs ys : List Operand) : Bool := xs.any (·.isAmong ys)

end Operand

namespace Expression

/-! ## Splicing -/

/-- Splices the terms of a nested expression that leads the first term. It must give
a result by its own first term, so that the terms after it find one. -/
def unnest? (e : Expression) : Option Expression :=
  match e.terms with
  | ⟨op, .nested n :: operands⟩ :: rest =>
    match n.terms with
    | first :: _ =>
      if first.operands.isEmpty then none
      else
        some { e with
          inputs := e.inputs.merge n.inputs
          terms := n.terms ++ ⟨op, operands⟩ :: rest }
    | [] => none
  | _ => none

/-- Splices where it is possible. -/
def unnest (e : Expression) : Expression := e.unnest?.getD e

end Expression

/-! ## Merging -/

/-- Merges the first two neighbouring terms with this operator. -/
def Term.mergeFirst? (op : Operator) : List Term → Option (List Term)
  | t :: u :: rest =>
    if t.operator = op && u.operator = op then some (⟨op, t.operands ++ u.operands⟩ :: rest)
    else (mergeFirst? op (u :: rest)).map (t :: ·)
  | _ => none

namespace Expression

/-- Merges one pair of neighbouring terms with this operator, where there is one. -/
def mergeTerms (op : Operator) (e : Expression) : Expression × List Step :=
  match Term.mergeFirst? op e.terms with
  | some terms => ({ e with terms }, [.combine op])
  | none => (e, [])

/-- Merges one pair of neighbouring terms for each of `AND`, `OR` and `XOR`. -/
def associate (e : Expression) : Expression × List Step :=
  let (e₁, steps₁) := e.mergeTerms .and
  let (e₂, steps₂) := e₁.mergeTerms .or
  let (e₃, steps₃) := e₂.mergeTerms .xor
  (e₃, steps₁ ++ steps₂ ++ steps₃)

end Expression

/-! ## Absorption -/

/-- Where a term shares an operand with the next one, of the dual operator: the
operands up to there, the later operator, and the terms that remain. -/
def Term.absorbed? : List Term → Option (List Operand × Operator × List Term)
  | t :: u :: rest =>
    if t.operator.isDual u.operator && Operand.anyAmong t.operands u.operands then
      some (t.operands, u.operator, u :: rest)
    else
      (absorbed? (u :: rest)).map (fun (operands, op, terms) => (t.operands ++ operands, op, terms))
  | _ => none

/-- Takes out the first operand that is one term of `op` over all of `xs`. -/
def Operand.takeSuperset? (op : Operator) (xs : List Operand) :
    List Operand → Option (Operand × List Operand)
  | [] => none
  | y :: ys =>
    match y.nested?.bind (·.soleOperands? op) with
    | some inner =>
      if Operand.allAmong xs inner then some (y, ys)
      else (takeSuperset? op xs ys).map (fun (taken, rest) => (taken, y :: rest))
    | none => (takeSuperset? op xs ys).map (fun (taken, rest) => (taken, y :: rest))

namespace Expression

/-- All that was folded is absorbed by a later term that shares an operand with the
term before it. -/
def absorbShared? (e : Expression) : Option (Expression × Step) :=
  (Term.absorbed? e.terms).map (fun (operands, op, terms) =>
    ({ e with terms }, .absorb op (operands.map Operand.label)))

/-- `op₁(X) op₂(op₁(Y))` with `Y` among `X` leaves `op₁(Y)`. -/
def absorbIntoNested? (e : Expression) : Option (Expression × Step) :=
  match e.terms with
  | first :: ⟨outer, [.nested n]⟩ :: rest =>
    match n.soleOperands? first.operator with
    | some inner =>
      if !inner.isEmpty && Operand.allAmong inner first.operands then
        some
          ({ e with
              inputs := e.inputs.merge n.inputs
              terms := ⟨first.operator, inner⟩ :: rest },
            .absorb outer ((first.operands.filter (!·.isAmong inner)).map Operand.label))
      else none
    | none => none
  | _ => none

/-- `op₁(X) op₂(…, op₁(Y), …)` with `X` among `Y` leaves out `op₁(Y)`. -/
def absorbNested? (e : Expression) : Option (Expression × Step) :=
  match e.terms with
  | first :: second :: rest =>
    (Operand.takeSuperset? first.operator first.operands second.operands).map
      (fun (taken, operands) =>
        ({ e with
            terms := first ::
              (if operands.isEmpty then rest else ⟨second.operator, operands⟩ :: rest) },
          .absorb first.operator [taken.label]))
  | _ => none

/-- The first two terms have dual operators, and the first has operands. -/
def headIsDual (e : Expression) : Bool :=
  match e.terms with
  | first :: second :: _ =>
    first.operator.isDual second.operator && !first.operands.isEmpty
  | _ => false

/-- Absorption: `x ∧ (x ∨ y) = x` and `x ∨ (x ∧ y) = x`. -/
def absorb? (e : Expression) : Option (Expression × Step) :=
  e.absorbShared?.or
    (if e.headIsDual then e.absorbIntoNested?.or e.absorbNested? else none)

/-! ## Distribution -/

/-- An expression of one term, which binds its names as `e` does. -/
def group (e : Expression) (op : Operator) (operands : List Operand) : Expression :=
  let g := empty.append op operands
  { g with inputs := g.inputs.refineBy e.inputs }

/-- A single operand as it is, several as a group. -/
def factor (e : Expression) (op : Operator) (operands : List Operand) : Operand :=
  match operands with
  | [x] => x
  | _ => .nested (e.group op operands)

/-- Drops terms other than `NOT` that have no operands. -/
def clean (e : Expression) : Expression :=
  let e := e.unnest
  { e with terms := e.terms.filter (fun t => t.operator = .not || !t.operands.isEmpty) }

/-- The law of distribution at the head: `(c ∧ x) ∨ (c ∧ y) = c ∧ (x ∨ y)`, and its dual. -/
def distribute? (e : Expression) : Option Expression :=
  match e.terms with
  | first :: ⟨outer, [.nested n]⟩ :: rest =>
    if first.operator.isDual outer then
      match n.soleOperands? first.operator with
      | some inner =>
        let common := Operand.distinct [] (first.operands.filter (·.isAmong inner))
        let left := first.operands.filter (!·.isAmong common)
        let right := inner.filter (!·.isAmong common)
        if common.isEmpty || left.isEmpty || right.isEmpty then none
        else
          let alternatives := [e.factor first.operator left, e.factor first.operator right]
          some { e with
            inputs := e.inputs.merge n.inputs
            terms := ⟨first.operator, common ++ [.nested (e.group outer alternatives)]⟩ :: rest }
      | none => none
    else none
  | _ => none

end Expression

end SwitchingAlgebra
