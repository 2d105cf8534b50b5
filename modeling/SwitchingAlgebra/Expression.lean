-- Expressions: named inputs and a list of terms. Each term applies one operator to
-- its operands, and the result of the terms before it is its first operand.
import SwitchingAlgebra.Bindings
import SwitchingAlgebra.Journal

namespace SwitchingAlgebra

/-! ## The types -/

mutual

/-- What a term is applied to. -/
inductive Operand where
  /-- An input of the expression, by name. -/
  | input (name : String)
  /-- An expression of its own, which sees the inputs of the one around it. -/
  | nested (e : Expression)

/-- One operator and its operands. -/
structure Term where
  operator : Operator
  operands : List Operand

/-- A label, and the expression that it stands for. -/
structure Output where
  label : String
  snapshot : Expression

/-- Inputs, terms in the order in which they are folded, and labelled outputs. -/
structure Expression where
  inputs : Bindings := .empty
  terms : List Term := []
  outputs : List Output := []
  journal : Journal := {}

end

namespace Operand

/-- The name, if the operand is an input. -/
def name? : Operand → Option String
  | .input n => some n
  | .nested _ => none

/-- The expression, if the operand is nested. -/
def nested? : Operand → Option Expression
  | .input _ => none
  | .nested e => some e

end Operand

namespace Expression

/-- No inputs, no terms. -/
def empty : Expression := {}

instance : Inhabited Expression := ⟨empty⟩

/-- Raw terms. No input is bound. -/
def ofTerms (terms : List Term) : Expression := { terms }

/-- There are no terms. -/
def isEmpty (e : Expression) : Bool := e.terms.isEmpty

/-- The expressions nested directly in the terms, in order. -/
def nestedExpressions (e : Expression) : List Expression :=
  (e.terms.flatMap (·.operands)).filterMap Operand.nested?

end Expression

/-! ## Sameness

Two operands are the same when they are one name, or when their nested terms are the
same. What the nested expressions bind does not count. -/

mutual

/-- The same name, or nested expressions with the same terms. -/
def Operand.same : Operand → Operand → Bool
  | .input a, .input b => a == b
  | .nested e, .nested f => e.sameTerms f
  | .input _, .nested _ => false
  | .nested _, .input _ => false
termination_by structural x => x

/-- The same terms in the same order. -/
def Expression.sameTerms : Expression → Expression → Bool
  | { terms := ts, .. }, { terms := us, .. } => Term.sameAll ts us
termination_by structural x => x

/-- The same terms one by one. -/
def Term.sameAll : List Term → List Term → Bool
  | [], [] => true
  | t :: ts, u :: us => t.same u && Term.sameAll ts us
  | [], _ :: _ => false
  | _ :: _, [] => false
termination_by structural x => x

/-- The same operator over the same operands. -/
def Term.same : Term → Term → Bool
  | ⟨op, xs⟩, ⟨op', ys⟩ => op == op' && Operand.sameAll xs ys
termination_by structural x => x

/-- The same operands one by one. -/
def Operand.sameAll : List Operand → List Operand → Bool
  | [], [] => true
  | x :: xs, y :: ys => x.same y && Operand.sameAll xs ys
  | [], _ :: _ => false
  | _ :: _, [] => false
termination_by structural x => x

end

instance : BEq Operand := ⟨Operand.same⟩

instance : BEq Term := ⟨Term.same⟩

/-- Expressions are the same when they bind the same inputs and fold the same terms. -/
def Expression.same (e f : Expression) : Bool := decide (e.inputs = f.inputs) && e.sameTerms f

instance : BEq Expression := ⟨Expression.same⟩

/-- Outputs are the same when they have one label and the same snapshot. -/
def Output.same (o p : Output) : Bool := o.label == p.label && o.snapshot == p.snapshot

instance : BEq Output := ⟨Output.same⟩

/-! ## Size and names -/

mutual

/-- How deep expressions are nested; 0 when none is. -/
def Expression.depth : Expression → Nat
  | { terms, .. } => Term.depthAll terms

/-- The deepest nesting in a list of terms. -/
def Term.depthAll : List Term → Nat
  | [] => 0
  | ⟨_, operands⟩ :: ts => max (Operand.depthAll operands) (Term.depthAll ts)

/-- The deepest nesting in a list of operands. -/
def Operand.depthAll : List Operand → Nat
  | [] => 0
  | .input _ :: xs => Operand.depthAll xs
  | .nested e :: xs => max (e.depth + 1) (Operand.depthAll xs)

end

mutual

/-- The number of terms, nested ones included. -/
def Expression.termCount : Expression → Nat
  | { terms, .. } => Term.countAll terms

/-- The number of terms in a list, nested ones included. -/
def Term.countAll : List Term → Nat
  | [] => 0
  | ⟨_, operands⟩ :: ts => 1 + Operand.countAll operands + Term.countAll ts

/-- The number of terms nested in a list of operands. -/
def Operand.countAll : List Operand → Nat
  | [] => 0
  | .input _ :: xs => Operand.countAll xs
  | .nested e :: xs => e.termCount + Operand.countAll xs

end

mutual

/-- Every mention of a name in a term, nested ones included. -/
def Expression.mentions : Expression → List String
  | { terms, .. } => Term.mentionsAll terms

/-- Every mention of a name in a list of terms. -/
def Term.mentionsAll : List Term → List String
  | [] => []
  | ⟨_, operands⟩ :: ts => Operand.mentionsAll operands ++ Term.mentionsAll ts

/-- Every mention of a name in a list of operands. -/
def Operand.mentionsAll : List Operand → List String
  | [] => []
  | .input n :: xs => n :: Operand.mentionsAll xs
  | .nested e :: xs => e.mentions ++ Operand.mentionsAll xs

end

/-- Puts a name into an ascending list, once. -/
def insertName (name : String) : List String → List String
  | [] => [name]
  | n :: rest =>
    if name < n then name :: n :: rest
    else if name = n then n :: rest
    else n :: insertName name rest

/-- The names that a term mentions, nested ones included, each once and in ascending order. -/
def Expression.referencedInputs (e : Expression) : List String :=
  e.mentions.foldr insertName []

/-! ## Small laws -/

@[simp] theorem mem_insertName (name x : String) (names : List String) :
    x ∈ insertName name names ↔ x = name ∨ x ∈ names := by
  induction names with
  | nil => simp [insertName]
  | cons n rest ih =>
    simp only [insertName]
    split
    · simp
    · split
      · rename_i h
        simp [h]
      · simp only [List.mem_cons, ih]
        constructor
        · rintro (h | h | h) <;> simp [h]
        · rintro (h | h | h) <;> simp [h]

theorem Expression.mem_referencedInputs (e : Expression) (x : String) :
    x ∈ e.referencedInputs ↔ x ∈ e.mentions := by
  unfold Expression.referencedInputs
  induction e.mentions with
  | nil => simp
  | cons n rest ih => simp [ih]

end SwitchingAlgebra
