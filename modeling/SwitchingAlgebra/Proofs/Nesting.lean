-- Induction over nested expressions, and what names, depth and shape say of the operands
-- of an expression one by one.
import SwitchingAlgebra.Evaluation

namespace SwitchingAlgebra

/-! ## Induction -/

theorem Operand.sizeOf_lt_of_mem {e : Expression} {t : Term} {x : Operand} (ht : t ∈ e.terms)
    (hx : x ∈ t.operands) : sizeOf x < sizeOf (Operand.nested e) := by
  have hterm := List.sizeOf_lt_of_mem ht
  have hoperand := List.sizeOf_lt_of_mem hx
  obtain ⟨_, _, _, _⟩ := e
  obtain ⟨_, _⟩ := t
  simp only [Operand.nested.sizeOf_spec, Expression.mk.sizeOf_spec, Term.mk.sizeOf_spec]
    at hterm hoperand ⊢
  omega

/-- What holds of every input, and of a nested expression once it holds of all its
operands, holds of every operand. -/
@[elab_as_elim]
theorem Operand.induct {P : Operand → Prop} (input : ∀ n, P (.input n))
    (nested : ∀ e : Expression, (∀ t ∈ e.terms, ∀ x ∈ t.operands, P x) → P (.nested e)) :
    ∀ x, P x
  | .input n => input n
  | .nested e => nested e (fun _ _ x _ => Operand.induct input nested x)
termination_by x => sizeOf x
decreasing_by exact Operand.sizeOf_lt_of_mem ‹_› ‹_›

/-! ## Names -/

/-- Every mention of a name in an operand. -/
def Operand.mentions : Operand → List String
  | .input n => [n]
  | .nested e => e.mentions

theorem Operand.mentionsAll_cons (x : Operand) (xs : List Operand) :
    Operand.mentionsAll (x :: xs) = x.mentions ++ Operand.mentionsAll xs := by
  cases x <;> rfl

theorem Term.mentionsAll_cons (t : Term) (ts : List Term) :
    Term.mentionsAll (t :: ts) = Operand.mentionsAll t.operands ++ Term.mentionsAll ts := by
  cases t
  rfl

theorem Operand.mem_mentionsAll (xs : List Operand) (n : String) :
    n ∈ Operand.mentionsAll xs ↔ ∃ x ∈ xs, n ∈ x.mentions := by
  induction xs with
  | nil => simp [Operand.mentionsAll]
  | cons x xs ih => cases x <;> simp [Operand.mentionsAll, Operand.mentions, ih]

theorem Expression.mem_mentions (e : Expression) (n : String) :
    n ∈ e.mentions ↔ ∃ t ∈ e.terms, ∃ x ∈ t.operands, n ∈ x.mentions := by
  obtain ⟨_, ts, _, _⟩ := e
  simp only [Expression.mentions]
  induction ts with
  | nil => simp [Term.mentionsAll]
  | cons t ts ih => obtain ⟨op, xs⟩ := t; simp [Term.mentionsAll, Operand.mem_mentionsAll, ih]

theorem Expression.mentions_of_terms {e e' : Expression} (h : e'.terms = e.terms) :
    e'.mentions = e.mentions := by
  cases e
  cases e'
  cases h
  rfl

/-! ## Depth -/

/-- The levels that an operand adds below the expression that holds it. -/
def Operand.level : Operand → Nat
  | .input _ => 0
  | .nested e => e.depth + 1

theorem Operand.depthAll_cons (x : Operand) (xs : List Operand) :
    Operand.depthAll (x :: xs) = max x.level (Operand.depthAll xs) := by
  cases x with
  | input _ => exact (Nat.zero_max _).symm
  | nested _ => rfl

theorem Operand.depthAll_le (xs : List Operand) (d : Nat) :
    Operand.depthAll xs ≤ d ↔ ∀ x ∈ xs, x.level ≤ d := by
  induction xs with
  | nil => simp [Operand.depthAll]
  | cons x xs ih => rw [Operand.depthAll_cons, Nat.max_le, ih, List.forall_mem_cons]

theorem Expression.depth_le (e : Expression) (d : Nat) :
    e.depth ≤ d ↔ ∀ t ∈ e.terms, ∀ x ∈ t.operands, x.level ≤ d := by
  obtain ⟨_, ts, _, _⟩ := e
  simp only [Expression.depth]
  induction ts with
  | nil => simp [Term.depthAll]
  | cons t ts ih =>
    obtain ⟨op, xs⟩ := t
    rw [Term.depthAll, Nat.max_le, Operand.depthAll_le, ih, List.forall_mem_cons]

theorem Expression.level_le_depth {e : Expression} {t : Term} (ht : t ∈ e.terms) {x : Operand}
    (hx : x ∈ t.operands) : x.level ≤ e.depth :=
  (e.depth_le e.depth).mp (Nat.le_refl _) t ht x hx

/-! ## Terms at every level -/

/-- Every term nested in the operand has the property. -/
inductive Operand.Everywhere (P : Term → Prop) : Operand → Prop
  | input (n : String) : Everywhere P (.input n)
  | nested {e : Expression} : (∀ t ∈ e.terms, P t) →
      (∀ t ∈ e.terms, ∀ x ∈ t.operands, Everywhere P x) → Everywhere P (.nested e)

/-- The term and every term nested in it have the property. -/
def Term.Everywhere (P : Term → Prop) (t : Term) : Prop :=
  P t ∧ ∀ x ∈ t.operands, x.Everywhere P

/-- Every term of the expression has the property, at every level. -/
def Expression.Everywhere (P : Term → Prop) (e : Expression) : Prop :=
  ∀ t ∈ e.terms, t.Everywhere P

theorem Operand.everywhere_nested {P : Term → Prop} {e : Expression} :
    (Operand.nested e).Everywhere P ↔ e.Everywhere P := by
  constructor
  · rintro (_ | ⟨here, below⟩) t ht
    exact ⟨here t ht, below t ht⟩
  · intro h
    exact .nested (fun t ht => (h t ht).1) (fun t ht => (h t ht).2)

theorem Operand.Everywhere.imp {P Q : Term → Prop} (hPQ : ∀ t, P t → Q t) {x : Operand}
    (h : x.Everywhere P) : x.Everywhere Q := by
  induction h with
  | input n => exact .input n
  | nested here _ ih => exact .nested (fun t ht => hPQ t (here t ht)) ih

theorem Expression.Everywhere.imp {P Q : Term → Prop} (hPQ : ∀ t, P t → Q t) {e : Expression}
    (h : e.Everywhere P) : e.Everywhere Q :=
  fun t ht => ⟨hPQ t (h t ht).1, fun x hx => ((h t ht).2 x hx).imp hPQ⟩

theorem Expression.everywhere_of_forall {P : Term → Prop} (h : ∀ t, P t) (e : Expression) :
    e.Everywhere P := by
  have operand : ∀ x : Operand, x.Everywhere P := by
    intro x
    induction x using Operand.induct with
    | input n => exact .input n
    | nested e ih => exact .nested (fun t _ => h t) ih
  exact fun t _ => ⟨h t, fun x _ => operand x⟩

/-- A `NOT` has at most one operand. -/
def Term.NegatesOne (t : Term) : Prop := t.operator = .not → t.operands.length ≤ 1

end SwitchingAlgebra
