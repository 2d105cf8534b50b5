-- Two evaluations of one expression side by side. What relates the bindings of two scopes, and
-- is kept by every term and on the way into every nested expression, relates the results.
import Mathlib.Data.List.Forall2
import SwitchingAlgebra.Proofs.Meaning

namespace SwitchingAlgebra

/-! ## Expressions at every level -/

/-- Every expression in the operand has the property: itself, and all that are nested in it. -/
inductive Operand.Throughout (P : Expression → Prop) : Operand → Prop
  | input (n : String) : Throughout P (.input n)
  | nested {e : Expression} : P e → (∀ t ∈ e.terms, ∀ x ∈ t.operands, Throughout P x) →
      Throughout P (.nested e)

/-- The expression and all that are nested in it have the property. -/
def Expression.Throughout (P : Expression → Prop) (e : Expression) : Prop :=
  P e ∧ ∀ t ∈ e.terms, ∀ x ∈ t.operands, x.Throughout P

theorem Operand.throughout_nested {P : Expression → Prop} {e : Expression} :
    (Operand.nested e).Throughout P ↔ e.Throughout P := by
  constructor
  · rintro (_ | ⟨here, below⟩)
    exact ⟨here, below⟩
  · rintro ⟨here, below⟩
    exact .nested here below

theorem Expression.throughout_iff {P : Expression → Prop} {e : Expression} :
    e.Throughout P ↔ P e ∧ ∀ f ∈ e.nestedExpressions, f.Throughout P := by
  refine and_congr_right (fun _ => ?_)
  constructor
  · intro below f hf
    obtain ⟨x, hx, inside⟩ := List.mem_filterMap.mp hf
    obtain ⟨t, ht, hx⟩ := List.mem_flatMap.mp hx
    cases x with
    | input n => cases inside
    | nested e' =>
      cases inside
      exact Operand.throughout_nested.mp (below t ht _ hx)
  · intro below t ht x hx
    cases x with
    | input n => exact .input n
    | nested f =>
      refine Operand.throughout_nested.mpr (below f ?_)
      exact List.mem_filterMap.mpr ⟨.nested f, List.mem_flatMap.mpr ⟨t, ht, hx⟩, rfl⟩

theorem Operand.throughout_true (x : Operand) : x.Throughout (fun _ => True) := by
  induction x using Operand.induct with
  | input n => exact .input n
  | nested e ih => exact .nested trivial ih

theorem Operand.Throughout.imp {P Q : Expression → Prop} (hPQ : ∀ e, P e → Q e) {x : Operand}
    (h : x.Throughout P) : x.Throughout Q := by
  induction h with
  | input n => exact .input n
  | nested here _ ih => exact .nested (hPQ _ here) ih

theorem Expression.Throughout.imp {P Q : Expression → Prop} (hPQ : ∀ e, P e → Q e)
    {e : Expression} (h : e.Throughout P) : e.Throughout Q :=
  ⟨hPQ e h.1, fun t ht x hx => (h.2 t ht x hx).imp hPQ⟩

/-! ## Couplings -/

/-- Relations that tie two evaluations together: `V` their values, `R` their results so far,
and `S` their scopes. Expressions with the property `P` can be entered. -/
structure Coupling (V : Option Bool → Option Bool → Prop) (R : Running → Running → Prop)
    (S : Bindings → Bindings → Prop) (P : Expression → Prop) : Prop where
  blank : R .blank .blank
  step : ∀ (op : Operator) {acc acc' : Running} {vs ws : List (Option Bool)}, R acc acc' →
    List.Forall₂ V vs ws → R (acc.step op vs) (acc'.step op ws)
  value : ∀ {acc acc' : Running}, R acc acc' → V acc.value acc'.value
  look : ∀ {m m' : Bindings} {n : String} {b : Binding}, S m m' → m.get? n = some b →
    ∃ b', m'.get? n = some b' ∧ V b.value b'.value
  enter : ∀ {m m' : Bindings} {e : Expression}, P e → S m m' → S (e.scopeIn m) (e.scopeIn m')

section

variable {V : Option Bool → Option Bool → Prop} {R : Running → Running → Prop}
  {S : Bindings → Bindings → Prop} {P : Expression → Prop} {scope scope' : Bindings} {d : Nat}

/-- Where the operand has a value in the first scope, it has a related one in the second. -/
def Operand.Coupled (V : Option Bool → Option Bool → Prop) (scope scope' : Bindings) (d : Nat)
    (x : Operand) : Prop :=
  ∀ v, x.valueIn scope d = .ok v → ∃ w, x.valueIn scope' d = .ok w ∧ V v w

theorem Operand.exists_valuesOf {xs : List Operand} {vs : List (Option Bool)}
    (operands : ∀ x ∈ xs, x.Coupled V scope scope' d)
    (h : Operand.valuesOf scope d xs = .ok vs) :
    ∃ ws, Operand.valuesOf scope' d xs = .ok ws ∧ List.Forall₂ V vs ws := by
  induction xs generalizing vs with
  | nil =>
    cases h
    exact ⟨[], rfl, .nil⟩
  | cons x xs ih =>
    rw [List.forall_mem_cons] at operands
    simp only [valuesOf] at h
    split at h
    · cases h
    · rename_i v hv
      split at h
      · cases h
      · rename_i vs' hvs
        cases h
        obtain ⟨w, hw, first⟩ := operands.1 v hv
        obtain ⟨ws, hws, others⟩ := ih operands.2 hvs
        exact ⟨w :: ws, by simp only [valuesOf, hw, hws], .cons first others⟩

variable (c : Coupling V R S P)
include c

theorem Coupling.exists_foldAll {ts : List Term} {acc acc' r : Running}
    (operands : ∀ t ∈ ts, ∀ x ∈ t.operands, x.Coupled V scope scope' d) (hacc : R acc acc')
    (h : Term.foldAll scope d ts acc = .ok r) :
    ∃ r', Term.foldAll scope' d ts acc' = .ok r' ∧ R r r' := by
  induction ts generalizing acc acc' with
  | nil =>
    cases h
    exact ⟨acc', rfl, hacc⟩
  | cons t ts ih =>
    obtain ⟨op, xs⟩ := t
    rw [List.forall_mem_cons] at operands
    simp only [Term.foldAll] at h
    split at h
    · cases h
    · rename_i vs hvs
      obtain ⟨ws, hws, related⟩ := Operand.exists_valuesOf operands.1 hvs
      obtain ⟨r', hr', result⟩ := ih operands.2 (c.step op hacc related) h
      exact ⟨r', by simp only [Term.foldAll, hws, hr'], result⟩

theorem Coupling.exists_fold_of_operands {e : Expression} {v : Option Bool}
    (operands : ∀ t ∈ e.terms, ∀ x ∈ t.operands, x.Coupled V scope scope' d)
    (h : e.fold scope d = .ok v) : ∃ w, e.fold scope' d = .ok w ∧ V v w := by
  obtain ⟨_, ts, _, _⟩ := e
  simp only [Expression.fold] at h ⊢
  split at h
  · cases h
  · rename_i shallow
    cases hr : Term.foldAll scope d ts .blank with
    | error err =>
      rw [hr] at h
      cases h
    | ok r =>
      rw [hr] at h
      cases h
      obtain ⟨r', hr', related⟩ := c.exists_foldAll operands c.blank hr
      exact ⟨r'.value, by rw [if_neg shallow, hr']; rfl, c.value related⟩

theorem Coupling.operand (x : Operand) (entered : x.Throughout P) (hs : S scope scope') :
    x.Coupled V scope scope' d := by
  induction x using Operand.induct generalizing scope scope' d with
  | input n =>
    intro v h
    simp only [Operand.valueIn] at h ⊢
    split at h
    · rename_i b hb
      cases h
      obtain ⟨b', hb', related⟩ := c.look hs hb
      exact ⟨b'.value, by rw [hb'], related⟩
    · cases h
  | nested e ih =>
    obtain ⟨here, below⟩ := Operand.throughout_nested.mp entered
    intro v h
    exact c.exists_fold_of_operands
      (fun t ht x hx => ih t ht x hx (below t ht x hx) (c.enter here hs)) h

/-- An evaluation that succeeds in the first scope does so in the second, with a related
value. -/
theorem Coupling.exists_fold {e : Expression} {v : Option Bool}
    (entered : ∀ t ∈ e.terms, ∀ x ∈ t.operands, x.Throughout P) (hs : S scope scope')
    (h : e.fold scope d = .ok v) : ∃ w, e.fold scope' d = .ok w ∧ V v w :=
  c.exists_fold_of_operands (fun t ht x hx => c.operand x (entered t ht x hx) hs) h

end

end SwitchingAlgebra
