-- Values that are learned later change no answer: where an expression stores no values of its
-- own, a known value under an assignment is the value under every larger assignment.
import SwitchingAlgebra.Proofs.Coupling
import SwitchingAlgebra.Proofs.Soundness

namespace SwitchingAlgebra

/-! ## Knowing more -/

/-- The assignment has the values of another one, and maybe values for further names. -/
def Assignment.Extends (s' s : Assignment) : Prop := ∀ n v, s.get? n = some v → s'.get? n = some v

theorem Assignment.append_extends (s t : Assignment) : (s.append t).Extends s := by
  intro n v h
  rw [get?, append, List.lookup_append, ← get?, h, Option.some_or]

/-- No input holds a raw value. Flags may be set. -/
def Expression.StoresNothing (e : Expression) : Prop :=
  ∀ entry ∈ e.inputs.entries, entry.2.raw = none

instance (e : Expression) : Decidable e.StoresNothing :=
  inferInstanceAs (Decidable (∀ entry ∈ e.inputs.entries, entry.2.raw = none))

/-- What is bound is bound in the second map too, to a value that is known better. -/
def Bindings.AtMost (m m' : Bindings) : Prop :=
  ∀ n b, m.get? n = some b → ∃ b', m'.get? n = some b' ∧ ValueAtMost b.value b'.value

theorem Expression.StoresNothing.value {e : Expression} (blank : e.StoresNothing) {n : String}
    {b : Binding} (h : e.inputs.get? n = some b) : b.value = none := by
  obtain ⟨before, behind, entries, -⟩ := List.lookup_eq_some_iff.mp h
  have raw : b.raw = none := blank (n, b) (by simp [entries])
  rw [Binding.value, raw, Option.map_none]

/-- A larger assignment leaves every name known at least as well. -/
theorem Expression.scope_atMost {e : Expression} (blank : e.StoresNothing) {s s' : Assignment}
    (more : s'.Extends s) : (e.scope s).AtMost (e.scope s') := by
  intro n b h
  rw [scope, Assignment.get?_applyTo] at h ⊢
  cases hs : s.get? n with
  | some v =>
    rw [hs] at h
    exact ⟨b, by rw [more n v hs]; exact h, .inr rfl⟩
  | none =>
    -- the name has no value yet, and whatever it gets is better than that
    rw [hs] at h
    cases s'.get? n with
    | none => exact ⟨b, h, .inr rfl⟩
    | some v => exact ⟨_, rfl, .inl (blank.value h)⟩

/-- The bindings of a nested expression may lose to what is assigned around it, but they hold
no values that could be lost. -/
theorem Expression.scopeIn_atMost {e : Expression} (blank : e.StoresNothing) {m m' : Bindings}
    (h : m.AtMost m') : (e.scopeIn m).AtMost (e.scopeIn m') := by
  intro n b hb
  rw [scopeIn, Bindings.get?_merge] at hb ⊢
  cases hm : m.get? n with
  | some outer =>
    obtain ⟨outer', hm', better⟩ := h n outer hm
    rw [hm, Option.some_or] at hb
    cases hb
    exact ⟨outer', by rw [hm', Option.some_or], better⟩
  | none =>
    rw [hm, Option.none_or] at hb
    cases hm' : m'.get? n with
    | none => exact ⟨b, hb, .inr rfl⟩
    | some outer' => exact ⟨outer', rfl, .inl (blank.value hb)⟩

/-! ## Evaluations that know more -/

theorem coupling_atMost :
    Coupling ValueAtMost Running.AtMost Bindings.AtMost Expression.StoresNothing where
  blank := .refl _
  step _ := Running.step_atMost
  value := Running.AtMost.value
  look hs hb := hs _ _ hb
  enter blank hs := Expression.scopeIn_atMost blank hs

namespace Expression

/-- A larger assignment does not make the evaluation fail, and its result is known better. -/
theorem exists_valueOf_of_extends {e : Expression} (blank : e.Throughout StoresNothing)
    {s s' : Assignment} (more : s'.Extends s) {v : Option Bool} (h : e.valueOf s = .ok v) :
    ∃ w, e.valueOf s' = .ok w ∧ ValueAtMost v w :=
  coupling_atMost.exists_fold blank.2 (scope_atMost blank.1 more) h

/-- Where no input at any level stores a value, a value that is known under an assignment
stays the value under every assignment that extends it. -/
theorem valueOf_of_extends {e : Expression} (blank : e.Throughout StoresNothing)
    {s s' : Assignment} (more : s'.Extends s) {v : Bool} (h : e.valueOf s = .ok (some v)) :
    e.valueOf s' = .ok (some v) := by
  obtain ⟨w, hw, missing | same⟩ := exists_valueOf_of_extends blank more h
  · cases missing
  · rw [hw, same]

/-- The sum of `b` and `c` is negated whatever `d` is, which only the nested expression binds. -/
theorem valueOf_of_extends_with_ignored_operand :
    let sum := (empty.append .or [.input "b", .input "c"]).append .not [.input "d"]
    let e := ofTerms [⟨.and, [.input "a", .nested sum]⟩]
    let s : Assignment := ⟨[("a", true), ("b", false), ("c", false)]⟩
    let t : Assignment := ⟨[("d", false), ("a", false)]⟩
    e.Throughout StoresNothing ∧ (s.append t).Extends s ∧ e.valueOf s = .ok (some true) ∧
      e.valueOf (s.append t) = .ok (some true) := by
  intro sum e s t
  have inner : sum.Throughout StoresNothing :=
    throughout_iff.mpr ⟨by decide, fun _ hf => absurd hf List.not_mem_nil⟩
  have blank : e.Throughout StoresNothing := by
    refine throughout_iff.mpr ⟨by decide, fun f hf => ?_⟩
    obtain rfl := List.mem_singleton.mp hf
    exact inner
  have known : e.valueOf s = .ok (some true) := by decide
  exact ⟨blank, s.append_extends t, known,
    valueOf_of_extends blank (s.append_extends t) known⟩

-- A value that a nested expression stores gives way to one that is assigned.
example :
    let stored := (empty.append .and [.input "b"]).assign "b" true
    let e := ofTerms [⟨.and, [.nested stored]⟩]
    ¬ stored.StoresNothing ∧ e.valueOf .empty = .ok (some true) ∧
      e.valueOf ⟨[("b", false)]⟩ = .ok (some false) := by
  decide

end Expression

end SwitchingAlgebra
