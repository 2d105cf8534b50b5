-- Expressions that bind every name that they mention, and whose nested expressions and
-- snapshots do so too. Building, labelling, simplifying and tabulating keep this.
import SwitchingAlgebra.TruthTable
import SwitchingAlgebra.Proofs.Inheriting
import SwitchingAlgebra.Proofs.Repeating
import SwitchingAlgebra.Proofs.Tabulating

namespace SwitchingAlgebra

/-- Every name that the terms mention is bound, and the same holds of each nested expression
and of each snapshot on its own. -/
inductive Expression.SelfBound : Expression → Prop
  | intro {e : Expression} : e.inputs.Binds e.mentions →
      (∀ t ∈ e.terms, ∀ n : Expression, .nested n ∈ t.operands → SelfBound n) →
      (∀ o ∈ e.outputs, SelfBound o.snapshot) → SelfBound e

/-- The same of what is nested in an operand. -/
def Operand.SelfBound (x : Operand) : Prop := ∀ n : Expression, x = .nested n → n.SelfBound

@[simp] theorem Operand.selfBound_input (n : String) : (Operand.input n).SelfBound := by
  rintro e ⟨⟩

@[simp] theorem Operand.selfBound_nested {e : Expression} :
    (Operand.nested e).SelfBound ↔ e.SelfBound := by
  constructor
  · exact fun h => h e rfl
  · rintro h n ⟨⟩
    exact h

namespace Expression

variable {e : Expression}

theorem SelfBound.names (h : e.SelfBound) : e.inputs.Binds e.mentions := by
  cases h
  assumption

theorem SelfBound.operands (h : e.SelfBound) : e.AllOperands Operand.SelfBound := by
  cases h with
  | intro _ nested _ => exact fun t ht x hx n hn => nested t ht n (hn ▸ hx)

theorem SelfBound.outputs (h : e.SelfBound) : ∀ o ∈ e.outputs, o.snapshot.SelfBound := by
  cases h
  assumption

theorem SelfBound.of_operands (names : e.inputs.Binds e.mentions)
    (operands : e.AllOperands Operand.SelfBound) (outputs : ∀ o ∈ e.outputs, o.snapshot.SelfBound) :
    e.SelfBound :=
  .intro names (fun t ht n hn => operands t ht _ hn n rfl) outputs

theorem selfBound_empty : SelfBound .empty := by
  refine .intro (fun n hn => ?_) (fun t ht => ?_) (fun o ho => ?_)
  · cases hn
  · cases ht
  · cases ho

/-- New bindings and outputs leave an expression self-bound as long as no name is lost. -/
theorem SelfBound.rebind (h : e.SelfBound) {m : Bindings} {os : List Output} (journal : Journal)
    (kept : ∀ n ∈ e.mentions, m.contains n) (hos : ∀ o ∈ os, o.snapshot.SelfBound) :
    SelfBound { inputs := m, terms := e.terms, outputs := os, journal } := by
  have same : Expression.mentions { inputs := m, terms := e.terms, outputs := os, journal } =
      e.mentions := mentions_of_terms rfl
  refine .of_operands ?_ (h.operands.of_terms rfl) hos
  rw [same]
  exact kept

/-! ## Terms -/

theorem SelfBound.append (h : e.SelfBound) (op : Operator) {xs : List Operand}
    (hxs : ∀ x ∈ xs, x.SelfBound) : (e.append op xs).SelfBound := by
  refine .of_operands (binds_append h.names op (fun n hn => (hxs _ hn n rfl).names)) ?_ h.outputs
  intro t ht
  rcases List.mem_append.mp ht with ht | ht
  · exact h.operands t ht
  · rw [List.mem_singleton.mp ht]
    exact hxs

theorem SelfBound.negate (h : e.SelfBound) : e.negate.SelfBound := h.append .not (by simp)

theorem SelfBound.push (h : e.SelfBound) {e' : Expression} {op : Operator} {xs : List Operand}
    (hxs : ∀ x ∈ xs, x.SelfBound) (taken : e.push op xs = .ok e') : e'.SelfBound := by
  have appended := h.append op hxs
  obtain ⟨-, inputs, terms, outputs⟩ := push_eq_ok taken
  have names : e'.inputs.Binds e'.mentions := by
    rw [inputs, mentions_of_terms terms]
    exact appended.names
  exact .of_operands names (appended.operands.of_terms terms) (outputs ▸ appended.outputs)

theorem SelfBound.setInverted (h : e.SelfBound) (name : String) (flag : Bool) :
    (e.setInverted name flag).SelfBound :=
  h.rebind _ (fun n hn => Bindings.contains_update _ name _ (h.names n hn)) h.outputs

theorem SelfBound.assign (h : e.SelfBound) (name : String) (v : Bool) :
    (e.assign name v).SelfBound :=
  h.rebind _ (fun n hn => Bindings.contains_update _ name _ (h.names n hn)) h.outputs

/-! ## Labels -/

theorem SelfBound.snapshot (h : e.SelfBound) : e.snapshot.SelfBound :=
  h.rebind {} h.names (by simp)

theorem SelfBound.labelled (h : e.SelfBound) (inverted : Bool) :
    (e.labelled inverted).SelfBound := by
  unfold Expression.labelled
  split
  · exact h.snapshot.negate
  · exact h.snapshot

theorem SelfBound.addLabel (h : e.SelfBound) (name : Option String) (inverted : Bool) :
    (e.addLabel name inverted).SelfBound := by
  refine h.rebind _ h.names (fun o ho => ?_)
  rcases mem_put ho with rfl | ho
  · exact h.labelled inverted
  · exact h.outputs o ho

theorem SelfBound.toggle (h : e.SelfBound) (name : String) :
    SelfBound { e with inputs := e.inputs.toggle name } :=
  h.rebind _ (fun n hn => e.inputs.contains_toggle name (h.names n hn)) h.outputs

theorem SelfBound.invertInput (h : e.SelfBound) (name : String) :
    (e.invertInput name).SelfBound := by
  unfold Expression.invertInput
  split
  · refine h.rebind _ (fun n hn => e.inputs.contains_toggle name (h.names n hn)) (fun o ho => ?_)
    obtain ⟨p, hp, rfl⟩ := List.mem_map.mp ho
    exact (h.outputs p hp).toggle name
  · exact h

theorem SelfBound.invert (h : e.SelfBound) (names : List String) : (e.invert names).SelfBound := by
  unfold Expression.invert
  induction names generalizing e with
  | nil => exact h
  | cons name names ih => exact ih (h.invertInput name)

end Expression

/-! ## Tables -/

/-- The labels of nested expressions keep self-bound snapshots, at any depth. -/
theorem Operand.selfBound_outputsOf {x : Operand} (h : x.SelfBound) :
    ∀ o ∈ x.outputsOf, o.snapshot.SelfBound := by
  induction x using Operand.induct with
  | input n => simp [outputsOf]
  | nested n ih =>
    intro o ho
    rcases (mem_outputsOf_nested n o).mp ho with ho | ho
    · exact (selfBound_nested.mp h).outputs o ho
    · obtain ⟨t, ht, x, hx, ho⟩ := (n.mem_nestedOutputs o).mp ho
      exact ih t ht x hx ((selfBound_nested.mp h).operands t ht x hx) o ho

namespace Expression

variable {e : Expression}

theorem SelfBound.nestedOutputs (h : e.SelfBound) : ∀ o ∈ e.nestedOutputs, o.snapshot.SelfBound := by
  intro o ho
  obtain ⟨t, ht, x, hx, ho⟩ := (e.mem_nestedOutputs o).mp ho
  exact Operand.selfBound_outputsOf (h.operands t ht x hx) o ho

theorem SelfBound.gatherLabels (h : e.SelfBound) : e.gatherLabels.SelfBound := by
  refine h.rebind _ h.names (fun o ho => ?_)
  exact (Output.mem_foldl_addNew ho).elim (h.outputs o) (h.nestedOutputs o)

theorem SelfBound.withOutputs (h : e.SelfBound) : e.withOutputs.SelfBound := by
  unfold Expression.withOutputs
  split
  · exact (h.addLabel none false).gatherLabels
  · exact h.gatherLabels

theorem SelfBound.prepared (h : e.SelfBound) : e.prepared.SelfBound := by
  unfold Expression.prepared
  split
  · exact h
  · exact h.withOutputs

end Expression

/-! ## Simplifications -/

theorem Bindings.contains_refineBy (m outer : Bindings) (n : String) :
    (m.refineBy outer).contains n ↔ m.contains n := by
  obtain ⟨entries, ascending⟩ := m
  simp only [refineBy, contains, get?]
  clear ascending
  induction entries with
  | nil => rfl
  | cons entry rest ih =>
    obtain ⟨name, b⟩ := entry
    rw [List.map_cons, lookup_cons_entry, lookup_cons_entry]
    split
    · simp
    · exact ih

/-- A group binds the names that its operands bring along. -/
theorem Expression.selfBound_group (e : Expression) (op : Operator) {xs : List Operand}
    (hxs : ∀ x ∈ xs, x.SelfBound) : (e.group op xs).SelfBound := by
  have appended := selfBound_empty.append op hxs
  refine appended.rebind _ (fun n hn => ?_) appended.outputs
  exact (Bindings.contains_refineBy _ e.inputs n).mpr (appended.names n hn)

theorem Operand.selfBound_lasting : Lasting Operand.SelfBound where
  opened n h := (selfBound_nested.mp h).operands
  grouped e op xs hxs := selfBound_nested.mpr (e.selfBound_group op hxs)
  replaced n n' stands h operands := by
    have before := selfBound_nested.mp h
    exact selfBound_nested.mpr
      (.of_operands (stands.names before.names) operands (stands.outputs ▸ before.outputs))

namespace Expression

variable {e : Expression}

theorem SelfBound.passes (h : e.SelfBound) (c : SimplifyConfig) :
    (e.passes c).expression.SelfBound := by
  have stands := passes_standsFor c e
  exact .of_operands (stands.names h.names) (h.operands.passes Operand.selfBound_lasting c)
    (stands.outputs ▸ h.outputs)

/-- An output that follows the simplified terms finds its names among their inputs: those of
its own negations were bound before, and a simplification drops no binding until its end. -/
theorem SelfBound.refreshed {before now : Expression} (hnow : now.SelfBound)
    (stands : now.StandsFor before) {o o' : Output} (ho : o.snapshot.SelfBound)
    (h : o.refreshed? before now = some o') : o'.snapshot.SelfBound := by
  have inputs := Output.inputs_of_refreshed? h
  have mentions := fun n => @Output.mentions_refreshed before now o o' h n
  obtain ⟨earlier, negations, terms, -, rfl⟩ := Output.refreshed?_eq_some h
  refine .of_operands (fun n hn => ?_) (fun t ht => ?_) (by simp [Expression.snapshot])
  · rcases mentions n hn with hn | hn
    · exact hnow.names n hn
    · obtain ⟨b, hb⟩ := Option.isSome_iff_exists.mp (inputs ▸ ho.names n hn)
      exact Option.isSome_iff_exists.mpr ⟨b, stands.bindings n b hb⟩
  · rcases List.mem_append.mp ht with ht | ht
    · exact hnow.operands t ht
    · exact ho.operands t (terms ▸ List.mem_append_right _ ht)

theorem SelfBound.refreshOutputs {before : Expression} (h : e.SelfBound)
    (stands : e.StandsFor before) : (refreshOutputs before e).SelfBound := by
  refine h.rebind _ h.names (fun o ho => ?_)
  obtain ⟨p, hp, rfl⟩ := List.mem_map.mp ho
  cases hr : p.refreshed? before e with
  | none => exact h.outputs p hp
  | some o' => exact h.refreshed stands (h.outputs p hp) hr

theorem SelfBound.renameOutput (h : e.SelfBound) : e.renameOutput.SelfBound := by
  unfold Expression.renameOutput
  split
  · refine h.rebind _ h.names (fun o ho => ?_)
    rcases Output.mem_rename ho with rfl | ho
    · exact h.snapshot
    · exact h.outputs o (List.mem_filter.mp ho).1
  · exact h

theorem SelfBound.dropUnused (h : e.SelfBound) : e.dropUnused.SelfBound := by
  refine h.rebind _ (fun n hn => ?_) h.outputs
  have kept := get?_dropUnused (isUsed_of_mentions hn)
  rw [Expression.dropUnused] at kept
  rw [Bindings.contains, kept]
  exact h.names n hn

/-- A simplification leaves a self-bound expression, also when it is given up. -/
theorem SelfBound.simplify (h : e.SelfBound) (c : SimplifyConfig) :
    (e.simplify c).expression.SelfBound := by
  have passed := h.passes c
  have dropped := (passed.refreshOutputs (passes_standsFor c e)).renameOutput.dropUnused
  exact simplify_holds h passed (dropped.rebind _ dropped.names dropped.outputs)

end Expression

end SwitchingAlgebra
