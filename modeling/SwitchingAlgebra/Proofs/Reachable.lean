-- Expressions that calls can lead to: built term by term, labelled, flagged and simplified
-- in any order. Each binds every name that its terms and its outputs mention, and no NOT
-- in it has more than one operand.
import SwitchingAlgebra.Proofs.Bound
import SwitchingAlgebra.Proofs.Soundness

namespace SwitchingAlgebra

/-! ## Histories -/

/-- What a history of calls can lead to. Operands are names or come from histories of
their own. -/
inductive Expression.Reachable : Expression → Prop
  | empty : Reachable .empty
  | push {e e' : Expression} {op : Operator} {operands : List Operand} : Reachable e →
      (∀ n : Expression, .nested n ∈ operands → Reachable n) →
      e.push op operands = .ok e' → Reachable e'
  | addLabel {e : Expression} (name : Option String) (inverted : Bool) : Reachable e →
      Reachable (e.addLabel name inverted)
  | simplify {e : Expression} (c : SimplifyConfig) : Reachable e →
      Reachable (e.simplify c).expression
  | assign {e : Expression} (name : String) (v : Bool) : Reachable e → Reachable (e.assign name v)
  | setInverted {e : Expression} (name : String) (flag : Bool) : Reachable e →
      Reachable (e.setInverted name flag)
  | invertInput {e : Expression} (name : String) : Reachable e → Reachable (e.invertInput name)

theorem Expression.Reachable.pushNames (op : Operator) (names : List String) {e e' : Expression}
    (h : e.Reachable) (taken : e.push op (names.map .input) = .ok e') : e'.Reachable :=
  h.push (by simp) taken

/-- Every name that terms or outputs mention is bound, and a `NOT` has at most one operand. -/
structure Expression.Closed (e : Expression) : Prop where
  names : e.inputs.Binds e.mentions
  negatesOne : e.Everywhere Term.NegatesOne
  outputs : ∀ o ∈ e.outputs, e.inputs.Binds o.snapshot.mentions

namespace Expression

/-! ## One call -/

theorem Closed.append {e : Expression} (h : e.Closed) {op : Operator} {xs : List Operand}
    (hxs : ∀ n : Expression, .nested n ∈ xs → n.Closed) (hone : op = .not → xs.length ≤ 1) :
    (e.append op xs).Closed where
  names := binds_append h.names op (fun n hn => (hxs n hn).names)
  negatesOne := by
    intro t ht
    rcases List.mem_append.mp ht with ht | ht
    · exact h.negatesOne t ht
    · rw [List.mem_singleton.mp ht]
      refine ⟨hone, fun x hx => ?_⟩
      cases x with
      | input n => exact .input n
      | nested n => exact Operand.everywhere_nested.mpr (hxs n hx).negatesOne
  outputs o ho n hn := Operand.contains_foldl_bindInto xs (h.outputs o ho n hn)

/-- What a term that is taken does: it is within its limit, and it is appended. -/
theorem push_eq_ok {e e' : Expression} {op : Operator} {xs : List Operand}
    (h : e.push op xs = .ok e') : (op = .not → xs.length ≤ 1) ∧ e'.inputs = (e.append op xs).inputs ∧
      e'.terms = (e.append op xs).terms ∧ e'.outputs = (e.append op xs).outputs := by
  unfold push at h
  split at h
  · cases h
  · rename_i allowed
    constructor
    · rintro rfl
      by_cases hlen : xs.length > 1
      · simp [arityFault?, Operator.maxOperands?, hlen] at allowed
      · omega
    · split at h <;> cases h <;> exact ⟨rfl, rfl, rfl⟩

/-- Being closed depends on inputs, terms and outputs alone. -/
theorem Closed.congr {e e' : Expression} (h : e.Closed) (inputs : e'.inputs = e.inputs)
    (terms : e'.terms = e.terms) (outputs : e'.outputs = e.outputs) : e'.Closed where
  names := by
    rw [inputs, mentions_of_terms terms]
    exact h.names
  negatesOne := by
    unfold Everywhere
    rw [terms]
    exact h.negatesOne
  outputs := by
    rw [inputs, outputs]
    exact h.outputs

/-- New bindings and outputs keep an expression closed as long as no name is lost. -/
theorem Closed.rebind {e : Expression} (h : e.Closed) {m : Bindings} {os : List Output}
    (kept : ∀ n, e.inputs.contains n → m.contains n)
    (hos : ∀ o ∈ os, e.inputs.Binds o.snapshot.mentions) :
    Closed { e with inputs := m, outputs := os } where
  names := by
    have same : Expression.mentions { e with inputs := m, outputs := os } = e.mentions :=
      mentions_of_terms rfl
    rw [same]
    exact fun n hn => kept n (h.names n hn)
  negatesOne := h.negatesOne
  outputs o ho n hn := kept n (hos o ho n hn)

@[simp] theorem mentions_snapshot (e : Expression) : e.snapshot.mentions = e.mentions :=
  mentions_of_terms rfl

/-- A label mentions what the expression mentions. -/
theorem mentions_labelled (e : Expression) (inverted : Bool) (n : String) :
    n ∈ (e.labelled inverted).mentions ↔ n ∈ e.mentions := by
  unfold labelled
  split
  · simp [negate, mentions_append]
  · rw [mentions_snapshot]

theorem mem_put {o p : Output} {os : List Output} (h : p ∈ o.put os) : p = o ∨ p ∈ os := by
  induction os with
  | nil => exact .inl (by simpa [Output.put] using h)
  | cons q os ih =>
    simp only [Output.put] at h
    split at h
    · exact (List.mem_cons.mp h).imp_right (List.mem_cons_of_mem _)
    · rcases List.mem_cons.mp h with rfl | h
      · exact .inr (by simp)
      · exact (ih h).imp_right (List.mem_cons_of_mem _)

theorem Closed.addLabel {e : Expression} (h : e.Closed) (name : Option String) (inverted : Bool) :
    (e.addLabel name inverted).Closed := by
  apply h.rebind (fun _ hn => hn)
  intro o ho
  rcases mem_put ho with rfl | ho
  · exact fun n hn => h.names n ((e.mentions_labelled inverted n).mp hn)
  · exact h.outputs o ho

theorem Closed.invertInput {e : Expression} (h : e.Closed) (name : String) :
    (e.invertInput name).Closed := by
  unfold Expression.invertInput
  split
  · apply h.rebind (fun n hn => e.inputs.contains_toggle name hn)
    intro o ho
    obtain ⟨p, hp, rfl⟩ := List.mem_map.mp ho
    have same : (Output.invertInput name p).snapshot.mentions = p.snapshot.mentions :=
      mentions_of_terms rfl
    rw [same]
    exact h.outputs p hp
  · exact h

/-! ## Simplifications -/

theorem Closed.of_standsFor {e e' : Expression} (h : e.Closed) (stands : e'.StandsFor e) :
    e'.Closed := by
  have kept : ∀ n, e.inputs.contains n → e'.inputs.contains n := by
    intro n hn
    obtain ⟨b, hb⟩ := Option.isSome_iff_exists.mp hn
    exact Option.isSome_iff_exists.mpr ⟨b, stands.bindings n b hb⟩
  refine ⟨stands.names h.names, stands.negatesOne h.negatesOne, fun o ho n hn => ?_⟩
  exact kept n (h.outputs o (stands.outputs ▸ ho) n hn)

end Expression

theorem Term.exists_of_isPrefixOf {ts us : List Term} (h : ts.isPrefixOf us) :
    ∃ earlier, us = earlier ++ us.drop ts.length ∧ Term.sameAll ts earlier := by
  induction ts generalizing us with
  | nil => exact ⟨[], rfl, rfl⟩
  | cons t ts ih =>
    cases us with
    | nil => cases h
    | cons u us =>
      simp only [List.isPrefixOf, Bool.and_eq_true] at h
      obtain ⟨earlier, hus, hsame⟩ := ih h.2
      refine ⟨u :: earlier, ?_, ?_⟩
      · rw [List.length_cons, List.drop_succ_cons, List.cons_append, ← hus]
      · rw [Term.sameAll, Bool.and_eq_true]
        exact ⟨h.1, hsame⟩

/-- An output that follows the simplified terms keeps the negations that it had behind the
terms before. -/
theorem Output.refreshed?_eq_some {before now : Expression} {o o' : Output}
    (h : o.refreshed? before now = some o') :
    ∃ earlier negations, o.snapshot.terms = earlier ++ negations ∧
      Term.sameAll before.terms earlier ∧
      o' = ⟨o.label, { now.snapshot with terms := now.terms ++ negations }⟩ := by
  unfold Output.refreshed? at h
  simp only at h
  split at h
  · rename_i hfollows
    simp only [Bool.and_eq_true] at hfollows
    obtain ⟨earlier, hterms, hsame⟩ := Term.exists_of_isPrefixOf hfollows.1.2
    exact ⟨earlier, _, hterms, hsame, (Option.some.inj h).symm⟩
  · cases h

theorem Output.mentions_refreshed {before now : Expression} {o o' : Output}
    (h : o.refreshed? before now = some o') {n : String} (hn : n ∈ o'.snapshot.mentions) :
    n ∈ now.mentions ∨ n ∈ o.snapshot.mentions := by
  obtain ⟨earlier, negations, hterms, _, rfl⟩ := Output.refreshed?_eq_some h
  obtain ⟨t, ht, x, hx, hnx⟩ := (Expression.mem_mentions _ n).mp hn
  rcases List.mem_append.mp ht with ht | ht
  · exact .inl ((now.mem_mentions n).mpr ⟨t, ht, x, hx, hnx⟩)
  · have tail : t ∈ o.snapshot.terms := hterms ▸ List.mem_append_right _ ht
    exact .inr ((Expression.mem_mentions _ n).mpr ⟨t, tail, x, hx, hnx⟩)

theorem Output.mem_rename {old new : String} {snapshot : Expression} {o : Output}
    {os : List Output} (h : o ∈ Output.rename old new snapshot os) :
    o = ⟨new, snapshot⟩ ∨ o ∈ os := by
  induction os with
  | nil => cases h
  | cons p os ih =>
    simp only [Output.rename] at h
    split at h
    · exact (List.mem_cons.mp h).imp_right (List.mem_cons_of_mem _)
    · rcases List.mem_cons.mp h with rfl | h
      · exact .inr (by simp)
      · exact (ih h).imp_right (List.mem_cons_of_mem _)

namespace Expression

theorem Closed.refreshOutputs {e : Expression} (h : e.Closed) (before : Expression) :
    (refreshOutputs before e).Closed := by
  apply h.rebind (fun _ hn => hn)
  intro o ho
  obtain ⟨p, hp, rfl⟩ := List.mem_map.mp ho
  cases hr : p.refreshed? before e with
  | none => exact h.outputs p hp
  | some o' => exact fun n hn => (Output.mentions_refreshed hr hn).elim (h.names n) (h.outputs p hp n)

theorem Closed.renameOutput {e : Expression} (h : e.Closed) : e.renameOutput.Closed := by
  unfold Expression.renameOutput
  split
  · apply h.rebind (fun _ hn => hn)
    intro o ho
    rcases Output.mem_rename ho with rfl | ho
    · rw [mentions_snapshot]
      exact h.names
    · exact h.outputs o (List.mem_filter.mp ho).1
  · exact h

theorem Closed.dropUnused {e : Expression} (h : e.Closed) : e.dropUnused.Closed where
  names n hn := by
    have same : e.dropUnused.mentions = e.mentions := mentions_of_terms rfl
    rw [same] at hn
    rw [Bindings.contains, get?_dropUnused (isUsed_of_mentions hn)]
    exact h.names n hn
  negatesOne := h.negatesOne
  outputs o ho n hn := by
    rw [Bindings.contains, get?_dropUnused (isUsed_of_output (e := e) ho hn)]
    exact h.outputs o ho n hn

theorem Closed.finish {e : Expression} (h : e.Closed) (c : SimplifyConfig) (before : Expression) :
    (finish c before e).1.Closed :=
  (h.refreshOutputs before).renameOutput.dropUnused.congr rfl rfl rfl

theorem Closed.simplify {e : Expression} (h : e.Closed) (c : SimplifyConfig) :
    (e.simplify c).expression.Closed := by
  have run := h.of_standsFor (passes_standsFor c e)
  exact simplify_holds h run (run.finish c e)

/-- Whatever calls lead to is closed. -/
theorem Reachable.closed {e : Expression} (h : e.Reachable) : e.Closed := by
  induction h with
  | empty =>
    refine ⟨fun n hn => ?_, fun t ht => ?_, fun o ho => ?_⟩
    · cases hn
    · cases ht
    · cases ho
  | push _ _ taken ih nested =>
    obtain ⟨hone, inputs, terms, outputs⟩ := push_eq_ok taken
    exact (ih.append nested hone).congr inputs terms outputs
  | addLabel name inverted _ ih => exact ih.addLabel name inverted
  | simplify c _ ih => exact ih.simplify c
  | assign name v _ ih =>
    exact ih.rebind (fun n hn => Bindings.contains_update _ name _ hn) ih.outputs
  | setInverted name flag _ ih =>
    exact ih.rebind (fun n hn => Bindings.contains_update _ name _ hn) ih.outputs
  | invertInput name _ ih => exact ih.invertInput name

end Expression

end SwitchingAlgebra
