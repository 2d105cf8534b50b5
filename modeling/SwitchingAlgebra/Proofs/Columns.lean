-- Columns of a table that hold a value in every row. A simplification leaves them so, as long as
-- no other output takes their label, and as long as the inputs that it drops are missing from no
-- nested output.
import SwitchingAlgebra.Proofs.Inheriting
import SwitchingAlgebra.Proofs.Resolving
import SwitchingAlgebra.Proofs.Tabulating

namespace SwitchingAlgebra.Expression

/-! ## Cells -/

/-- A row gives every bound name a value. -/
theorem isSome_values_row {e : Expression} {n : String} (hn : e.inputs.contains n) (k : Nat) :
    ((e.scope (.ofRow e.inputs.names k)).values n).isSome := by
  obtain ⟨i, hi⟩ := List.mem_iff_getElem?.mp (Bindings.mem_names_of_contains hn)
  have assigned := Assignment.get?_ofRow e.inputs.names_nodup k hi
  rw [Bindings.values, scope, Assignment.get?_applyTo, assigned]
  rfl

/-- A cell holds a value if the snapshot of the output resolves, and only then. -/
theorem isSome_outputValue {e : Expression} {o : Output} {k : Nat} {v : Option Bool}
    (names : e.inputs.Binds o.snapshot.mentions) (h : e.outputValue o k = .ok v) :
    v.isSome ↔ o.snapshot.Resolves := by
  have around : (e.scope (.ofRow e.inputs.names k)).Binds o.snapshot.mentions :=
    Assignment.applyTo_binds _ names
  have hd := depth_of_fold h
  rw [outputValue, o.snapshot.fold_eq_meaning (scopeIn_binds around) hd] at h
  cases h
  refine (resolves_iff (fun n hn => ?_)).symm
  rw [values_scopeIn (around n hn)]
  exact isSome_values_row (names n hn) k

/-- There is a row at least, so the column of an output that does not resolve shows it. -/
theorem none_not_mem_values {e : Expression} {o : Output} {values : List (Option Bool)}
    (names : e.inputs.Binds o.snapshot.mentions)
    (h : (List.range e.rowCount).mapM (e.outputValue o) = .ok values) :
    none ∉ values ↔ o.snapshot.Resolves := by
  have cells := forall₂_of_mapM h
  constructor
  · intro full
    have rows : 0 ∈ List.range e.rowCount := List.mem_range.mpr (Nat.two_pow_pos _)
    obtain ⟨v, hv, cell⟩ := exists_of_forall₂ cells.flip rows
    exact (isSome_outputValue names cell).mp (Option.isSome_iff_ne_none.mpr (fun hn => full (hn ▸ hv)))
  · intro resolves missing
    obtain ⟨k, -, cell⟩ := exists_of_forall₂ cells missing
    cases (isSome_outputValue names cell).mpr resolves

/-! ## The outputs of a table -/

theorem withOutputs_inputs (e : Expression) : e.withOutputs.inputs = e.inputs := by
  unfold withOutputs
  split <;> rfl

/-- A table shows the outputs of the expression, or its text, and those of nested expressions
whose labels are not taken. -/
theorem mem_withOutputs {e : Expression} {o : Output} (h : o ∈ e.withOutputs.outputs) :
    o ∈ e.outputs ∨ (e.outputs = [] ∧ o = ⟨e.text, e.snapshot⟩) ∨
      (o ∈ e.nestedOutputs ∧ ∀ p ∈ e.outputs, p.label ≠ o.label) := by
  unfold withOutputs at h
  split at h
  · rename_i unlabelled
    have own : e.outputs = [] := List.isEmpty_iff.mp unlabelled
    have below : (e.addLabel none false).nestedOutputs = e.nestedOutputs := by cases e; rfl
    rcases Output.mem_foldl_addNew h with h | h
    · rw [addLabel, own] at h
      exact .inr (.inl ⟨own, List.mem_singleton.mp h⟩)
    · exact .inr (.inr ⟨below ▸ h, by simp [own]⟩)
  · by_cases own : o ∈ e.outputs
    · exact .inl own
    · have nested := (Output.mem_foldl_addNew h).resolve_left own
      exact .inr (.inr ⟨nested, Output.fresh_of_mem_foldl_addNew h own⟩)

theorem binds_withOutputs {e : Expression} (names : e.inputs.Binds e.mentions)
    (labels : ∀ o ∈ e.outputs ++ e.nestedOutputs, e.inputs.Binds o.snapshot.mentions)
    {o : Output} (h : o ∈ e.withOutputs.outputs) : e.inputs.Binds o.snapshot.mentions := by
  rcases mem_withOutputs h with h | ⟨-, rfl⟩ | ⟨h, -⟩
  · exact labels o (List.mem_append_left _ h)
  · rwa [mentions_snapshot]
  · exact labels o (List.mem_append_right _ h)

/-- The columns of a table are those of its outputs, one by one. -/
theorem forall₂_truthColumns {e : Expression} {columns : List OutputColumn}
    (h : e.truthColumns = .ok columns) :
    List.Forall₂ (fun o (c : OutputColumn) => c.label = o.label ∧
      (List.range e.rowCount).mapM (e.outputValue o) = .ok c.values)
      e.withOutputs.outputs columns := by
  unfold truthColumns at h
  split at h
  · cases h
  · refine (forall₂_of_mapM h).imp (fun o c made => ?_)
    have rows : e.withOutputs.rowCount = e.rowCount := by rw [rowCount, rowCount, withOutputs_inputs]
    have cell : e.withOutputs.outputValue o = e.outputValue o := by
      funext k
      rw [outputValue, outputValue, scope, scope, withOutputs_inputs]
    rw [rows, cell] at made
    cases hvalues : (List.range e.rowCount).mapM (e.outputValue o) with
    | error err =>
      rw [hvalues] at made
      cases made
    | ok values =>
      rw [hvalues] at made
      cases made
      exact ⟨rfl, rfl⟩

theorem exists_output_of_column {e : Expression} {columns : List OutputColumn}
    (h : e.truthColumns = .ok columns) {column : OutputColumn} (hc : column ∈ columns) :
    ∃ o ∈ e.withOutputs.outputs, column.label = o.label ∧
      (List.range e.rowCount).mapM (e.outputValue o) = .ok column.values :=
  exists_of_forall₂ (forall₂_truthColumns h) hc

/-! ## Outputs of a simplified expression -/

theorem mem_of_renameOutput {e : Expression} {o : Output} (h : o ∈ e.renameOutput.outputs) :
    o ∈ e.outputs ∨ o = ⟨e.text, e.snapshot⟩ ∧
      ∃ p ∈ e.outputs, e.journal.firstText = some p.label ∧ e.text ≠ p.label := by
  unfold renameOutput at h
  split at h
  · rename_i old new hrenaming
    obtain ⟨first, rfl, hne, p, hp, rfl⟩ := renaming?_eq_some hrenaming
    rcases Output.mem_rename h with rfl | h
    · exact .inr ⟨rfl, p, hp, first, hne⟩
    · exact .inl (List.mem_filter.mp h).1
  · exact .inl h

/-- An output of the simplified expression is the expression itself, renamed from the first
text, or an output from before that follows the simplified terms or stayed as it was. -/
theorem mem_outputs_of_simplify {c : SimplifyConfig} {e : Expression}
    (ok : (e.simplify c).outcome = .ok ()) {o : Output} (ho : o ∈ (e.simplify c).expression.outputs) :
    (o.label = (e.simplify c).expression.text ∧
      o.snapshot.terms = (e.passes c).expression.terms ∧ e.Renames (e.simplify c).expression) ∨
    ∃ p ∈ e.outputs, o = (p.refreshed? e (e.passes c).expression).getD p := by
  obtain ⟨-, -, result⟩ := passes_of_ok ok
  have outputs := (passes_standsFor c e).outputs
  rw [result] at ho ⊢
  have text : (refreshOutputs e (e.passes c).expression).text = (e.passes c).expression.text :=
    text_congr rfl (fun _ _ => rfl)
  rcases mem_of_renameOutput (e := refreshOutputs e (e.passes c).expression) ho with
    ho | ⟨rfl, p, hp, first, hne⟩
  · obtain ⟨p, hp, rfl⟩ := List.mem_map.mp ho
    exact .inr ⟨p, outputs ▸ hp, rfl⟩
  · obtain ⟨q, hq, rfl⟩ := List.mem_map.mp hp
    have remembered := (passes_firstText c e).symm.trans first
    rw [q.label_refreshed] at remembered hne
    have old : q.label = e.firstText := (Option.some.inj remembered).symm
    refine .inl ⟨text.trans (text_finish c e _).symm, rfl, ?_, q, outputs ▸ hq, old⟩
    rwa [text_finish, ← text, ← old]

/-- A label is still there unless it is the first text and gets renamed. -/
theorem exists_label_of_simplify {c : SimplifyConfig} {e : Expression}
    (ok : (e.simplify c).outcome = .ok ()) {o : Output} (ho : o ∈ e.outputs) :
    (∃ p ∈ (e.simplify c).expression.outputs, p.label = o.label) ∨
      (o.label = e.firstText ∧ e.Renames (e.simplify c).expression ∧
        ∃ p ∈ (e.simplify c).expression.outputs, p.label = (e.simplify c).expression.text) := by
  rcases refreshed_or_renamed ok ho with stays | ⟨old | new, renames, p, hp, text, -⟩
  · exact .inl ⟨_, stays, o.label_refreshed _ _⟩
  · exact .inr ⟨old, renames, p, hp, text⟩
  · exact .inl ⟨p, hp, text.trans new.symm⟩

/-- Outputs do not get lost altogether. -/
theorem outputs_eq_nil_of_simplify {c : SimplifyConfig} {e : Expression}
    (ok : (e.simplify c).outcome = .ok ()) (h : (e.simplify c).expression.outputs = []) :
    e.outputs = [] := by
  cases hos : e.outputs with
  | nil => rfl
  | cons o os =>
    have ho : o ∈ e.outputs := hos ▸ List.mem_cons_self ..
    rcases exists_label_of_simplify ok ho with ⟨p, hp, -⟩ | ⟨-, -, p, hp, -⟩
    · rw [h] at hp
      cases hp
    · rw [h] at hp
      cases hp

/-- The names that are mentioned stay bound. -/
theorem binds_simplify {c : SimplifyConfig} {e : Expression} (names : e.inputs.Binds e.mentions)
    (ok : (e.simplify c).outcome = .ok ()) :
    (e.simplify c).expression.inputs.Binds (e.simplify c).expression.mentions := by
  obtain ⟨-, -, result⟩ := passes_of_ok ok
  rw [result, mentions_of_terms (finish_terms c e (e.passes c).expression)]
  intro n hn
  rw [Bindings.contains, finish_inputs c e hn]
  exact (passes_standsFor c e).names names n hn

/-- So do the names of the outputs. -/
theorem binds_outputs_of_simplify {c : SimplifyConfig} {e : Expression}
    (names : e.inputs.Binds e.mentions) (labels : ∀ o ∈ e.outputs, e.inputs.Binds o.snapshot.mentions)
    (ok : (e.simplify c).outcome = .ok ()) {o : Output}
    (ho : o ∈ (e.simplify c).expression.outputs) :
    (e.simplify c).expression.inputs.Binds o.snapshot.mentions := by
  intro n hn
  have stands := passes_standsFor c e
  have kept : ∀ n, e.inputs.contains n → (e.passes c).expression.inputs.contains n := by
    intro n hn
    obtain ⟨b, hb⟩ := Option.isSome_iff_exists.mp hn
    exact Option.isSome_iff_exists.mpr ⟨b, stands.bindings n b hb⟩
  have bound : (e.passes c).expression.inputs.contains n := by
    rcases mem_outputs_of_simplify ok ho with ⟨-, terms, -⟩ | ⟨p, hp, rfl⟩
    · rw [mentions_of_terms terms] at hn
      exact stands.names names n hn
    · cases hr : p.refreshed? e (e.passes c).expression with
      | none =>
        rw [hr] at hn
        exact kept n (labels p hp n hn)
      | some o' =>
        rw [hr] at hn
        exact (Output.mentions_refreshed hr hn).elim (stands.names names n)
          (fun hn => kept n (labels p hp n hn))
  -- only what no output mentions is dropped
  obtain ⟨-, -, result⟩ := passes_of_ok ok
  rw [result] at ho ⊢
  have used := get?_dropUnused (isUsed_of_output
    (e := (refreshOutputs e (e.passes c).expression).renameOutput) ho hn)
  rw [renameOutput_inputs] at used
  exact (congrArg Option.isSome used).trans bound

/-- A name that is still in use is still bound. -/
theorem contains_of_isUsed {c : SimplifyConfig} {e : Expression} (names : e.inputs.Binds e.mentions)
    (labels : ∀ o ∈ e.outputs, e.inputs.Binds o.snapshot.mentions)
    (ok : (e.simplify c).outcome = .ok ()) {n : String}
    (used : (e.simplify c).expression.isUsed n) : (e.simplify c).expression.inputs.contains n := by
  simp only [isUsed, Bool.or_eq_true, List.any_eq_true, List.contains_iff_mem] at used
  rcases used with here | ⟨o, ho, behind⟩
  · exact binds_simplify names ok n here
  · exact binds_outputs_of_simplify names labels ok ho n behind

/-- An output that follows the simplified terms resolves if it did before. -/
theorem resolves_refreshed {c : SimplifyConfig} {e : Expression} {o : Output}
    (h : o.snapshot.Resolves) :
    ((o.refreshed? e (e.passes c).expression).getD o).snapshot.Resolves := by
  cases hr : o.refreshed? e (e.passes c).expression with
  | none => exact h
  | some o' =>
    obtain ⟨earlier, negations, terms, same, rfl⟩ := Output.refreshed?_eq_some hr
    have before : e.run allKnown = Term.runAll allKnown earlier .blank :=
      Term.runAll_of_sameAll _ same
    unfold Resolves at h ⊢
    rw [meaning_eq, run, terms, Term.runAll_append, ← before] at h
    rw [Option.getD_some, meaning_eq, run, Term.runAll_append]
    exact (Term.runAll_noLess negations (e.passes_noLess c)).isSome_value h

/-! ## Resolved columns -/

/-- When `e` is simplified to `r`, `e` itself is listed under this text before or after: under its
text where it has no outputs, and under the first text and then the new one where an output is
renamed. -/
def ListedAs (e r : Expression) (label : String) : Prop :=
  (e.outputs = [] ∧ (label = e.text ∨ label = r.text)) ∨
    (e.Renames r ∧ (label = e.firstText ∨ label = r.text))

/-- No other output takes the label when `e` is simplified to `r`. -/
structure Steady (e r : Expression) (label : String) : Prop where
  /-- Labels of outputs are unique, or their outputs were set on the same terms. -/
  own : ∀ o ∈ e.outputs, ∀ p ∈ e.outputs, o.label = label → p.label = label →
    o.snapshot.terms = p.snapshot.terms
  spared : ∀ o ∈ e.outputs, o.label = label → ¬ e.RunsOver r o
  /-- Of nested outputs with one label the table shows the first it comes to. -/
  nested : ∀ o ∈ e.nestedOutputs, ∀ p ∈ e.nestedOutputs, o.label = label → p.label = label →
    o.snapshot.terms = p.snapshot.terms
  apart : ∀ o ∈ e.nestedOutputs, o.label = label → ¬ e.ListedAs r label

section

variable {c : SimplifyConfig} {e : Expression} {label : String} {o₁ o₂ : Output}

/-- What the table shows under the label afterwards is an output of the simplified expression. -/
theorem Steady.resolves_of_own (h : e.Steady (e.simplify c).expression label)
    (ok : (e.simplify c).outcome = .ok ()) (ho₁ : o₁ ∈ e.withOutputs.outputs)
    (named₁ : o₁.label = label) (ho₂ : o₂ ∈ (e.simplify c).expression.outputs)
    (named₂ : o₂.label = label) (resolves : o₁.snapshot.Resolves) : o₂.snapshot.Resolves := by
  rcases mem_outputs_of_simplify ok ho₂ with ⟨text, passed, renames⟩ | ⟨p, hp, rfl⟩
  · -- the expression itself, renamed
    have new : label = (e.simplify c).expression.text := named₂.symm.trans text
    have itself : e.Resolves := by
      rcases mem_withOutputs ho₁ with own | ⟨unlabelled, -⟩ | ⟨nested, -⟩
      · by_contra unresolved
        refine h.spared o₁ own named₁ ⟨renames, .inr (named₁.trans new), fun terms => ?_⟩
        exact absurd ((resolves_of_terms terms).mp resolves) unresolved
      · obtain ⟨-, p, hp, -⟩ := renames
        rw [unlabelled] at hp
        cases hp
      · exact absurd (.inr ⟨renames, .inr new⟩) (h.apart o₁ nested named₁)
    exact (resolves_of_terms passed).mpr (itself.passes c)
  · -- an output from before
    rw [p.label_refreshed] at named₂
    refine resolves_refreshed ?_
    rcases mem_withOutputs ho₁ with own | ⟨unlabelled, -⟩ | ⟨-, fresh⟩
    · exact (resolves_of_terms (h.own o₁ own p hp named₁ named₂)).mp resolves
    · rw [unlabelled] at hp
      cases hp
    · exact absurd (named₂.trans named₁.symm) (fresh p hp)

/-- What the table shows under the label afterwards is the simplified expression itself. -/
theorem Steady.resolves_of_listed (h : e.Steady (e.simplify c).expression label)
    (ok : (e.simplify c).outcome = .ok ()) (ho₁ : o₁ ∈ e.withOutputs.outputs)
    (named₁ : o₁.label = label) (unlabelled : (e.simplify c).expression.outputs = [])
    (named₂ : (e.simplify c).expression.text = label) (resolves : o₁.snapshot.Resolves) :
    (e.simplify c).expression.snapshot.Resolves := by
  have before := outputs_eq_nil_of_simplify ok unlabelled
  have terms : (e.simplify c).expression.snapshot.terms = (e.passes c).expression.terms := by
    rw [(passes_of_ok ok).2.2]
    exact finish_terms c e _
  have itself : e.Resolves := by
    rcases mem_withOutputs ho₁ with own | ⟨-, rfl⟩ | ⟨nested, -⟩
    · rw [before] at own
      cases own
    · have same : e.snapshot.terms = e.terms := rfl
      exact (resolves_of_terms same).mp resolves
    · exact absurd (.inl ⟨before, .inr named₂.symm⟩) (h.apart o₁ nested named₁)
  exact (resolves_of_terms terms).mpr (itself.passes c)

/-- A nested output that is shown afterwards was hidden by no output of the expression. -/
theorem Steady.only_nested (h : e.Steady (e.simplify c).expression label)
    (ok : (e.simplify c).outcome = .ok ()) (ho₂ : o₂ ∈ e.nestedOutputs) (named₂ : o₂.label = label)
    (fresh : ∀ p ∈ (e.simplify c).expression.outputs, p.label ≠ label) :
    ∀ p ∈ e.outputs, p.label ≠ label := by
  intro p hp named
  rcases exists_label_of_simplify ok hp with ⟨q, hq, same⟩ | ⟨first, renames, -⟩
  · exact fresh q hq (same.trans named)
  · exact h.apart o₂ ho₂ named₂ (.inr ⟨renames, .inl (named.symm.trans first)⟩)

/-- What the table shows under the label afterwards is an output of a nested expression. -/
theorem Steady.resolves_of_nested (h : e.Steady (e.simplify c).expression label)
    (only : ∀ p ∈ e.outputs, p.label ≠ label) (ho₁ : o₁ ∈ e.withOutputs.outputs)
    (named₁ : o₁.label = label) (ho₂ : o₂ ∈ e.nestedOutputs) (named₂ : o₂.label = label)
    (resolves : o₁.snapshot.Resolves) : o₂.snapshot.Resolves := by
  rcases mem_withOutputs ho₁ with own | ⟨unlabelled, rfl⟩ | ⟨nested, -⟩
  · exact absurd named₁ (only o₁ own)
  · exact absurd (.inl ⟨unlabelled, .inl named₁.symm⟩) (h.apart o₂ ho₂ named₂)
  · exact (resolves_of_terms (h.nested o₁ nested o₂ ho₂ named₁ named₂)).mp resolves

end

/-- Simplifying resolves no less than before: a column without missing values has none afterwards,
as long as no other output takes its label. Of a label that only nested expressions have this is
said where the terms or the own outputs of the simplified expression still use the names behind
it: the inputs that nothing but such a label mentions are dropped. -/
theorem simplify_keeps_columns_resolved {c : SimplifyConfig} {e : Expression}
    (names : e.inputs.Binds e.mentions)
    (labels : ∀ o ∈ e.outputs ++ e.nestedOutputs, e.inputs.Binds o.snapshot.mentions)
    (ok : (e.simplify c).outcome = .ok ()) {before after : List OutputColumn}
    (hbefore : e.truthColumns = .ok before)
    (hafter : (e.simplify c).expression.truthColumns = .ok after) {c₁ c₂ : OutputColumn}
    (h₁ : c₁ ∈ before) (h₂ : c₂ ∈ after) (label : c₂.label = c₁.label)
    (steady : e.Steady (e.simplify c).expression c₁.label)
    (used : (∀ p ∈ e.outputs, p.label ≠ c₁.label) → ∀ o ∈ e.nestedOutputs, o.label = c₁.label →
      ∀ n ∈ o.snapshot.mentions, (e.simplify c).expression.isUsed n)
    (resolved : none ∉ c₁.values) : none ∉ c₂.values := by
  obtain ⟨o₁, ho₁, label₁, cells₁⟩ := exists_output_of_column hbefore h₁
  obtain ⟨o₂, ho₂, label₂, cells₂⟩ := exists_output_of_column hafter h₂
  have named : o₂.label = c₁.label := label₂.symm.trans label
  have resolves₁ := (none_not_mem_values (binds_withOutputs names labels ho₁) cells₁).mp resolved
  have owned : ∀ o ∈ e.outputs, e.inputs.Binds o.snapshot.mentions :=
    fun o ho => labels o (List.mem_append_left _ ho)
  rcases mem_withOutputs ho₂ with own | ⟨unlabelled, rfl⟩ | ⟨nested, fresh⟩
  · have bound := binds_outputs_of_simplify names owned ok own
    exact (none_not_mem_values bound cells₂).mpr
      (steady.resolves_of_own ok ho₁ label₁.symm own named resolves₁)
  · have bound := binds_simplify names ok
    rw [← mentions_snapshot] at bound
    exact (none_not_mem_values bound cells₂).mpr
      (steady.resolves_of_listed ok ho₁ label₁.symm unlabelled named resolves₁)
  · have below := nestedOutputs_simplify c e nested
    have only := steady.only_nested ok below named (named ▸ fresh)
    have bound : (e.simplify c).expression.inputs.Binds o₂.snapshot.mentions := fun n hn =>
      contains_of_isUsed names owned ok (used only o₂ below named n hn)
    exact (none_not_mem_values bound cells₂).mpr
      (steady.resolves_of_nested only ho₁ label₁.symm below named resolves₁)

/-- The label of the nested `a ∧ b` keeps its column when `c ∧ c ∧ (a ∧ b)` is simplified. -/
theorem simplify_keeps_columns_resolved_of_nested :
    let q := (empty.append .and [.input "a", .input "b"]).addLabel (some "q") false
    let e := empty.append .and [.input "c", .input "c", .nested q]
    ∃ before after, e.truthColumns = .ok before ∧
      (e.simplify {}).expression.truthColumns = .ok after ∧
      ∃ c₁ ∈ before, ∃ c₂ ∈ after, c₁.label = "q" ∧ c₂.label = "q" ∧ none ∉ c₁.values ∧
        none ∉ c₂.values := by
  intro q e
  let whole := List.replicate 7 (some false) ++ [some true]
  let column : OutputColumn := ⟨"q", .replicate 6 (some false) ++ .replicate 2 (some true)⟩
  have hbefore : e.truthColumns = .ok [⟨"c ∧ c ∧ (a ∧ b)", whole⟩, column] := by decide +kernel
  have hafter : (e.simplify {}).expression.truthColumns =
      .ok [⟨"c ∧ (a ∧ b)", whole⟩, column] := by decide +kernel
  have ok : (e.simplify {}).outcome = .ok () := by decide +kernel
  have alone : ∀ o ∈ e.nestedOutputs, o.snapshot.terms = q.terms := by
    intro o ho
    obtain rfl : o = ⟨"q", q.snapshot⟩ := List.mem_singleton.mp ho
    rfl
  have unlabelled : e.outputs = [] := rfl
  have other : e.text ≠ "q" ∧ (e.simplify {}).expression.text ≠ "q" := by decide +kernel
  have steady : e.Steady (e.simplify {}).expression "q" := by
    refine ⟨by simp [unlabelled], by simp [unlabelled], ?_, ?_⟩
    · exact fun o ho p hp _ _ => (alone o ho).trans (alone p hp).symm
    · rintro o - - (⟨-, text | text⟩ | ⟨⟨-, p, hp, -⟩, -⟩)
      · exact other.1 text.symm
      · exact other.2 text.symm
      · rw [unlabelled] at hp
        cases hp
  have used : ∀ o ∈ e.nestedOutputs, ∀ n ∈ o.snapshot.mentions,
      (e.simplify {}).expression.isUsed n := by decide +kernel
  have full : none ∉ column.values := by decide
  have listed : ∀ other, column ∈ [other, column] := by simp
  have stays := simplify_keeps_columns_resolved (by decide) (by decide) ok hbefore hafter
    (listed _) (listed _) rfl steady (fun _ o ho _ => used o ho) full
  exact ⟨_, _, hbefore, hafter, column, listed _, column, listed _, rfl, rfl, full, stays⟩

/-- The label of the nested `(a ∧ b) ∨ b` still mentions `a` when the terms are absorbed to `b`. The
input is dropped all the same, and the column shows nothing any more. -/
theorem simplify_can_unresolve_column :
    let q := ((empty.append .and [.input "a", .input "b"]).append .or [.input "b"]).addLabel
      (some "q") false
    let e := empty.append .and [.input "c", .nested q]
    e.Reachable ∧ e.inputs.Binds e.mentions ∧
      (∀ o ∈ e.outputs ++ e.nestedOutputs, e.inputs.Binds o.snapshot.mentions) ∧
      (e.simplify {}).outcome = .ok () ∧ (e.simplify {}).expression.inputs.names = ["b", "c"] ∧
      ∃ before after, e.truthColumns = .ok before ∧
        (e.simplify {}).expression.truthColumns = .ok after ∧
        ∃ c₁ ∈ before, ∃ c₂ ∈ after, c₁.label = "q" ∧ c₂.label = "q" ∧ none ∉ c₁.values ∧
          ∀ v ∈ c₂.values, v = none := by
  intro q e
  have nested : q.Reachable := .addLabel _ _ (.pushNames .or ["b"]
    (.pushNames .and ["a", "b"] .empty rfl) rfl)
  have pushed : empty.push .and [.input "c", .nested q] = .ok e := rfl
  have reached : e.Reachable := by
    refine .push .empty (fun n hn => ?_) pushed
    obtain rfl : n = q := by simpa using hn
    exact nested
  let half : List (Option Bool) := [some false, some false, some true, some true]
  let full : OutputColumn := ⟨"q", half ++ half⟩
  let missing : OutputColumn := ⟨"q", .replicate 4 none⟩
  let product : List (Option Bool) := .replicate 3 (some false) ++ [some true]
  have hbefore : e.truthColumns = .ok [⟨"c ∧ ((a ∧ b) ∨ b)", product ++ product⟩, full] := by
    decide +kernel
  have hafter : (e.simplify {}).expression.truthColumns = .ok [⟨"c ∧ (b)", product⟩, missing] := by
    decide +kernel
  exact ⟨reached, by decide, by decide, by decide +kernel, by decide +kernel, _, _, hbefore, hafter,
    full, by simp, missing, by simp, rfl, rfl, by decide, by decide⟩

-- A label can be the text that the expression is simplified to. Then the renaming puts the
-- expression in its place, which chains `⊼` here and has no value.
example :
    let e := (((empty.append .and [.input "a", .input "a"]).addLabel
      (some "(a) ⊼ b ⊼ c") false).append .nand [.input "b", .input "c"]).addLabel none false
    e.truthColumns.map (·.map (·.label)) = .ok ["(a) ⊼ b ⊼ c", "(a ∧ a) ⊼ b ⊼ c"] ∧
      (e.simplify {}).expression.truthColumns = .ok [⟨"(a) ⊼ b ⊼ c", .replicate 8 none⟩] := by
  decide +kernel

end SwitchingAlgebra.Expression
