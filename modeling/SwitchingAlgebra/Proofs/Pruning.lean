-- What a simplification does to the inputs: it drops those that nothing refers to any more, and
-- logs each. The others stay bound as they were, whatever the passes brought up from below.
import SwitchingAlgebra.Proofs.Columns
import SwitchingAlgebra.Proofs.Failing
import SwitchingAlgebra.Proofs.Repeating

namespace SwitchingAlgebra.Expression

/-! ## Names that are referred to -/

theorem isUsed_iff (e : Expression) (n : String) :
    e.isUsed n ↔ n ∈ e.referencedInputs ∨ ∃ o ∈ e.outputs, n ∈ o.snapshot.referencedInputs := by
  simp only [isUsed, Bool.or_eq_true, List.any_eq_true, List.contains_iff_mem, mem_referencedInputs]

section

variable {c : SimplifyConfig} {e : Expression}

/-- After a simplification the bound names are those that a term or an output refers to. -/
theorem contains_simplify_iff (names : e.inputs.Binds e.mentions)
    (labels : ∀ o ∈ e.outputs, e.inputs.Binds o.snapshot.mentions)
    (ok : (e.simplify c).outcome = .ok ()) (n : String) :
    (e.simplify c).expression.inputs.contains n ↔ (e.simplify c).expression.isUsed n := by
  constructor
  · intro bound
    rw [(passes_of_ok ok).2.2] at bound ⊢
    exact finish_allUsed c e _ n (Bindings.mem_names_of_contains bound)
  · exact contains_of_isUsed names labels ok

/-- A simplification refers to no name that was not referred to before. -/
theorem isUsed_of_simplify (ok : (e.simplify c).outcome = .ok ()) {n : String}
    (used : (e.simplify c).expression.isUsed n) : e.isUsed n := by
  have stands := passes_standsFor c e
  have own : ∀ n ∈ (e.passes c).expression.mentions, e.isUsed n :=
    fun n hn => isUsed_of_mentions (stands.mentions n hn)
  rw [isUsed_iff] at used
  simp only [mem_referencedInputs] at used
  rcases used with here | ⟨o, ho, behind⟩
  · rw [(passes_of_ok ok).2.2, mentions_of_terms (finish_terms c e _)] at here
    exact own n here
  · rcases mem_outputs_of_simplify ok ho with ⟨-, terms, -⟩ | ⟨p, hp, rfl⟩
    · rw [mentions_of_terms terms] at behind
      exact own n behind
    · cases follows : p.refreshed? e (e.passes c).expression with
      | none =>
        rw [follows] at behind
        exact isUsed_of_output hp behind
      | some o' =>
        rw [follows] at behind
        exact (Output.mentions_refreshed follows behind).elim (own n) (isUsed_of_output hp)

/-! ## Entries of the change log -/

/-- Putting an expression in order only adds to the change log, and enters each name that it
drops. -/
theorem changes_finish (c : SimplifyConfig) (before e : Expression) :
    ∃ added, (finish c before e).1.journal.changes = e.journal.changes ++ added ∧
      ∀ n, e.inputs.contains n → ¬ (finish c before e).1.inputs.contains n →
        ∃ change ∈ added, change.step = .removeInput n := by
  let renamed := (refreshOutputs before e).renameOutput
  have still : renamed.inputs = e.inputs := renameOutput_inputs _
  have journal : renamed.journal = e.journal := renameOutput_journal _
  refine ⟨renamed.dropUnused.entries (renamed.unusedInputs.map .removeInput), ?_, ?_⟩
  · rw [← journal]
    rfl
  · intro n bound dropped
    have unused : renamed.isUsed n = false := by
      rw [← Bool.not_eq_true]
      intro used
      have kept := get?_dropUnused used
      rw [still] at kept
      exact dropped ((congrArg Option.isSome kept).trans bound)
    refine ⟨⟨.removeInput n, renamed.dropUnused.text⟩, ?_, rfl⟩
    refine List.mem_map_of_mem (List.mem_map_of_mem (List.mem_filter.mpr ⟨?_, by simp [unused]⟩))
    rw [still]
    exact Bindings.mem_names_of_contains bound

theorem changes_of_simplify (ok : (e.simplify c).outcome = .ok ()) :
    ∃ added, (e.simplify c).expression.journal.changes = e.journal.changes ++ added ∧
      ∀ n, e.inputs.contains n → ¬ (e.simplify c).expression.inputs.contains n →
        ∃ change ∈ added, change.step = .removeInput n := by
  have grown : e.journal.changes <+: (e.passes c).expression.journal.changes :=
    e.changes_startLog.trans (changes_repeatPasses c _ 0 _)
  obtain ⟨logged, grown⟩ := grown
  obtain ⟨entered, last, removed⟩ := changes_finish c e (e.passes c).expression
  rw [(passes_of_ok ok).2.2]
  refine ⟨logged ++ entered, ?_, fun n bound dropped => ?_⟩
  · rw [last, ← grown, List.append_assoc]
  · obtain ⟨b, hb⟩ := Option.isSome_iff_exists.mp bound
    have passed : (e.passes c).expression.inputs.contains n :=
      Option.isSome_iff_exists.mpr ⟨b, (passes_standsFor c e).bindings n b hb⟩
    obtain ⟨change, mem, step⟩ := removed n passed dropped
    exact ⟨change, List.mem_append_right _ mem, step⟩

/-! ## What is left of the inputs -/

/-- After a simplification just the names are bound that its terms, or the snapshots of its
outputs, refer to. Each of them was bound before, with the same value and flag, and each that
was bound and is not any more has its entry in the change log. -/
theorem simplify_drops_unused (names : e.inputs.Binds e.mentions)
    (labels : ∀ o ∈ e.outputs, e.inputs.Binds o.snapshot.mentions)
    (ok : (e.simplify c).outcome = .ok ()) :
    (∀ n, (e.simplify c).expression.inputs.contains n ↔
      n ∈ (e.simplify c).expression.referencedInputs ∨
        ∃ o ∈ (e.simplify c).expression.outputs, n ∈ o.snapshot.referencedInputs) ∧
    (∀ n b, (e.simplify c).expression.inputs.get? n = some b → e.inputs.get? n = some b) ∧
    ∃ added, (e.simplify c).expression.journal.changes = e.journal.changes ++ added ∧
      ∀ n, e.inputs.contains n → ¬ (e.simplify c).expression.inputs.contains n →
        ∃ change ∈ added, change.step = .removeInput n := by
  refine ⟨fun n => ?_, fun n b hb => ?_, changes_of_simplify ok⟩
  · rw [contains_simplify_iff names labels ok, isUsed_iff]
  · have bound : (e.simplify c).expression.inputs.contains n := Option.isSome_iff_exists.mpr ⟨b, hb⟩
    have used := isUsed_of_simplify ok ((contains_simplify_iff names labels ok n).mp bound)
    have bound_before : e.inputs.contains n := by
      rw [isUsed_iff] at used
      simp only [mem_referencedInputs] at used
      exact used.elim (names n) (fun ⟨o, ho, behind⟩ => labels o ho n behind)
    obtain ⟨-, -, result⟩ := passes_of_ok ok
    rw [result] at bound hb
    exact (agree_finish c (passes_standsFor c e) n bound_before bound).symm.trans hb

end

/-- `c ∧ a ∧ d` is absorbed by a term with `d`. Nothing refers to `a` then, and to the `z` of the
nested product nothing ever did; the output `p` still refers to `c`. The `b` at the top keeps its
value and its flag, which differ from those in the product. -/
theorem simplify_drops_unused_of_absorbed :
    let product := ((empty.append .and [.input "b"]).assign "b" true).assign "z" true
    let p := (empty.append .and [.input "c"]).addLabel (some "p") false
    let e := (((p.append .and [.input "a", .input "d"]).append .or
      [.input "d", .nested product]).assign "b" false).setInverted "b" true
    e.inputs.names = ["a", "b", "c", "d", "z"] ∧
      (e.simplify {}).expression.inputs.names = ["b", "c", "d"] ∧
      e.inputs.get? "b" = some ⟨some false, true⟩ ∧
      ∀ n ∈ ["a", "z"], ∃ change ∈ (e.simplify {}).expression.journal.changes,
        change.step = .removeInput n := by
  intro product p e
  have ok : (e.simplify {}).outcome = .ok () := by decide +kernel
  have left : (e.simplify {}).expression.inputs.names = ["b", "c", "d"] := by decide +kernel
  have bound : ∀ n ∈ ["a", "z"], e.inputs.contains n ∧
      ¬ (e.simplify {}).expression.inputs.contains n := by decide +kernel
  have kept : (e.simplify {}).expression.inputs.get? "b" = some ⟨some false, true⟩ := by
    decide +kernel
  obtain ⟨-, before, added, grown, removed⟩ :=
    simplify_drops_unused (e := e) (by decide) (by decide) ok
  refine ⟨by decide +kernel, left, before "b" _ kept, fun n hn => ?_⟩
  obtain ⟨change, entered, step⟩ := removed n (bound n hn).1 (bound n hn).2
  exact ⟨change, grown ▸ List.mem_append_right _ entered, step⟩

end SwitchingAlgebra.Expression
