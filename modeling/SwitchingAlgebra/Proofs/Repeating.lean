-- Simplifying twice. A simplification that succeeded leaves nothing to a second one, as long
-- as no two outputs were named by the first text: only one of them is renamed at a time.
import SwitchingAlgebra.Proofs.Outputs
import SwitchingAlgebra.Proofs.Settled

namespace SwitchingAlgebra

/-! ## Snapshots that are the same -/

theorem Term.sameAll_append {ts us ts' us' : List Term} (h : Term.sameAll ts us)
    (h' : Term.sameAll ts' us') : Term.sameAll (ts ++ ts') (us ++ us') := by
  rw [Term.sameAll_iff] at h h' ⊢
  exact List.rel_append h h'

theorem Expression.same_iff (e f : Expression) :
    (e == f) ↔ e.inputs = f.inputs ∧ Term.sameAll e.terms f.terms := by
  obtain ⟨_, _, _, _⟩ := e
  obtain ⟨_, _, _, _⟩ := f
  change (Expression.same _ _ = true) ↔ _
  simp [Expression.same, Expression.sameTerms]

theorem Output.same_iff (o p : Output) :
    (o == p) ↔ o.label = p.label ∧ (o.snapshot == p.snapshot) := by
  change (Output.same _ _ = true) ↔ _
  simp [Output.same]

theorem Expression.mentions_of_sameAll {e f : Expression} (h : Term.sameAll e.terms f.terms) :
    e.mentions = f.mentions :=
  Operand.mentions_of_same ((Operand.same_nested_iff e f).mpr h)

theorem Output.inputs_of_refreshed? {before now : Expression} {o o' : Output}
    (h : o.refreshed? before now = some o') : o.snapshot.inputs = before.inputs := by
  unfold Output.refreshed? at h
  dsimp only at h
  split at h
  · rename_i hfollows
    simp only [Bool.and_eq_true, decide_eq_true_eq] at hfollows
    exact hfollows.1.1
  · cases h

/-- An output that follows an expression that did not change stays the same. -/
theorem Output.same_refreshed (o : Output) (e : Expression) :
    (o.refreshed? e e).getD o == o := by
  cases h : o.refreshed? e e with
  | none =>
    rw [Option.getD_none, Output.same_iff, Expression.same_iff]
    exact ⟨rfl, rfl, Term.sameAll_refl _⟩
  | some o' =>
    have inputs := Output.inputs_of_refreshed? h
    obtain ⟨earlier, negations, terms, same, rfl⟩ := Output.refreshed?_eq_some h
    rw [Option.getD_some, Output.same_iff, Expression.same_iff, terms]
    exact ⟨rfl, inputs.symm, Term.sameAll_append same (Term.sameAll_refl negations)⟩

namespace Expression

/-! ## Nothing left to refresh -/

theorem same_outputs_refreshOutputs (e : Expression) : (refreshOutputs e e).outputs == e.outputs := by
  unfold refreshOutputs
  dsimp only
  induction e.outputs with
  | nil => rfl
  | cons o os ih =>
    rw [List.map_cons, List.cons_beq_cons, Bool.and_eq_true]
    exact ⟨o.same_refreshed e, ih⟩

/-- A refreshed output mentions what it mentioned before. -/
theorem isUsed_refreshOutputs (e : Expression) (n : String) :
    (refreshOutputs e e).isUsed n = e.isUsed n := by
  have mentions : ∀ o : Output, ((o.refreshed? e e).getD o).snapshot.mentions = o.snapshot.mentions :=
    fun o => mentions_of_sameAll
      ((same_iff _ _).mp ((Output.same_iff _ _).mp (o.same_refreshed e)).2).2
  have own : (refreshOutputs e e).mentions = e.mentions := mentions_of_terms rfl
  rw [isUsed, isUsed, own]
  simp [refreshOutputs, List.any_map, Function.comp_def, mentions]

/-! ## Nothing left to drop -/

/-- Every bound name is mentioned by a term or an output. -/
def AllUsed (e : Expression) : Prop := ∀ n ∈ e.inputs.names, e.isUsed n

theorem isUsed_of_parts {e e' : Expression} (terms : e'.terms = e.terms)
    (outputs : e'.outputs = e.outputs) (n : String) : e'.isUsed n = e.isUsed n := by
  rw [isUsed, isUsed, mentions_of_terms terms, outputs]

theorem finish_allUsed (c : SimplifyConfig) (before e : Expression) :
    (finish c before e).1.AllUsed := by
  intro n hn
  have same : (finish c before e).1.isUsed n = (refreshOutputs before e).renameOutput.isUsed n := by
    apply isUsed_of_parts <;> rfl
  obtain ⟨⟨name, b⟩, hmem, rfl⟩ := List.mem_map.mp hn
  rw [same]
  exact (List.mem_filter.mp hmem).2

theorem dropUnused_of_allUsed {e : Expression} (h : e.AllUsed) : e.dropUnused = e := by
  obtain ⟨⟨entries, ascending⟩, ts, os, j⟩ := e
  have all : entries.filter (fun entry => isUsed ⟨⟨entries, ascending⟩, ts, os, j⟩ entry.1) =
      entries :=
    List.filter_eq_self.mpr (fun entry hentry => h entry.1 (List.mem_map_of_mem hentry))
  simp [dropUnused, Bindings.keep, all]

theorem unusedInputs_of_allUsed {e : Expression} (h : e.AllUsed) : e.unusedInputs = [] :=
  List.filter_eq_nil_iff.mpr (fun n hn => by simp [h n hn])

/-! ## Nothing left to rename -/

theorem renameOutput_journal (e : Expression) : e.renameOutput.journal = e.journal := by
  unfold renameOutput
  split <;> rfl

theorem finish_firstText (c : SimplifyConfig) (before e : Expression) :
    (finish c before e).1.journal.firstText = e.journal.firstText := by
  change (refreshOutputs before e).renameOutput.journal.firstText = _
  rw [renameOutput_journal]
  rfl

end Expression

/-- The renaming of the only output with the old name leaves none. -/
theorem Output.label_ne_of_mem_rename {old new : String} (hne : new ≠ old) {snapshot : Expression}
    {os : List Output} (once : os.countP (·.label = old) ≤ 1) :
    ∀ o ∈ Output.rename old new snapshot os, o.label ≠ old := by
  induction os with
  | nil => simp [Output.rename]
  | cons p os ih =>
    simp only [Output.rename]
    by_cases hp : p.label = old
    · rw [List.countP_cons, if_pos (by simpa using hp)] at once
      have rest : ∀ o ∈ os, o.label ≠ old := by
        have none_left : os.countP (·.label = old) = 0 := by omega
        simpa [List.countP_eq_zero] using none_left
      rw [if_pos hp]
      simpa [hne] using rest
    · rw [List.countP_cons, if_neg (by simpa using hp)] at once
      rw [if_neg hp]
      simpa [hp] using ih once

namespace Expression

/-- Once the only output of the first text is renamed, none has this label. -/
theorem label_ne_of_renamed {e : Expression} {first : String}
    (hfirst : e.journal.firstText = some first) (hne : e.text ≠ first)
    (once : e.outputs.countP (·.label = first) ≤ 1) :
    ∀ o ∈ e.renameOutput.outputs, o.label ≠ first := by
  unfold renameOutput
  split
  · rename_i old new hrenaming
    obtain ⟨hold, rfl, -, -⟩ := renaming?_eq_some hrenaming
    obtain rfl := Option.some.inj (hold.symm.trans hfirst)
    refine Output.label_ne_of_mem_rename hne (Nat.le_trans ?_ once)
    exact List.Sublist.countP_le List.filter_sublist
  · rename_i hrenaming
    intro o ho hl
    rw [renaming?, hfirst] at hrenaming
    have named : e.outputs.any (·.label == first) :=
      List.any_eq_true.mpr ⟨o, ho, by simpa using hl⟩
    simp [hne, named] at hrenaming

theorem labels_refreshOutputs (before e : Expression) :
    (refreshOutputs before e).outputs.map (·.label) = e.outputs.map (·.label) := by
  simp [refreshOutputs, Output.label_refreshed]

theorem countP_label (os : List Output) (label : String) :
    os.countP (·.label = label) = (os.map (·.label)).count label := by
  rw [List.count, List.countP_map]
  rfl

/-- After a simplification no output is left to rename. -/
theorem renaming?_finish (c : SimplifyConfig) (before : Expression) {e : Expression}
    {first : String} (hfirst : e.journal.firstText = some first)
    (once : e.outputs.countP (·.label = first) ≤ 1) :
    (refreshOutputs (finish c before e).1 (finish c before e).1).renaming? = none := by
  cases hr : (refreshOutputs (finish c before e).1 (finish c before e).1).renaming? with
  | none => rfl
  | some p =>
    obtain ⟨old, new⟩ := p
    obtain ⟨hold, rfl, hne, o, ho, hl⟩ := renaming?_eq_some hr
    exfalso
    have text : (refreshOutputs (finish c before e).1 (finish c before e).1).text = e.text :=
      (text_congr rfl (fun _ _ => rfl)).trans (text_finish c before e)
    have same : old = first :=
      Option.some.inj (hold.symm.trans ((finish_firstText c before e).trans hfirst))
    rw [text, same] at hne
    have named : old ∈ (finish c before e).1.outputs.map (·.label) := by
      rw [← labels_refreshOutputs (finish c before e).1]
      exact hl ▸ List.mem_map_of_mem ho
    obtain ⟨p, hp, hpl⟩ := List.mem_map.mp named
    have count : (refreshOutputs before e).outputs.countP (·.label = first) ≤ 1 := by
      rw [countP_label, labels_refreshOutputs, ← countP_label]
      exact once
    refine label_ne_of_renamed (e := refreshOutputs before e) hfirst ?_ count p hp (hpl.trans same)
    have refreshed : (refreshOutputs before e).text = e.text := text_congr rfl (fun _ _ => rfl)
    rwa [refreshed]

/-- Finishing what is finished refreshes the outputs to the same outputs. -/
theorem finish_self (c : SimplifyConfig) {e : Expression} (used : e.AllUsed)
    (named : (refreshOutputs e e).renaming? = none) : (finish c e e).1 = refreshOutputs e e := by
  have kept : (refreshOutputs e e).AllUsed :=
    fun n hn => (isUsed_refreshOutputs e n).trans (used n hn)
  have renamed : (refreshOutputs e e).renameOutput = refreshOutputs e e := by
    rw [renameOutput, named]
  simp only [finish, renamed, dropUnused_of_allUsed kept, unusedInputs_of_allUsed kept, entries,
    List.map_nil, log_nil]

/-! ## Twice -/

/-- What a simplification with these limits leaves when it succeeds: nothing to rewrite, to
rename or to drop. -/
structure Finished (c : SimplifyConfig) (first : String) (e : Expression) : Prop where
  settled : e.Settled
  depth : e.depth ≤ c.maxDepth
  remembers : e.journal.firstText = some first
  named : (refreshOutputs e e).renaming? = none
  used : e.AllUsed

theorem finished_of_ok {c : SimplifyConfig} {e : Expression} (ok : (e.simplify c).outcome = .ok ())
    (once : e.outputs.countP (·.label = e.firstText) ≤ 1) :
    Finished c e.firstText (e.simplify c).expression := by
  obtain ⟨-, run, result⟩ := passes_of_ok ok
  have first := passes_firstText c e
  have outputs := (passes_standsFor c e).outputs
  have terms := finish_terms c e (e.passes c).expression
  rw [result]
  refine ⟨(settled_of_repeatPasses run).of_terms terms, ?_, ?_, ?_, ?_⟩
  · rw [depth_of_terms terms]
    exact depth_repeatPasses run
  · exact (finish_firstText c e (e.passes c).expression).trans first
  · exact renaming?_finish c e first (outputs ▸ once)
  · exact finish_allUsed c e (e.passes c).expression

/-- Simplifying what is finished only refreshes the outputs. -/
theorem Finished.simplify {c : SimplifyConfig} {first : String} {e : Expression}
    (h : Finished c first e) :
    (e.simplify c).outcome = .ok () ∧ (e.simplify c).expression = refreshOutputs e e := by
  have run : (e.passes c).expression = e ∧ (e.passes c).outcome = .ok () := by
    have started : e.startLog.1 = e := by rw [startLog, h.remembers]
    rw [passes, started]
    exact h.settled.repeatPasses h.depth _ _
  have shallow := h.depth
  rcases simplify_cases c e with ⟨deep, -⟩ | ⟨-, -, err, failed, -⟩ | ⟨-, result, -, ok⟩
  · omega
  · rw [run.2] at failed
    cases failed
  · rw [run.1, finish_self c h.used h.named] at result
    exact ⟨ok, result⟩

/-- A second simplification with the same limits succeeds and changes nothing, if the first
one succeeded and at most one output was named by the first text. -/
theorem simplify_twice {c : SimplifyConfig} {e : Expression}
    (ok : (e.simplify c).outcome = .ok ())
    (once : e.outputs.countP (·.label = e.firstText) ≤ 1) :
    let simplified := (e.simplify c).expression
    let again := simplified.simplify c
    again.outcome = .ok () ∧ again.expression.terms = simplified.terms ∧
      again.expression.inputs = simplified.inputs ∧
      again.expression.journal = simplified.journal ∧
      again.expression.outputs == simplified.outputs := by
  intro simplified again
  obtain ⟨again_ok, result⟩ := (finished_of_ok ok once).simplify
  refine ⟨again_ok, ?_⟩
  rw [result]
  exact ⟨rfl, rfl, rfl, same_outputs_refreshOutputs simplified⟩

/-- `(a ∧ b) ∨ (a ∧ c)`, labelled by its text, is not changed by a second simplification. -/
theorem simplify_twice_of_distributed :
    let e := ((empty.append .and [.input "a", .input "b"]).append .or
      [.nested (empty.append .and [.input "a", .input "c"])]).addLabel none false
    let simplified := (e.simplify {}).expression
    let again := simplified.simplify {}
    (e.simplify {}).outcome = .ok () ∧ e.outputs.countP (·.label = e.firstText) ≤ 1 ∧
      again.outcome = .ok () ∧ again.expression.terms = simplified.terms ∧
      again.expression.inputs = simplified.inputs ∧
      again.expression.journal = simplified.journal ∧
      again.expression.outputs == simplified.outputs := by
  intro e
  have ok : (e.simplify {}).outcome = .ok () := by decide +kernel
  have once : e.outputs.countP (·.label = e.firstText) ≤ 1 := by decide +kernel
  exact ⟨ok, once, simplify_twice ok once⟩

/-- Inverting an input can give one label to two outputs. Where that is the first text, each
simplification renames one of them, and the second drops what the first one renamed. -/
theorem simplify_twice_can_drop_output :
    let e := ((((empty.append .and [.input "a", .input "a"]).setInverted "a" true).addLabel
      (some "a\u0304 ∧ a") false).addLabel (some "a ∧ a\u0304") false).invertInput "a"
    let simplified := (e.simplify {}).expression
    let again := simplified.simplify {}
    e.Reachable ∧ (e.simplify {}).outcome = .ok () ∧
      (simplified.outputs.map (·.label)).Nodup ∧
      ¬ again.expression.outputs == simplified.outputs := by
  intro e simplified again
  refine ⟨?_, by decide +kernel, by decide +kernel, by decide +kernel⟩
  exact .invertInput _ (.addLabel _ _ (.addLabel _ _ (.setInverted _ _
    (.pushNames .and ["a", "a"] .empty rfl))))

end Expression

end SwitchingAlgebra
