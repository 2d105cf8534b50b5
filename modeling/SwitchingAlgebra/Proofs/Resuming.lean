-- Simplifications that ran out of passes. The passes of one call lead to the next call as they
-- lead from pass to pass, so a simplification that is taken up again ends where it would have
-- ended in one go.
import Mathlib.Logic.Relation
import SwitchingAlgebra.Proofs.Ending
import SwitchingAlgebra.Proofs.Repeating

namespace SwitchingAlgebra

namespace Expression

/-! ## From pass to pass -/

/-- There is one next expression at the most. -/
theorem leadsTo_rightUnique (maxDepth : Nat) :
    Relator.RightUnique (fun e e' : Expression => e.LeadsTo maxDepth e') := by
  intro e e₁ e₂ first second
  rw [first.result, second.result]

/-- Where no law acts on an expression, there is no next one. -/
theorem Settled.not_leadsTo {maxDepth : Nat} {e : Expression} (h : e.Settled)
    (hd : e.depth ≤ maxDepth) (e' : Expression) : ¬ e.LeadsTo maxDepth e' := by
  intro next
  have changed := next.changed
  rw [h.pass hd] at changed
  cases changed

/-- A pass that finds nothing to do leaves the expression as it was, log included. -/
theorem log_pass_of_unchanged {maxDepth : Nat} {e : Expression}
    (finished : (e.pass maxDepth).tooDeep = none) (unchanged : ¬ (e.pass maxDepth).changed = true) :
    (e.pass maxDepth).result.log (e.pass maxDepth).changes = e := by
  obtain ⟨settled, hd⟩ := settled_of_pass finished (eq_false_of_ne_true unchanged)
  rw [settled.pass hd, log_nil]

/-- Passes that met nothing nested too deeply lead step by step to what they leave. -/
theorem leadsTo_repeatPasses {c : SimplifyConfig} {extra done : Nat} {e : Expression}
    (shallow : ∀ depth, (repeatPasses c extra done e).outcome ≠
      .error (.tooDeeplyNested depth c.maxDepth)) :
    Relation.ReflTransGen (LeadsTo c.maxDepth) e (repeatPasses c extra done e).expression := by
  induction extra generalizing done e with
  | zero =>
    simp only [repeatPasses] at shallow ⊢
    split at shallow
    · exact absurd rfl (shallow _)
    · split
      · exact .single ⟨‹_›, ‹_›, rfl⟩
      · rw [log_pass_of_unchanged ‹_› ‹_›]
  | succ extra ih =>
    simp only [repeatPasses] at shallow ⊢
    split at shallow
    · exact absurd rfl (shallow _)
    · split at shallow
      · rename_i finished changed
        rw [if_pos changed]
        exact .head ⟨finished, changed, rfl⟩ (ih shallow)
      · rename_i finished unchanged
        rw [if_neg unchanged, log_pass_of_unchanged finished unchanged]

/-- From one expression there is one way to go, so its passes end in one place. -/
theorem settled_unique {maxDepth : Nat} {e e₁ e₂ : Expression}
    (to_first : Relation.ReflTransGen (LeadsTo maxDepth) e e₁)
    (to_second : Relation.ReflTransGen (LeadsTo maxDepth) e e₂)
    (first : ∀ e', ¬ e₁.LeadsTo maxDepth e') (second : ∀ e', ¬ e₂.LeadsTo maxDepth e') :
    e₁ = e₂ := by
  rcases to_first.total_of_right_unique (leadsTo_rightUnique maxDepth) to_second with ahead | ahead
  · rcases ahead.cases_head with same | ⟨e', next, -⟩
    · exact same
    · exact absurd next (first e')
  · rcases ahead.cases_head with same | ⟨e', next, -⟩
    · exact same.symm
    · exact absurd next (second e')

/-! ## The passes of a simplification -/

/-- Passes that came to an end lead to an expression that leads no further. -/
theorem leadsTo_passes_of_ok {c : SimplifyConfig} {e : Expression}
    (ok : (e.passes c).outcome = .ok ()) :
    Relation.ReflTransGen (LeadsTo c.maxDepth) e.startLog.1 (e.passes c).expression ∧
      ∀ e', ¬ (e.passes c).expression.LeadsTo c.maxDepth e' := by
  constructor
  · refine leadsTo_repeatPasses (fun depth stopped => ?_)
    cases ok.symm.trans stopped
  · exact (settled_of_repeatPasses ok).not_leadsTo (depth_repeatPasses ok)

/-- An expression that was simplified before starts with nothing new in its log. -/
theorem startLog_of_remembers {e : Expression} {text : String}
    (h : e.journal.firstText = some text) : e.startLog.1 = e := by
  rw [startLog, h]

/-- Without outputs only the terms, the inputs and the log count for what follows the passes. -/
theorem finish_of_unlabelled (c c' : SimplifyConfig) (before before' : Expression)
    {e : Expression} (unlabelled : e.outputs = []) : (finish c before e).1 = (finish c' before' e).1 := by
  have refreshed : ∀ b : Expression, refreshOutputs b e = e := by
    intro b
    cases e
    cases unlabelled
    rfl
  simp only [finish, refreshed]

/-- A simplification that ran out of passes is given up with its passes, and its error holds
the change log that it leaves. -/
theorem passes_of_givenUp {c : SimplifyConfig} {e : Expression} {passes : Nat}
    {changes : List Change}
    (stopped : (e.simplify c).outcome = .error (.didNotConverge passes changes)) :
    (e.simplify c).expression = (e.passes c).expression ∧
      (e.passes c).outcome = .error (.didNotConverge passes changes) ∧
      changes = (e.passes c).expression.journal.changes := by
  rcases simplify_cases c e with ⟨-, -, refused⟩ | ⟨-, result, err, run, failed⟩ | ⟨-, -, -, ok⟩
  · rw [stopped] at refused
    cases refused
  · rw [stopped] at failed
    cases failed
    refine ⟨result, run, ?_⟩
    obtain ⟨last, -, ends⟩ := repeatPasses_ends c (c.passBudget e.termCount - 1) 0 e.startLog.1
    cases ends with
    | stopped depth _ ho => cases run.symm.trans ho
    | givenUp passes _ _ ho => cases run.symm.trans ho; rfl
    | settled _ _ ho => cases run.symm.trans ho
  · rw [stopped] at ok
    cases ok

/-! ## Taken up again -/

/-- Passes that go on where others were given up leave what passes in one go leave. -/
theorem passes_resume {c c₁ c₂ : SimplifyConfig} (h₁ : c₁.maxDepth = c.maxDepth)
    (h₂ : c₂.maxDepth = c.maxDepth) {e : Expression} {passes : Nat} {changes : List Change}
    (givenUp : (e.passes c).outcome = .error (.didNotConverge passes changes))
    (resumed : ((e.passes c).expression.passes c₁).outcome = .ok ())
    (uninterrupted : (e.passes c₂).outcome = .ok ()) :
    ((e.passes c).expression.passes c₁).expression = (e.passes c₂).expression := by
  -- the text of the first call is remembered, so the second one begins where it stopped
  have started : (e.passes c).expression.startLog.1 = (e.passes c).expression :=
    startLog_of_remembers (passes_firstText c e)
  have interrupted : Relation.ReflTransGen (LeadsTo c.maxDepth) e.startLog.1
      (e.passes c).expression :=
    leadsTo_repeatPasses (fun depth deep => by cases givenUp.symm.trans deep)
  obtain ⟨further, end₁⟩ := leadsTo_passes_of_ok resumed
  obtain ⟨whole, end₂⟩ := leadsTo_passes_of_ok uninterrupted
  rw [started, h₁] at further
  rw [h₁] at end₁
  rw [h₂] at whole end₂
  exact settled_unique (interrupted.trans further) whole end₁ end₂

/-- A simplification that ran out of passes holds in its error the change log that it leaves,
and one that takes it up again leaves what a single one with enough passes leaves. -/
theorem simplify_resumes {c c₁ c₂ : SimplifyConfig} (h₁ : c₁.maxDepth = c.maxDepth)
    (h₂ : c₂.maxDepth = c.maxDepth) {e : Expression} (unlabelled : e.outputs = []) {passes : Nat}
    {changes : List Change}
    (stopped : (e.simplify c).outcome = .error (.didNotConverge passes changes))
    (resumed : ((e.simplify c).expression.simplify c₁).outcome = .ok ())
    (uninterrupted : (e.simplify c₂).outcome = .ok ()) :
    ((e.simplify c).expression.simplify c₁).expression = (e.simplify c₂).expression ∧
      changes = (e.simplify c).expression.journal.changes := by
  obtain ⟨left, givenUp, log⟩ := passes_of_givenUp stopped
  rw [left] at resumed ⊢
  obtain ⟨-, run₁, result₁⟩ := passes_of_ok resumed
  obtain ⟨-, run₂, result₂⟩ := passes_of_ok uninterrupted
  have outputs := (passes_standsFor c₂ e).outputs.trans unlabelled
  refine ⟨?_, log⟩
  rw [result₁, result₂, passes_resume h₁ h₂ givenUp run₁ run₂]
  exact finish_of_unlabelled _ _ _ _ outputs

/-- `(a ∧ b) ∨ (a ∧ c)` is given up after one pass and then simplified to the end. -/
theorem simplify_resumes_of_distributed :
    let once : SimplifyConfig := { maxPasses := some 1 }
    let e := (empty.append .and [.input "a", .input "b"]).append .or
      [.nested (empty.append .and [.input "a", .input "c"])]
    let left := (e.simplify once).expression
    (e.simplify once).outcome = .error (.didNotConverge 1 left.journal.changes) ∧
      (left.simplify {}).outcome = .ok () ∧ (e.simplify {}).outcome = .ok () ∧
      (left.simplify {}).expression = (e.simplify {}).expression := by
  intro once e left
  have stopped : (e.simplify once).outcome =
      .error (.didNotConverge 1 left.journal.changes) := by decide +kernel
  have resumed : (left.simplify {}).outcome = .ok () := by decide +kernel
  have uninterrupted : (e.simplify {}).outcome = .ok () := by decide +kernel
  have limit : SimplifyConfig.maxDepth {} = once.maxDepth := rfl
  exact ⟨stopped, resumed, uninterrupted,
    (simplify_resumes limit limit rfl stopped resumed uninterrupted).1⟩

end Expression

end SwitchingAlgebra
