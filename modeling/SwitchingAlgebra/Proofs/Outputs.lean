-- What a simplification does to outputs. Each keeps its label and its known values, or goes by
-- the new text where it went by the present one. Outputs are lost only where the renaming goes by
-- the first text, on which they were not set or which is long out of date.
import SwitchingAlgebra.TruthTable
import SwitchingAlgebra.Proofs.Reachable

namespace SwitchingAlgebra

/-! ## Texts -/

theorem Operand.textAll_eq_map (scope : Bindings) (names : Bool) (d : Nat) (xs : List Operand) :
    Operand.textAll scope names d xs = xs.map (·.textIn scope names d) := by
  induction xs with
  | nil => rfl
  | cons x xs ih => rw [Operand.textAll, ih, List.map_cons]

theorem Term.textAll_congr {scope scope' : Bindings} {names parens : Bool} {d : Nat}
    {ts : List Term} (acc : Option String)
    (h : ∀ t ∈ ts, ∀ x ∈ t.operands, x.textIn scope names d = x.textIn scope' names d) :
    Term.textAll scope names parens d ts acc = Term.textAll scope' names parens d ts acc := by
  induction ts generalizing acc with
  | nil => rfl
  | cons t ts ih =>
    obtain ⟨op, xs⟩ := t
    have here : Operand.textAll scope names d xs = Operand.textAll scope' names d xs := by
      rw [Operand.textAll_eq_map, Operand.textAll_eq_map]
      exact List.map_congr_left (h ⟨op, xs⟩ List.mem_cons_self)
    simp only [Term.textAll, here]
    exact ih _ (fun u hu => h u (List.mem_cons_of_mem _ hu))

/-- Only the bindings of mentioned names show in a text. -/
theorem Operand.textIn_congr (x : Operand) {scope scope' : Bindings}
    (h : ∀ n ∈ x.mentions, scope.get? n = scope'.get? n) (names : Bool) (d : Nat) :
    x.textIn scope names d = x.textIn scope' names d := by
  induction x using Operand.induct generalizing scope scope' d with
  | input n =>
    simp only [Operand.textIn, inputText]
    rw [h n (by simp [Operand.mentions])]
  | nested e ih =>
    simp only [Operand.textIn]
    split
    · rfl
    · obtain ⟨inputs, ts, outputs, journal⟩ := e
      simp only [Expression.textIn]
      refine congrArg (·.getD "") (Term.textAll_congr none (fun t ht x hx => ?_))
      refine ih t ht x hx (fun n hn => ?_) (d + 1)
      rw [Expression.scopeIn, Expression.scopeIn, Bindings.get?_merge, Bindings.get?_merge,
        h n ((Expression.mem_mentions _ n).mpr ⟨t, ht, x, hx, hn⟩)]

namespace Expression

theorem text_congr {e e' : Expression} (terms : e'.terms = e.terms)
    (inputs : ∀ n ∈ e.mentions, e'.inputs.get? n = e.inputs.get? n) : e'.text = e.text := by
  obtain ⟨m, ts, os, j⟩ := e
  obtain ⟨m', ts', os', j'⟩ := e'
  cases terms
  refine congrArg (·.getD "") (Term.textAll_congr none (fun t ht x hx => ?_))
  refine x.textIn_congr (fun n hn => inputs n ?_) true 0
  exact (mem_mentions _ n).mpr ⟨t, ht, x, hx, hn⟩

/-! ## The value of an output -/

/-- The value of an output under an assignment: its snapshot under the inputs around it. -/
def valueOfOutput (e : Expression) (o : Output) (s : Assignment) :
    Except EvaluationError (Option Bool) :=
  o.snapshot.fold (o.snapshot.scopeIn (e.scope s)) 0

/-- A cell of a table is the value under the assignment of its row. -/
theorem outputValue_eq (e : Expression) (o : Output) (k : Nat) :
    e.outputValue o k = e.valueOfOutput o (.ofRow e.inputs.names k) := rfl

/-- The snapshot has its meaning under the inputs around it. -/
theorem Closed.valueOfOutput_eq {e : Expression} (h : e.Closed) {o : Output} (ho : o ∈ e.outputs)
    (hd : o.snapshot.depth ≤ maxNestingDepth) (s : Assignment) :
    e.valueOfOutput o s = .ok (o.snapshot.meaning (e.scope s).values) := by
  have names : (e.scope s).Binds o.snapshot.mentions := s.applyTo_binds (h.outputs o ho)
  unfold valueOfOutput
  rw [o.snapshot.fold_eq_meaning (scopeIn_binds names) (by omega)]
  exact congrArg _ (o.snapshot.meaning_congr (fun n hn => values_scopeIn (names n hn)))

theorem Closed.meaning_of_valueOfOutput {e : Expression} (h : e.Closed) {o : Output}
    (ho : o ∈ e.outputs) {s : Assignment} {v : Option Bool} (hv : e.valueOfOutput o s = .ok v) :
    o.snapshot.meaning (e.scope s).values = v := by
  have hd := depth_of_fold hv
  rw [h.valueOfOutput_eq ho (by omega)] at hv
  exact Except.ok.inj hv

/-! ## Outputs that stay -/

/-- Inputs that agree wherever both have a name. -/
def Agree (e e' : Expression) : Prop :=
  ∀ n, e.inputs.contains n → e'.inputs.contains n → e'.inputs.get? n = e.inputs.get? n

theorem Agree.values {e e' : Expression} (h : e.Agree e') (s : Assignment) {n : String}
    (hn : e.inputs.contains n) (hn' : e'.inputs.contains n) :
    (e'.scope s).values n = (e.scope s).values n :=
  Bindings.values_congr (s.applyTo_congr (h n hn hn'))

/-- An output that follows the simplified terms has the value that it had. -/
theorem meaning_refreshed {e passed : Expression} (h : e.Closed) (stands : passed.StandsFor e)
    {o o' : Output} (ho : o.refreshed? e passed = some o') (v : Valuation) :
    ValueAtMost (o.snapshot.meaning v) (o'.snapshot.meaning v) := by
  obtain ⟨earlier, negations, hterms, hsame, rfl⟩ := Output.refreshed?_eq_some ho
  have before : e.run v = Term.runAll v earlier .blank :=
    Term.runAll_of_sameAll _ hsame
  rw [meaning_eq, meaning_eq, run, run, hterms, Term.runAll_append, Term.runAll_append, ← before]
  exact (Term.runAll_atMost negations (stands.value h.negatesOne v)).value

theorem depth_refreshed {e passed : Expression} {o o' : Output}
    (ho : o.refreshed? e passed = some o') {d : Nat} (hpassed : passed.depth ≤ d)
    (hd : o.snapshot.depth ≤ d) : o'.snapshot.depth ≤ d := by
  obtain ⟨earlier, negations, hterms, _, rfl⟩ := Output.refreshed?_eq_some ho
  apply (depth_le _ d).mpr
  intro t ht x hx
  rcases List.mem_append.mp ht with ht | ht
  · exact (depth_le _ d).mp hpassed t ht x hx
  · exact (depth_le _ d).mp hd t (hterms ▸ List.mem_append_right _ ht) x hx

/-- Simplified or left as it was, an output has the values that it had. -/
theorem Closed.valueOfOutput_refreshed {e passed r : Expression} (h : e.Closed)
    (stands : passed.StandsFor e) (hpassed : passed.depth ≤ maxNestingDepth) (hr : r.Closed)
    (agree : e.Agree r) {o : Output} (ho : o ∈ e.outputs)
    (hmem : (o.refreshed? e passed).getD o ∈ r.outputs) {s : Assignment} {v : Bool}
    (hv : e.valueOfOutput o s = .ok (some v)) :
    r.valueOfOutput ((o.refreshed? e passed).getD o) s = .ok (some v) := by
  have hd : o.snapshot.depth ≤ maxNestingDepth := by
    have := depth_of_fold hv
    omega
  have known := h.meaning_of_valueOfOutput ho hv
  have bound := hr.outputs _ hmem
  cases hfollows : o.refreshed? e passed with
  | none =>
    rw [hfollows] at hmem bound
    rw [Option.getD_none] at hmem bound ⊢
    rw [hr.valueOfOutput_eq hmem hd, ← known]
    exact congrArg _ (o.snapshot.meaning_congr
      (fun n hn => agree.values s (h.outputs o ho n hn) (bound n hn)))
  | some o' =>
    rw [hfollows] at hmem bound
    rw [Option.getD_some] at hmem bound ⊢
    rw [hr.valueOfOutput_eq hmem (depth_refreshed hfollows hpassed hd)]
    rcases meaning_refreshed h stands hfollows (e.scope s).values with absent | same
    · rw [known] at absent
      cases absent
    · rw [← known, same]
      refine congrArg _ (o'.snapshot.meaning_congr (fun n hn => agree.values s ?_ (bound n hn)))
      rcases Output.mentions_refreshed hfollows hn with hn | hn
      · exact h.names n (stands.mentions n hn)
      · exact h.outputs o ho n hn

/-- An output set on the terms of the expression has its value. -/
theorem Closed.valueOf_of_output {e : Expression} (h : e.Closed) (hd : e.depth ≤ maxNestingDepth)
    {o : Output} (ho : o ∈ e.outputs) (terms : o.snapshot.terms = e.terms) {s : Assignment}
    {v : Option Bool} (hv : e.valueOfOutput o s = .ok v) : e.valueOf s = .ok v := by
  rw [valueOf_eq_meaning h.names hd, ← h.meaning_of_valueOfOutput ho hv, meaning_eq, meaning_eq,
    run_of_terms terms]

/-- An output set on the simplified terms has the value that the expression had. -/
theorem Closed.valueOfOutput_of_passed {e passed r : Expression} (h : e.Closed)
    (hd : e.depth ≤ maxNestingDepth) (stands : passed.StandsFor e)
    (hpassed : passed.depth ≤ maxNestingDepth) (hr : r.Closed) (agree : e.Agree r) {o : Output}
    (ho : o ∈ r.outputs) (terms : o.snapshot.terms = passed.terms) {s : Assignment} {v : Bool}
    (hv : e.valueOf s = .ok (some v)) : r.valueOfOutput o s = .ok (some v) := by
  have known : e.meaning (e.scope s).values = some v := by
    rw [valueOf_eq_meaning h.names hd] at hv
    exact Except.ok.inj hv
  have same : o.snapshot.mentions = passed.mentions := mentions_of_terms terms
  have bound := hr.outputs o ho
  rw [hr.valueOfOutput_eq ho (depth_of_terms terms ▸ hpassed), meaning_eq, run_of_terms terms]
  rcases (stands.value h.negatesOne (e.scope s).values).value with absent | kept
  · rw [← meaning_eq, known] at absent
    cases absent
  · rw [← known, meaning_eq, kept]
    refine congrArg (fun r => Except.ok (Running.value r)) (passed.run_congr (fun n hn => ?_))
    exact agree.values s (h.names n (stands.mentions n hn)) (bound n (same ▸ hn))

/-! ## Renaming -/

/-- The text that the expression had, or has now, when it is first simplified. -/
def firstText (e : Expression) : String := e.journal.firstText.getD e.text

theorem renaming?_eq_some {e : Expression} {old new : String}
    (h : e.renaming? = some (old, new)) : e.journal.firstText = some old ∧ new = e.text ∧
      new ≠ old ∧ ∃ o ∈ e.outputs, o.label = old := by
  unfold renaming? at h
  split at h
  · rename_i first hfirst
    split at h
    · rename_i hrename
      obtain ⟨rfl, rfl⟩ := Prod.mk.inj (Option.some.inj h)
      simp only [Bool.and_eq_true, decide_eq_true_eq, List.any_eq_true, beq_iff_eq] at hrename
      exact ⟨hfirst, rfl, hrename.1, hrename.2⟩
    · cases h
  · cases h

end Expression

theorem Output.mem_rename_of_ne {old new : String} {snapshot : Expression} {o : Output}
    {os : List Output} (ho : o ∈ os) (hne : o.label ≠ old) :
    o ∈ Output.rename old new snapshot os := by
  induction os with
  | nil => cases ho
  | cons p os ih =>
    simp only [Output.rename]
    split
    · rename_i hp
      rcases List.mem_cons.mp ho with rfl | ho
      · exact absurd hp hne
      · exact List.mem_cons_of_mem _ ho
    · rcases List.mem_cons.mp ho with rfl | ho
      · simp
      · exact List.mem_cons_of_mem _ (ih ho)

theorem Output.renamed_mem {old : String} (new : String) (snapshot : Expression)
    {os : List Output} (h : ∃ o ∈ os, o.label = old) :
    (⟨new, snapshot⟩ : Output) ∈ Output.rename old new snapshot os := by
  obtain ⟨o, ho, hl⟩ := h
  induction os with
  | nil => cases ho
  | cons p os ih =>
    simp only [Output.rename]
    split
    · simp
    · rename_i hp
      rcases List.mem_cons.mp ho with rfl | ho
      · exact absurd hl hp
      · exact List.mem_cons_of_mem _ (ih ho)

theorem Output.label_refreshed (o : Output) (before now : Expression) :
    ((o.refreshed? before now).getD o).label = o.label := by
  cases h : o.refreshed? before now with
  | none => rfl
  | some o' =>
    obtain ⟨_, _, _, _, rfl⟩ := Output.refreshed?_eq_some h
    rfl

namespace Expression

/-- Where an output goes: it stays, or it is renamed or dropped along with the output that
is named by the first text. -/
theorem mem_renameOutput {e : Expression} {o : Output} (ho : o ∈ e.outputs) :
    o ∈ e.renameOutput.outputs ∨
      (e.journal.firstText = some o.label ∨ o.label = e.text) ∧
        (∃ first, e.journal.firstText = some first ∧ e.text ≠ first ∧
          ∃ p ∈ e.outputs, p.label = first) ∧
        (⟨e.text, e.snapshot⟩ : Output) ∈ e.renameOutput.outputs := by
  unfold renameOutput
  split
  · rename_i old new hrenaming
    obtain ⟨hfirst, rfl, hne, p, hp, rfl⟩ := renaming?_eq_some hrenaming
    have renamed : (⟨e.text, e.snapshot⟩ : Output) ∈
        Output.rename p.label e.text e.snapshot (e.outputs.filter (·.label ≠ e.text)) := by
      refine Output.renamed_mem e.text e.snapshot ⟨p, ?_, rfl⟩
      exact List.mem_filter.mpr ⟨hp, by simpa using Ne.symm hne⟩
    by_cases hnew : o.label = e.text
    · exact .inr ⟨.inr hnew, ⟨_, hfirst, hne, p, hp, rfl⟩, renamed⟩
    · by_cases hold : o.label = p.label
      · exact .inr ⟨.inl (hold ▸ hfirst), ⟨_, hfirst, hne, p, hp, rfl⟩, renamed⟩
      · refine .inl (Output.mem_rename_of_ne (List.mem_filter.mpr ⟨ho, ?_⟩) hold)
        simpa using hnew
  · exact .inl ho

/-- What is left of the inputs after a simplification is bound as before. -/
theorem agree_finish (c : SimplifyConfig) {e passed : Expression} (stands : passed.StandsFor e) :
    e.Agree (finish c e passed).1 := by
  intro n hn hn'
  obtain ⟨b, hb⟩ := Option.isSome_iff_exists.mp hn
  have used : (refreshOutputs e passed).renameOutput.isUsed n := by
    by_cases hused : (refreshOutputs e passed).renameOutput.isUsed n
    · exact hused
    · change ((refreshOutputs e passed).renameOutput.inputs.keep _).contains n at hn'
      rw [Bindings.contains, Bindings.get?_keep, if_neg hused] at hn'
      cases hn'
  have kept := get?_dropUnused used
  rw [renameOutput_inputs] at kept
  rw [hb, ← stands.bindings n b hb]
  exact kept

theorem text_finish (c : SimplifyConfig) (before e : Expression) :
    (finish c before e).1.text = e.text :=
  text_congr (finish_terms c before e) (fun _ hn => finish_inputs c before hn)

/-- The output `o'` of `r` has the values that `o` has in `e`, wherever these are known. -/
def KeepsValues (e r : Expression) (o o' : Output) : Prop :=
  ∀ (s : Assignment) (v : Bool), e.valueOfOutput o s = .ok (some v) →
    r.valueOfOutput o' s = .ok (some v)

/-- When `e` is simplified to `r`, an output with the first text for a label gets the new text. -/
def Renames (e r : Expression) : Prop :=
  r.text ≠ e.firstText ∧ ∃ p ∈ e.outputs, p.label = e.firstText

/-- An output is there afterwards, set on the simplified terms where it followed the present ones.
Or the renaming takes it, and the simplified expression goes by the new text. -/
theorem refreshed_or_renamed {c : SimplifyConfig} {e : Expression}
    (ok : (e.simplify c).outcome = .ok ()) {o : Output} (ho : o ∈ e.outputs) :
    (o.refreshed? e (e.passes c).expression).getD o ∈ (e.simplify c).expression.outputs ∨
      (o.label = e.firstText ∨ o.label = (e.simplify c).expression.text) ∧
        e.Renames (e.simplify c).expression ∧
        ∃ o' ∈ (e.simplify c).expression.outputs, o'.label = (e.simplify c).expression.text ∧
          o'.snapshot.terms = (e.passes c).expression.terms := by
  obtain ⟨-, -, result⟩ := passes_of_ok ok
  have text : (refreshOutputs e (e.passes c).expression).text = (e.simplify c).expression.text := by
    rw [result, text_finish]
    exact text_congr rfl (fun _ _ => rfl)
  have outputs := (passes_standsFor c e).outputs
  have present : (o.refreshed? e (e.passes c).expression).getD o ∈
      (refreshOutputs e (e.passes c).expression).outputs :=
    List.mem_map.mpr ⟨o, outputs ▸ ho, rfl⟩
  have remembered {label : String}
      (h : (refreshOutputs e (e.passes c).expression).journal.firstText = some label) :
      label = e.firstText :=
    Option.some.inj (h.symm.trans (passes_firstText c e))
  rcases mem_renameOutput present with stays | ⟨named, ⟨first, hfirst, hne, p, hp, hpl⟩, renamed⟩
  · exact .inl (result ▸ stays)
  · rw [o.label_refreshed, text] at named
    obtain ⟨q, hq, rfl⟩ := List.mem_map.mp hp
    rw [q.label_refreshed, remembered hfirst] at hpl
    rw [text, remembered hfirst] at hne
    refine .inr ⟨named.imp_left remembered, ⟨hne, q, outputs ▸ hq, hpl⟩,
      ⟨_, (refreshOutputs e (e.passes c).expression).snapshot⟩, ?_, text, rfl⟩
    rw [result]
    exact renamed

/-- The renaming runs over the output `o`. It goes by the first text, whatever the text has become
since. An output that has this text or the new one for a label gives way to the present terms, and
need not have been set on them; and one that was set on them goes by the new text even where its
label has not been the text for long. -/
structure RunsOver (e r : Expression) (o : Output) : Prop where
  renames : e.Renames r
  label : o.label = e.firstText ∨ o.label = r.text
  unset : o.snapshot.terms = e.terms → o.label = e.firstText ∧ e.firstText ≠ e.text

/-- A simplification that succeeds keeps every output: it stays under its label, or takes the
simplified text for a label when it was labelled with the present text, and it has the value that
it had. Where the renaming runs over an output, nothing keeps it: what goes by the simplified text
then has the value of the expression itself. -/
theorem simplify_keeps_outputs {c : SimplifyConfig} (hc : c.maxDepth ≤ maxNestingDepth)
    {e : Expression} (reached : e.Reachable) (ok : (e.simplify c).outcome = .ok ()) {o : Output}
    (ho : o ∈ e.outputs) :
    (∃ o' ∈ (e.simplify c).expression.outputs,
      (o'.label = o.label ∨ o.label = e.text ∧ o'.label = (e.simplify c).expression.text) ∧
      e.KeepsValues (e.simplify c).expression o o') ∨
    (e.RunsOver (e.simplify c).expression o ∧
      ∃ o' ∈ (e.simplify c).expression.outputs, o'.label = (e.simplify c).expression.text ∧
        (∀ (s : Assignment) (v : Bool), e.valueOf s = .ok (some v) →
          (e.simplify c).expression.valueOfOutput o' s = .ok (some v)) ∧
        (o.snapshot.terms = e.terms → e.KeepsValues (e.simplify c).expression o o')) := by
  obtain ⟨hd, run, result⟩ := passes_of_ok ok
  have stands := passes_standsFor c e
  have hpassed : (e.passes c).expression.depth ≤ c.maxDepth := depth_repeatPasses run
  have h := reached.closed
  have hr : (e.simplify c).expression.Closed := result ▸ (h.of_standsFor stands).finish c e
  have agree : e.Agree (e.simplify c).expression := result ▸ agree_finish c stands
  rcases refreshed_or_renamed ok ho with stays | ⟨which, renames, o', renamed, text, terms'⟩
  · exact .inl ⟨_, stays, .inl (o.label_refreshed _ _), fun s v hv =>
      h.valueOfOutput_refreshed stands (by omega) hr agree ho stays hv⟩
  · have own : ∀ (s : Assignment) (v : Bool), e.valueOf s = .ok (some v) →
        (e.simplify c).expression.valueOfOutput o' s = .ok (some v) := fun s v hv =>
      h.valueOfOutput_of_passed (by omega) stands (by omega) hr agree renamed terms' hv
    have kept : o.snapshot.terms = e.terms → e.KeepsValues (e.simplify c).expression o o' :=
      fun terms s v hv => own s v (h.valueOf_of_output (by omega) ho terms hv)
    by_cases spared : o.snapshot.terms = e.terms ∧ (o.label = e.firstText → e.firstText = e.text)
    · refine .inl ⟨o', renamed, ?_, kept spared.1⟩
      exact which.elim (fun hl => .inr ⟨hl.trans (spared.2 hl), text⟩)
        (fun hl => .inl (text.trans hl.symm))
    · have unset : o.snapshot.terms = e.terms → o.label = e.firstText ∧ e.firstText ≠ e.text :=
        fun terms => Classical.not_imp.mp (fun current => spared ⟨terms, current⟩)
      exact .inr ⟨⟨renames, which, unset⟩, o', renamed, text, own, kept⟩

/-- A named output of `(a ∧ b) ∨ b` keeps its value when that is absorbed to `b`. -/
theorem simplify_keeps_outputs_of_absorbed :
    let e := ((empty.append .and [.input "a", .input "b"]).append .or [.input "b"]).addLabel
      (some "q") false
    ∃ o' ∈ (e.simplify {}).expression.outputs, o'.label = "q" ∧
      (e.simplify {}).expression.valueOfOutput o' ⟨[("a", false), ("b", true)]⟩ =
        .ok (some true) := by
  intro e
  have reached : e.Reachable :=
    .addLabel _ _ (.pushNames .or ["b"] (.pushNames .and ["a", "b"] .empty rfl) rfl)
  have ok : (e.simplify {}).outcome = .ok () := by decide +kernel
  have other : ∀ p ∈ e.outputs, p.label ≠ e.firstText := by decide +kernel
  have text : e.firstText = e.text := rfl
  obtain ⟨o, ho, hl, hv⟩ : ∃ o ∈ e.outputs, o.label = "q" ∧
      e.valueOfOutput o ⟨[("a", false), ("b", true)]⟩ = .ok (some true) :=
    ⟨_, List.mem_singleton.mpr rfl, rfl, rfl⟩
  rcases simplify_keeps_outputs (by decide) reached ok ho with
    ⟨o', ho', hl', hv'⟩ | ⟨runs, _⟩
  · refine ⟨o', ho', ?_, hv' _ _ hv⟩
    rcases hl' with hl' | ⟨hl', _⟩
    · rw [hl', hl]
    · exact absurd (hl'.trans text.symm) (other o ho)
  · obtain ⟨p, hp, hpl⟩ := runs.renames.2
    exact absurd hpl (other p hp)

/-- The renaming loses both outputs for `a ∧ b` here. One is labelled with the text of a first
simplification that changed nothing, the other with the text at the second one, and neither was
set on the terms that take their place. -/
theorem simplify_can_lose_outputs :
    let e := (((((empty.append .and [.input "a", .input "b"]).simplify {}).expression.addLabel
      none false).addLabel (some "(a ∧ b) ∨ c") false).append .or [.input "c"])
    e.Reachable ∧ e.outputs.map (·.label) = ["a ∧ b", "(a ∧ b) ∨ c"] ∧
      (e.simplify {}).outcome = .ok () ∧
      ∀ o ∈ e.outputs, ¬ ∃ o' ∈ (e.simplify {}).expression.outputs,
        (o'.label = o.label ∨
          o.label = e.text ∧ o'.label = (e.simplify {}).expression.text) ∧
        e.KeepsValues (e.simplify {}).expression o o' := by
  intro e
  refine ⟨?_, by decide +kernel, by decide +kernel, ?_⟩
  · exact .pushNames .or ["c"] (.addLabel _ _ (.addLabel _ _ (.simplify _
      (.pushNames .and ["a", "b"] .empty rfl)))) rfl
  · rintro o ho ⟨o', ho', _, kept⟩
    have before : ∀ o ∈ e.outputs,
        e.valueOfOutput o ⟨[("a", false), ("b", false), ("c", true)]⟩ = .ok (some false) := by
      decide +kernel
    have after : ∀ o' ∈ (e.simplify {}).expression.outputs,
        (e.simplify {}).expression.valueOfOutput o' ⟨[("a", false), ("b", false), ("c", true)]⟩ =
          .ok (some true) := by decide +kernel
    have same := (after o' ho').symm.trans (kept _ _ (before o ho))
    cases same

end Expression

end SwitchingAlgebra
