-- Simplifications that fail. What one leaves has the value that was known, unless its last
-- pass nested it more deeply than can be evaluated; the change log only grows. The limit on
-- nesting is the one that makes evaluations fail.
import SwitchingAlgebra.Proofs.Reachable
import SwitchingAlgebra.Proofs.Settled

namespace SwitchingAlgebra

namespace Expression

/-! ## The journal -/

theorem unnest_journal (e : Expression) : e.unnest.journal = e.journal := by
  unfold unnest
  cases h : e.unnest? with
  | none => rfl
  | some e' =>
    obtain ⟨_, _, _, _, _, _, _, _, _, rfl⟩ := unnest?_eq_some h
    rfl

theorem sortOperands_journal (e : Expression) : e.sortOperands.1.journal = e.journal := rfl

theorem dropRepeated_journal (e : Expression) : e.dropRepeated.1.journal = e.journal := rfl

theorem mergeTerms_journal (op : Operator) (e : Expression) :
    (e.mergeTerms op).1.journal = e.journal := by
  unfold mergeTerms
  split <;> rfl

theorem associate_journal (e : Expression) : e.associate.1.journal = e.journal := by
  simp only [associate, mergeTerms_journal]

theorem absorb_journal (e : Expression) : e.absorb.1.journal = e.journal := by
  unfold absorb
  cases h : e.absorb? with
  | none => rfl
  | some p =>
    obtain ⟨e', step⟩ := p
    rcases absorb?_eq_some h with shared | ⟨-, into | nested⟩
    · obtain ⟨_, _, _, _, _, _, _, rfl⟩ := absorbShared?_eq_some shared
      rfl
    · obtain ⟨_, _, _, _, _, _, _, _, _, _, rfl⟩ := absorbIntoNested?_eq_some into
      rfl
    · obtain ⟨_, _, _, _, _, _, _, _, _, _, _, rfl⟩ := absorbNested?_eq_some nested
      rfl

theorem distribute_journal (e : Expression) : e.distribute.1.journal = e.journal := by
  unfold distribute
  cases h : e.distribute? with
  | none => rfl
  | some e' =>
    obtain ⟨_, _, _, _, _, _, _, _, _, _, _, _, _, _, _, _, _, _, rfl⟩ := distribute?_eq_some h
    exact unnest_journal _

theorem simplifyLevel_journal (e : Expression) : e.simplifyLevel.result.journal = e.journal := by
  rw [simplifyLevel_result, distribute_journal, absorb_journal, associate_journal,
    dropRepeated_journal, unnest_journal, sortOperands_journal, unnest_journal]

/-- A pass writes nothing into the journal by itself. -/
theorem pass_journal (maxDepth : Nat) (e : Expression) :
    (e.pass maxDepth).result.journal = e.journal := by
  rw [pass, passFrom, simplifyLevel_journal]

theorem log_changes (e : Expression) (changes : List Change) :
    (e.log changes).journal.changes = e.journal.changes ++ changes := rfl

/-- Repeated passes add to the change log and take nothing away. -/
theorem changes_repeatPasses (c : SimplifyConfig) (extra done : Nat) (e : Expression) :
    e.journal.changes <+: (repeatPasses c extra done e).expression.journal.changes := by
  refine repeatPasses_related (R := fun e e' => e.journal.changes <+: e'.journal.changes)
    List.IsPrefix.trans (fun e => ?_) extra done e
  rw [log_changes, pass_journal]
  exact List.prefix_append _ _

theorem changes_startLog (e : Expression) : e.journal.changes <+: e.startLog.1.journal.changes := by
  unfold startLog
  split
  · exact List.prefix_refl _
  · exact List.prefix_append _ _

/-! ## A simplification that fails -/

/-- What a failed simplification leaves stands for what it was given. -/
theorem standsFor_of_failed {c : SimplifyConfig} {e : Expression} {err : SimplifyError}
    (failed : (e.simplify c).outcome = .error err) :
    (e.simplify c).expression.StandsFor e ∧
      e.journal.changes <+: (e.simplify c).expression.journal.changes := by
  rcases simplify_cases c e with ⟨-, result, -⟩ | ⟨-, result, -⟩ | ⟨-, -, -, ok⟩
  · rw [result]
    exact ⟨.refl e, List.prefix_refl _⟩
  · rw [result]
    exact ⟨passes_standsFor c e, e.changes_startLog.trans (changes_repeatPasses c _ 0 _)⟩
  · rw [ok] at failed
    cases failed

/-- A failed simplification leaves an expression with the known values, or one that is
nested too deeply to be evaluated at all. The latter never happens when it only ran out of
passes. The change log is kept and may be longer. -/
theorem failed_simplify_keeps_known_values {c : SimplifyConfig} (hc : c.maxDepth ≤ maxNestingDepth)
    {e : Expression} (names : e.inputs.Binds e.mentions) (nots : e.Everywhere Term.NegatesOne)
    {err : SimplifyError} (failed : (e.simplify c).outcome = .error err) :
    (∀ (s : Assignment) (v : Bool), e.valueOf s = .ok (some v) →
      (e.simplify c).expression.valueOf s =
        if (e.simplify c).expression.depth ≤ maxNestingDepth then .ok (some v)
        else .error (.tooDeeplyNested maxNestingDepth)) ∧
    (∀ (passes : Nat) (changes : List Change), err = .didNotConverge passes changes →
      (e.simplify c).expression.depth ≤ maxNestingDepth) ∧
    e.journal.changes <+: (e.simplify c).expression.journal.changes := by
  obtain ⟨stands, grown⟩ := standsFor_of_failed failed
  refine ⟨fun s v hv => stands.valueOf names nots hv, ?_, grown⟩
  rintro passes changes rfl
  rcases simplify_cases c e with ⟨-, -, refused⟩ | ⟨-, result, err, run, failed'⟩ | ⟨-, -, -, ok⟩
  · rw [failed] at refused
    cases refused
  · rw [failed] at failed'
    cases failed'
    rw [result]
    exact Nat.le_trans (depth_of_givenUp run) hc
  · rw [failed] at ok
    cases ok

/-- `a ∧ b ∧ b` after the one pass that is allowed. -/
theorem failed_simplify_keeps_known_values_of_one_pass :
    let c : SimplifyConfig := { maxPasses := some 1 }
    let e := empty.append .and [.input "a", .input "b", .input "b"]
    let s : Assignment := ⟨[("a", true), ("b", true)]⟩
    (e.simplify c).outcome =
        .error (.didNotConverge 1 (e.simplify c).expression.journal.changes) ∧
      e.valueOf s = .ok (some true) ∧ (e.simplify c).expression.valueOf s = .ok (some true) ∧
      e.journal.changes <+: (e.simplify c).expression.journal.changes := by
  intro c e s
  have nots : e.Everywhere Term.NegatesOne :=
    (Reachable.empty.pushNames .and ["a", "b", "b"] rfl).closed.negatesOne
  have failed : (e.simplify c).outcome =
      .error (.didNotConverge 1 (e.simplify c).expression.journal.changes) := by decide +kernel
  obtain ⟨values, shallow, grown⟩ :=
    failed_simplify_keeps_known_values (c := c) (by decide) (by decide) nots failed
  have known : e.valueOf s = .ok (some true) := by decide
  refine ⟨failed, known, ?_, grown⟩
  rw [values s true known, if_pos (shallow 1 _ rfl)]

/-- `y ⊕ (y ⊕ … (y ⊕ (y)))`, nested `k` times. -/
def exclusiveTower : Nat → Expression
  | 0 => empty.append .and [.input "y"]
  | k + 1 => empty.append .xor [.input "y", .nested (exclusiveTower k)]

theorem exclusiveTower_reachable (k : Nat) : (exclusiveTower k).Reachable := by
  induction k with
  | zero => exact .pushNames .and ["y"] .empty rfl
  | succ k ih => exact @Reachable.push _ _ .xor _ .empty (by simp [ih]) rfl

theorem depth_exclusiveTower (k : Nat) : (exclusiveTower k).depth = k := by
  induction k with
  | zero => rfl
  | succ k ih => simp [exclusiveTower, append, empty, depth, Term.depthAll, Operand.depthAll, ih]

/-- Distribution nests what it takes out of a term one level more deeply. Below that the
pass is stopped, and what it leaves can no longer be evaluated. -/
theorem failed_simplify_can_nest_too_deeply :
    let e := (empty.append .and [.input "a", .input "b", .nested (exclusiveTower 255)]).append .or
      [.nested (empty.append .and [.input "a", .input "c"])]
    let s : Assignment := ⟨[("a", true), ("b", true), ("c", true), ("y", true)]⟩
    e.inputs.Binds e.mentions ∧ e.Everywhere Term.NegatesOne ∧
      (e.simplify {}).outcome = .error (.tooDeeplyNested 257 256) ∧
      e.valueOf s = .ok (some true) ∧
      (e.simplify {}).expression.valueOf s = .error (.tooDeeplyNested 256) := by
  intro e s
  have reachable : e.Reachable := by
    refine @Reachable.push _ _ .or _ (@Reachable.push _ _ .and _ .empty ?_ rfl) ?_ rfl
    · simp [exclusiveTower_reachable]
    · simpa using Reachable.pushNames .and ["a", "c"] .empty rfl
  have names := reachable.closed.names
  have nots := reachable.closed.negatesOne
  have shallow : e.depth = 256 := by
    simp [e, append, empty, depth, Term.depthAll, Operand.depthAll, depth_exclusiveTower]
  have known : e.valueOf s = .ok (some true) :=
    (valueOf_eq_meaning names (Nat.le_of_eq shallow) s).trans (by decide +kernel)
  obtain ⟨failed, deep⟩ : (e.simplify {}).outcome = .error (.tooDeeplyNested 257 256) ∧
      maxNestingDepth < (e.simplify {}).expression.depth := by decide +kernel
  have left := (standsFor_of_failed failed).1.valueOf names nots known
  rw [if_neg (Nat.not_le.mpr deep)] at left
  exact ⟨names, nots, failed, known, left⟩

/-! ## The limit -/

/-- There is one limit. Where every name is bound, an evaluation fails just where the expression is
nested more deeply than the limit says, and for this reason; and such an expression is refused
by a simplification as it is, with its depth. -/
theorem fails_iff_deep {e : Expression} (names : e.inputs.Binds e.mentions) :
    (∀ s : Assignment, ((∃ err, e.valueOf s = .error err) ↔ maxNestingDepth < e.depth) ∧
      ∀ err, e.valueOf s = .error err → err = .tooDeeplyNested maxNestingDepth) ∧
    (maxNestingDepth < e.depth →
      e.simplify {} = ⟨e, [], .error (.tooDeeplyNested e.depth maxNestingDepth)⟩) := by
  refine ⟨fun s => ⟨⟨?_, fun deep => ⟨_, valueOf_eq_error names deep s⟩⟩, ?_⟩,
    simplify_of_deep (c := {})⟩
  · rintro ⟨err, failed⟩
    by_contra shallow
    rw [valueOf_eq_meaning names (Nat.not_lt.mp shallow) s] at failed
    cases failed
  · exact fun err failed => error_of_fold_of_binds (s.applyTo_binds names) failed

theorem get?_ignoring (e : Expression) :
    ((empty.append .and [.input "a"]).append .not [.nested e]).inputs.get? "a" =
      some .unresolved := by
  simp only [append, List.foldl_cons, List.foldl_nil, Operand.bindInto, Bindings.get?_merge]
  rfl

theorem meaning_ignoring (e : Expression) (v : Valuation) :
    ((empty.append .and [.input "a"]).append .not [.nested e]).meaning v = (v "a").map (!·) := by
  cases h : v "a" <;>
    simp [meaning_eq, run, append, empty, Term.run, Running.step, h, Operator.reduce,
      Operator.combine, Running.ofValue, Running.value]

/-- A negation that has a result to negate ignores its operand. What is nested in this operand
counts all the same, and 257 levels are one too many. -/
theorem fails_iff_deep_of_ignored_operand :
    let negation := fun k =>
      (empty.append .and [.input "a"]).append .not [.nested (exclusiveTower k)]
    let s : Assignment := ⟨[("a", true)]⟩
    (∀ k, (negation k).inputs.Binds (negation k).mentions) ∧
      (negation 255).valueOf s = .ok (some false) ∧
      (¬ ∃ err, (negation 255).valueOf s = .error err) ∧
      (negation 256).valueOf s = .error (.tooDeeplyNested 256) ∧
      (negation 256).simplify {} = ⟨negation 256, [], .error (.tooDeeplyNested 257 256)⟩ := by
  intro negation s
  have names : ∀ k, (negation k).inputs.Binds (negation k).mentions := by
    intro k
    have first : Reachable (empty.append .and [.input "a"]) := .pushNames .and ["a"] .empty rfl
    exact binds_append first.closed.names .not
      (by simpa using (exclusiveTower_reachable k).closed.names)
  have depth : ∀ k, (negation k).depth = k + 1 := by
    intro k
    simp [negation, append, empty, Expression.depth, Term.depthAll, Operand.depthAll,
      depth_exclusiveTower]
  have deep : maxNestingDepth < (negation 256).depth := depth 256 ▸ Nat.lt_succ_self 256
  have fails := (fails_iff_deep (names 256)).1 s
  obtain ⟨err, failed⟩ := fails.1.mpr deep
  refine ⟨names, ?_, ?_, ?_, ?_⟩
  · rw [valueOf_eq_meaning (names 255) (Nat.le_of_eq (depth 255)), meaning_ignoring,
      Bindings.values, scope, Assignment.get?_applyTo, get?_ignoring]
    rfl
  · rw [((fails_iff_deep (names 255)).1 s).1, depth 255]
    exact Nat.lt_irrefl 256
  · rw [failed, fails.2 err failed]
    rfl
  · rw [(fails_iff_deep (names 256)).2 deep, depth 256]
    rfl

end Expression

end SwitchingAlgebra
