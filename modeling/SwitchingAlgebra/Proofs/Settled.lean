-- Expressions on which no law acts any more. A law that has nothing to log has changed
-- nothing, so that a pass that reports no change has found such an expression and left it
-- as it was. Whether a law acts depends on the terms alone.
import SwitchingAlgebra.Proofs.Passes

namespace SwitchingAlgebra

/-! ## Laws that act on one term -/

theorem Term.sort_of_inOrder {t : Term} (h : Operand.inOrder t.operands) : t.sort = (t, []) := by
  unfold Term.sort
  rw [if_pos h]

theorem Term.inOrder_of_sort {t : Term} (h : t.sort.2 = []) : Operand.inOrder t.operands := by
  unfold Term.sort at h
  split at h
  · assumption
  · dsimp only at h
    split at h <;> cases h

/-- No operand of an `AND` or an `OR` is the same as an earlier one. -/
def Term.Distinct (t : Term) : Prop :=
  t.operator = .and ∨ t.operator = .or → Operand.repeated [] t.operands = []

theorem Operand.distinct_of_repeated {seen xs : List Operand}
    (h : Operand.repeated seen xs = []) : Operand.distinct seen xs = xs := by
  induction xs generalizing seen with
  | nil => rfl
  | cons x xs ih =>
    simp only [Operand.repeated] at h
    simp only [Operand.distinct]
    split at h
    · cases h
    · rename_i hx
      rw [if_neg hx, ih h]

theorem Term.dropRepeated_of_distinct {t : Term} (h : t.Distinct) : t.dropRepeated = (t, []) := by
  unfold Term.dropRepeated
  split
  · rename_i hop
    have none_repeated := h (by simpa using hop)
    rw [none_repeated, Operand.distinct_of_repeated none_repeated]
    cases t
    rfl
  · rfl

theorem Term.distinct_of_dropRepeated {t : Term} (h : t.dropRepeated.2 = []) : t.Distinct := by
  intro hop
  unfold Term.dropRepeated at h
  rw [if_pos (by simpa using hop)] at h
  dsimp only at h
  cases hr : Operand.repeated [] t.operands with
  | nil => rfl
  | cons x xs =>
    rw [hr, List.map_cons, List.eraseDups_cons] at h
    cases h

namespace Expression

theorem mapTerms_of_unchanged {f : Term → Term × List Step} {e : Expression}
    (h : ∀ t ∈ e.terms, f t = (t, [])) : e.mapTerms f = (e, []) := by
  have terms : e.terms.map (fun t => (f t).1) = e.terms := by
    rw [List.map_congr_left (fun t ht => congrArg Prod.fst (h t ht)), List.map_id']
  have steps : e.terms.flatMap (fun t => (f t).2) = [] :=
    List.flatMap_eq_nil_iff.mpr (fun t ht => congrArg Prod.snd (h t ht))
  rw [mapTerms, terms, steps]
  cases e
  rfl

theorem silent_of_mapTerms {f : Term → Term × List Step} {e : Expression}
    (h : (e.mapTerms f).2 = []) : ∀ t ∈ e.terms, (f t).2 = [] :=
  List.flatMap_eq_nil_iff.mp h

/-! ## Laws that act between terms -/

theorem mergeTerms_of_none {op : Operator} {e : Expression}
    (h : Term.mergeFirst? op e.terms = none) : e.mergeTerms op = (e, []) := by
  rw [mergeTerms, h]

theorem none_of_mergeTerms {op : Operator} {e : Expression} (h : (e.mergeTerms op).2 = []) :
    Term.mergeFirst? op e.terms = none := by
  cases hm : Term.mergeFirst? op e.terms with
  | none => rfl
  | some ts =>
    rw [mergeTerms, hm] at h
    cases h

theorem associate_of_none {e : Expression}
    (h : ∀ op : Operator, op.isUnbounded → Term.mergeFirst? op e.terms = none) :
    e.associate = (e, []) := by
  unfold associate
  rw [mergeTerms_of_none (h .and rfl)]
  dsimp only
  rw [mergeTerms_of_none (h .or rfl)]
  dsimp only
  rw [mergeTerms_of_none (h .xor rfl)]
  rfl

theorem none_of_associate {e : Expression} (h : e.associate.2 = []) :
    ∀ op : Operator, op.isUnbounded → Term.mergeFirst? op e.terms = none := by
  simp only [associate, List.append_eq_nil_iff] at h
  obtain ⟨⟨first, second⟩, third⟩ := h
  have no_and := none_of_mergeTerms first
  rw [mergeTerms_of_none no_and] at second third
  have no_or := none_of_mergeTerms second
  rw [mergeTerms_of_none no_or] at third
  have no_xor := none_of_mergeTerms third
  intro op hop
  cases op with
  | and => exact no_and
  | or => exact no_or
  | xor => exact no_xor
  | nand => cases hop
  | nor => cases hop
  | xnor => cases hop
  | not => cases hop

/-! ## One level -/

/-- No law acts on the terms of the expression itself. -/
structure Still (e : Expression) : Prop where
  unspliced : e.unnest? = none
  inOrder : ∀ t ∈ e.terms, Operand.inOrder t.operands
  distinct : ∀ t ∈ e.terms, t.Distinct
  unmerged : ∀ op : Operator, op.isUnbounded → Term.mergeFirst? op e.terms = none
  unabsorbed : e.absorb? = none
  undistributed : e.distribute? = none

theorem unnest_of_none {e : Expression} (h : e.unnest? = none) : e.unnest = e := by
  rw [unnest, h]
  rfl

theorem Still.simplifyLevel {e : Expression} (h : e.Still) :
    e.simplifyLevel = { result := e } := by
  have sorted : e.sortOperands = (e, []) :=
    mapTerms_of_unchanged (fun t ht => Term.sort_of_inOrder (h.inOrder t ht))
  have dropped : e.dropRepeated = (e, []) :=
    mapTerms_of_unchanged (fun t ht => Term.dropRepeated_of_distinct (h.distinct t ht))
  have absorbed : e.absorb = (e, []) := by rw [absorb, h.unabsorbed]
  have distributed : e.distribute = (e, []) := by rw [distribute, h.undistributed]
  simp [Expression.simplifyLevel, unnest_of_none h.unspliced, h.unspliced, sorted, dropped,
    associate_of_none h.unmerged, absorbed, distributed, entries]

/-- A level that reports no change is one on which no law acts. -/
theorem still_of_simplifyLevel {e : Expression} (h : e.simplifyLevel.changed = false) :
    e.Still := by
  simp only [Expression.simplifyLevel, Bool.or_eq_false_iff, Option.isSome_eq_false_iff,
    Option.isNone_iff_eq_none, Bool.not_eq_false', List.isEmpty_iff, List.append_eq_nil_iff,
    entries, List.map_eq_nil_iff] at h
  obtain ⟨⟨unspliced, unspliced'⟩, ⟨⟨⟨sorted, dropped⟩, merged⟩, absorbed⟩, distributed⟩ := h
  have inOrder : ∀ t ∈ e.terms, Operand.inOrder t.operands := by
    rw [unnest_of_none unspliced] at sorted
    exact fun t ht => Term.inOrder_of_sort (silent_of_mapTerms sorted t ht)
  -- From here on each law is seen to act on the expression as it was found.
  have first : e.unnest.sortOperands.1.unnest = e := by
    rw [unnest_of_none unspliced', unnest_of_none unspliced,
      sortOperands, mapTerms_of_unchanged (fun t ht => Term.sort_of_inOrder (inOrder t ht))]
  rw [first] at dropped merged absorbed distributed
  have distinct : ∀ t ∈ e.terms, t.Distinct := fun t ht =>
    Term.distinct_of_dropRepeated (silent_of_mapTerms dropped t ht)
  rw [Expression.dropRepeated, mapTerms_of_unchanged
    (fun t ht => Term.dropRepeated_of_distinct (distinct t ht))] at merged absorbed distributed
  have unmerged := none_of_associate merged
  rw [associate_of_none unmerged] at absorbed distributed
  have unabsorbed : e.absorb? = none := by
    cases ha : e.absorb? with
    | none => rfl
    | some p => rw [absorb, ha] at absorbed; cases absorbed
  rw [absorb, unabsorbed] at distributed
  have undistributed : e.distribute? = none := by
    cases hd : e.distribute? with
    | none => rfl
    | some p => rw [distribute, hd] at distributed; cases distributed
  exact ⟨unspliced, inOrder, distinct, unmerged, unabsorbed, undistributed⟩

/-! ## The terms alone decide -/

theorem absorb?_eq_none_iff (e : Expression) : e.absorb? = none ↔ Term.absorbed? e.terms = none ∧
    (e.headIsDual → e.absorbIntoNested? = none ∧ e.absorbNested? = none) := by
  unfold absorb? absorbShared?
  rw [Option.or_eq_none_iff, Option.map_eq_none_iff]
  refine and_congr_right (fun _ => ?_)
  split <;> simp_all [Option.or_eq_none_iff]

section

variable {m m' : Bindings} {ts : List Term} {os os' : List Output} {j j' : Journal}

theorem unnest?_none_rebind (h : unnest? ⟨m, ts, os, j⟩ = none) :
    unnest? ⟨m', ts, os', j'⟩ = none := by
  unfold unnest? at h ⊢
  repeat' split at h
  all_goals simp_all

theorem absorbIntoNested?_none_rebind (h : absorbIntoNested? ⟨m, ts, os, j⟩ = none) :
    absorbIntoNested? ⟨m', ts, os', j'⟩ = none := by
  unfold absorbIntoNested? at h ⊢
  repeat' split at h
  all_goals simp_all

theorem absorbNested?_none_rebind (h : absorbNested? ⟨m, ts, os, j⟩ = none) :
    absorbNested? ⟨m', ts, os', j'⟩ = none := by
  unfold absorbNested? at h ⊢
  repeat' split at h
  all_goals simp_all

theorem distribute?_none_rebind (h : distribute? ⟨m, ts, os, j⟩ = none) :
    distribute? ⟨m', ts, os', j'⟩ = none := by
  unfold distribute? at h ⊢
  dsimp only at h ⊢
  repeat' split at h
  all_goals simp_all

end

theorem Still.of_terms {e e' : Expression} (h : e.Still) (terms : e'.terms = e.terms) :
    e'.Still := by
  obtain ⟨m, ts, os, j⟩ := e
  obtain ⟨m', ts', os', j'⟩ := e'
  cases terms
  obtain ⟨shared, nested⟩ := (absorb?_eq_none_iff _).mp h.unabsorbed
  refine ⟨unnest?_none_rebind h.unspliced, h.inOrder, h.distinct, h.unmerged, ?_,
    distribute?_none_rebind h.undistributed⟩
  exact (absorb?_eq_none_iff _).mpr ⟨shared, fun dual =>
    ⟨absorbIntoNested?_none_rebind (nested dual).1, absorbNested?_none_rebind (nested dual).2⟩⟩

/-! ## All levels -/

end Expression

/-- No law acts on the operand, nor on anything nested in it. -/
inductive Operand.Settled : Operand → Prop
  | input (n : String) : Settled (.input n)
  | nested {e : Expression} : e.Still → (∀ t ∈ e.terms, ∀ x ∈ t.operands, Settled x) →
      Settled (.nested e)

/-- No law acts on the expression, at any level. -/
structure Expression.Settled (e : Expression) : Prop where
  still : e.Still
  operands : ∀ t ∈ e.terms, ∀ x ∈ t.operands, x.Settled

theorem Operand.settled_nested {e : Expression} : (Operand.nested e).Settled ↔ e.Settled := by
  constructor
  · rintro (_ | ⟨still, operands⟩)
    exact ⟨still, operands⟩
  · intro h
    exact .nested h.still h.operands

theorem Expression.Settled.of_terms {e e' : Expression} (h : e.Settled)
    (terms : e'.terms = e.terms) : e'.Settled :=
  ⟨h.still.of_terms terms, terms ▸ h.operands⟩

namespace PassOutcome

variable {α : Type} {f : α → PassOutcome α} {xs : List α}

theorem overList_of_unchanged (h : ∀ x ∈ xs, f x = { result := x }) :
    overList f xs = { result := xs } := by
  induction xs with
  | nil => rfl
  | cons x xs ih =>
    have rest := ih (fun y hy => h y (List.mem_cons_of_mem _ hy))
    simp [overList, h x (by simp), rest]

end PassOutcome

namespace Expression

/-- A pass leaves an expression alone on which no law acts. -/
theorem Settled.passFrom {levels depth : Nat} {e : Expression} (h : e.Settled)
    (hd : e.depth < levels) : passFrom levels depth e = { result := e } := by
  induction levels generalizing depth e with
  | zero => omega
  | succ levels ih =>
    have operand : ∀ t ∈ e.terms, ∀ x ∈ t.operands,
        x.pass (Expression.passFrom levels (depth + 1)) = { result := x } := by
      intro t ht x hx
      cases x with
      | input n => rfl
      | nested n =>
        have level := (e.depth_le levels).mp (by omega) t ht _ hx
        rw [Operand.pass, ih (Operand.settled_nested.mp (h.operands t ht _ hx)) level]
        rfl
    have below : PassOutcome.overList (Term.pass (Expression.passFrom levels (depth + 1))) e.terms =
        { result := e.terms } := by
      apply PassOutcome.overList_of_unchanged
      intro t ht
      rw [Term.pass, PassOutcome.overList_of_unchanged (operand t ht)]
      cases t
      rfl
    simp only [Expression.passFrom, h.still.simplifyLevel, below]
    cases e
    rfl

/-- A pass that was not stopped and reports no change has found nothing to do. -/
theorem settled_of_passFrom {levels depth : Nat} {e : Expression}
    (finished : (passFrom levels depth e).tooDeep = none)
    (h : (passFrom levels depth e).changed = false) : e.Settled ∧ e.depth < levels := by
  induction levels generalizing depth e with
  | zero => cases finished
  | succ levels ih =>
    simp only [Expression.passFrom, Bool.or_eq_false_iff] at finished h
    have still := still_of_simplifyLevel h.1
    rw [still.simplifyLevel] at finished h
    obtain ⟨finished_terms, -, changed_terms⟩ := PassOutcome.overList_of_finished finished
    have operands : ∀ t ∈ e.terms, ∀ x ∈ t.operands, x.Settled ∧ x.level ≤ levels := by
      intro t ht x hx
      obtain ⟨finished_operands, -, changed_operands⟩ :=
        PassOutcome.overList_of_finished (finished_terms t ht)
      have unchanged : (x.pass (passFrom levels (depth + 1))).changed = false := by
        have term := List.any_eq_false.mp (changed_terms.symm.trans h.2) t ht
        rw [Bool.not_eq_true] at term
        have operand := List.any_eq_false.mp (changed_operands.symm.trans term) x hx
        rwa [Bool.not_eq_true] at operand
      cases x with
      | input n => exact ⟨.input n, Nat.zero_le _⟩
      | nested n =>
        obtain ⟨settled, deep⟩ := ih (finished_operands _ hx) unchanged
        exact ⟨Operand.settled_nested.mpr settled, deep⟩
    refine ⟨⟨still, fun t ht x hx => (operands t ht x hx).1⟩, ?_⟩
    exact Nat.lt_succ_of_le ((e.depth_le levels).mpr (fun t ht x hx => (operands t ht x hx).2))

theorem Settled.pass {e : Expression} (h : e.Settled) {maxDepth : Nat} (hd : e.depth ≤ maxDepth) :
    e.pass maxDepth = { result := e } := by
  unfold Expression.pass
  exact h.passFrom (by omega)

theorem settled_of_pass {e : Expression} {maxDepth : Nat}
    (finished : (e.pass maxDepth).tooDeep = none) (h : (e.pass maxDepth).changed = false) :
    e.Settled ∧ e.depth ≤ maxDepth := by
  unfold Expression.pass at finished h
  obtain ⟨settled, deep⟩ := settled_of_passFrom finished h
  exact ⟨settled, by omega⟩

/-! ## Repeated passes -/

theorem log_nil (e : Expression) : e.log [] = e := by
  cases e
  simp [log]

/-- Passes over an expression on which no law acts come to an end at once. -/
theorem Settled.repeatPasses {e : Expression} (h : e.Settled) {c : SimplifyConfig}
    (hd : e.depth ≤ c.maxDepth) (extra done : Nat) :
    (repeatPasses c extra done e).expression = e ∧
      (repeatPasses c extra done e).outcome = .ok () := by
  cases extra <;> simp [Expression.repeatPasses, h.pass hd, log_nil]

/-- Passes that came to an end leave an expression on which no law acts. -/
theorem settled_of_repeatPasses {c : SimplifyConfig} {extra done : Nat} {e : Expression}
    (ok : (repeatPasses c extra done e).outcome = .ok ()) :
    (repeatPasses c extra done e).expression.Settled := by
  obtain ⟨last, expression, ends⟩ := repeatPasses_ends c extra done e
  cases ends with
  | stopped depth hd ho => rw [ok] at ho; cases ho
  | givenUp passes hd hc ho => rw [ok] at ho; cases ho
  | settled hd hc ho =>
    obtain ⟨settled, deep⟩ := settled_of_pass hd hc
    rw [expression, settled.pass deep, log_nil]
    exact settled

end Expression

end SwitchingAlgebra
