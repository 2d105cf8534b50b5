-- Repeated passes come to an end by themselves. A pass that changes something makes the
-- expression lighter, or puts operands in order and does nothing else. The next pass then
-- finds them in order.
import SwitchingAlgebra.Proofs.Weight

namespace SwitchingAlgebra

/-! ## Order at every level -/

mutual

/-- The operands of every term stand in order, at every level. -/
def Expression.isOrdered : Expression → Bool
  | { terms, .. } => Term.allOrdered terms

/-- The operands of these terms stand in order, and those below them. -/
def Term.allOrdered : List Term → Bool
  | [] => true
  | ⟨_, operands⟩ :: ts =>
    Operand.inOrder operands && Operand.allOrdered operands && Term.allOrdered ts

/-- What is nested in the operands is ordered. -/
def Operand.allOrdered : List Operand → Bool
  | [] => true
  | .input _ :: xs => Operand.allOrdered xs
  | .nested e :: xs => e.isOrdered && Operand.allOrdered xs

end

def Operand.isOrdered : Operand → Bool
  | .input _ => true
  | .nested e => e.isOrdered

theorem Operand.allOrdered_eq (xs : List Operand) : allOrdered xs = xs.all isOrdered := by
  induction xs with
  | nil => rfl
  | cons x xs ih => cases x <;> simp [allOrdered, isOrdered, ih]

theorem Expression.isOrdered_eq (e : Expression) : e.isOrdered =
    e.terms.all (fun t => Operand.inOrder t.operands && t.operands.all Operand.isOrdered) := by
  obtain ⟨_, ts, _, _⟩ := e
  simp only [isOrdered]
  induction ts with
  | nil => rfl
  | cons t ts ih =>
    obtain ⟨op, xs⟩ := t
    simp [Term.allOrdered, Operand.allOrdered_eq, ih]

theorem Operand.inOrder_mergeSort (xs : List Operand) : inOrder (xs.mergeSort mayPrecede) :=
  inOrder_of_pairwise (List.pairwise_mergeSort mayPrecede_trans mayPrecede_total xs)

theorem Term.sort_inOrder (t : Term) : Operand.inOrder t.sort.1.operands := by
  unfold Term.sort
  split
  · assumption
  · exact Operand.inOrder_mergeSort t.operands

/-! ## Passes over parts -/

namespace PassOutcome

/-- A pass leaves nothing heavier. Where the weight is the same it leaves things in order,
and it changes nothing that was. -/
structure Calms {α : Type} (w : α → Nat) (inOrder : α → Bool) (x : α) (p : PassOutcome α) :
    Prop where
  weight : w p.result ≤ w x
  ordered : w x ≤ w p.result → inOrder p.result
  unchanged : w x ≤ w p.result → inOrder x → p.changed = false

theorem calms_overList {α : Type} {w : α → Nat} {inOrder : α → Bool} {f : α → PassOutcome α}
    {xs : List α} (h : ∀ x ∈ xs, (f x).tooDeep = none → Calms w inOrder x (f x))
    (finished : (overList f xs).tooDeep = none) :
    Calms (fun xs => (xs.map w).sum) (·.all inOrder) xs (overList f xs) := by
  obtain ⟨each, result, changed⟩ := overList_of_finished finished
  have calm := fun x hx => h x hx (each x hx)
  have lighter : ((xs.map (fun x => (f x).result)).map w).sum ≤ (xs.map w).sum := by
    rw [List.map_map]
    exact List.sum_le_sum (fun x hx => (calm x hx).weight)
  have summands : (xs.map w).sum ≤ ((overList f xs).result.map w).sum →
      ∀ x ∈ xs, w x ≤ w (f x).result := by
    rw [result, List.map_map]
    exact le_of_sum_map_le (fun x hx => (calm x hx).weight)
  refine ⟨result ▸ lighter, fun same => ?_, fun same ordered => ?_⟩
  · rw [result, List.all_map]
    exact List.all_eq_true.mpr (fun x hx => (calm x hx).ordered (summands same x hx))
  · rw [changed]
    apply List.any_eq_false.mpr
    intro x hx
    rw [Bool.not_eq_true]
    exact (calm x hx).unchanged (summands same x hx) (List.all_eq_true.mp ordered x hx)

end PassOutcome

/-- An expression is not heavier as an operand either. -/
structure Expression.Calmed (e : Expression) (p : PassOutcome Expression) : Prop where
  bare : p.result.isBare → e.isBare
  calms : PassOutcome.Calms Expression.weight Expression.isOrdered e p

section

variable {f : Expression → PassOutcome Expression}

theorem Operand.mayPrecede_pass (x y : Operand) :
    (x.pass f).result.mayPrecede (y.pass f).result = x.mayPrecede y := by
  cases x <;> cases y <;> rfl

theorem Operand.inOrder_pass (xs : List Operand) :
    inOrder (xs.map (fun x => (x.pass f).result)) = inOrder xs := by
  induction xs with
  | nil => rfl
  | cons x xs ih =>
    cases xs with
    | nil => rfl
    | cons y ys =>
      simp only [List.map_cons, inOrder] at ih ⊢
      rw [mayPrecede_pass, ih]

theorem Operand.calms_pass (h : ∀ e, (f e).tooDeep = none → e.Calmed (f e)) (x : Operand)
    (finished : (x.pass f).tooDeep = none) : PassOutcome.Calms weight isOrdered x (x.pass f) := by
  cases x with
  | input n => exact ⟨Nat.le_refl _, fun _ => rfl, fun _ _ => rfl⟩
  | nested e =>
    obtain ⟨bare, calms⟩ := h e finished
    have below := calms.weight
    have nested : ((Operand.nested e).pass f).result.weight =
        1 + (f e).result.weight + if (f e).result.isBare then 4 else 0 := weight_nested _
    have penalty : (if (f e).result.isBare then 4 else 0) ≤ if e.isBare then 4 else 0 := by
      by_cases hb : (f e).result.isBare
      · rw [if_pos hb, if_pos (bare hb)]
      · rw [if_neg hb]
        exact Nat.zero_le _
    have same : (Operand.nested e).weight ≤ ((Operand.nested e).pass f).result.weight →
        e.weight ≤ (f e).result.weight := by
      rw [nested, weight_nested]
      omega
    refine ⟨?_, fun hw => calms.ordered (same hw), fun hw => calms.unchanged (same hw)⟩
    rw [nested, weight_nested]
    omega

theorem Term.operands_pass {t : Term} (finished : (t.pass f).tooDeep = none) :
    (t.pass f).result.operands = t.operands.map (fun x => (x.pass f).result) :=
  (PassOutcome.overList_of_finished finished).2.1

theorem Term.calms_pass (h : ∀ e, (f e).tooDeep = none → e.Calmed (f e)) (t : Term)
    (finished : (t.pass f).tooDeep = none) :
    PassOutcome.Calms weight (·.operands.all Operand.isOrdered) t (t.pass f) := by
  have operands := PassOutcome.calms_overList (fun x _ => Operand.calms_pass h x) finished
  obtain ⟨lighter, ordered, unchanged⟩ := operands
  simp only [← Operand.weightAll_eq_sum] at lighter ordered unchanged
  have before : t.weight = 1 + Operand.weightAll t.operands := rfl
  have after : (t.pass f).result.weight =
    1 + Operand.weightAll (PassOutcome.overList (Operand.pass f) t.operands).result := rfl
  refine ⟨by omega, fun same => ordered (by omega), fun same => unchanged (by omega)⟩

end

/-! ## A pass -/

namespace Expression

theorem sortOperands_inOrder {e : Expression} {t : Term} (ht : t ∈ e.sortOperands.1.terms) :
    Operand.inOrder t.operands := by
  obtain ⟨u, -, rfl⟩ := List.mem_map.mp ht
  exact u.sort_inOrder

theorem isOrdered_iff (e : Expression) : e.isOrdered ↔
    (∀ t ∈ e.terms, Operand.inOrder t.operands) ∧
      e.terms.all (·.operands.all Operand.isOrdered) := by
  rw [isOrdered_eq, List.all_eq_true, List.all_eq_true]
  simp only [Bool.and_eq_true]
  exact ⟨fun h => ⟨fun t ht => (h t ht).1, fun t ht => (h t ht).2⟩,
    fun h t ht => ⟨h.1 t ht, h.2 t ht⟩⟩

/-- A pass that was not stopped leaves nothing heavier. -/
theorem calmed_passFrom {levels depth : Nat} {e : Expression}
    (finished : (passFrom levels depth e).tooDeep = none) :
    e.Calmed (passFrom levels depth e) := by
  induction levels generalizing depth e with
  | zero => cases finished
  | succ levels ih =>
    simp only [passFrom] at finished ⊢
    obtain ⟨each, terms, -⟩ := PassOutcome.overList_of_finished finished
    have nested : ∀ n : Expression, (passFrom levels (depth + 1) n).tooDeep = none →
        n.Calmed (passFrom levels (depth + 1) n) := fun _ => ih
    obtain ⟨lighter, ordered, unchanged⟩ :=
      PassOutcome.calms_overList (fun t _ => Term.calms_pass nested t) finished
    simp only [← Term.weightAll_eq_sum, ← weight_eq] at lighter ordered unchanged
    generalize PassOutcome.overList (Term.pass (passFrom levels (depth + 1)))
      e.simplifyLevel.result.terms = below at *
    have level := e.simplifyLevel_noHeavier
    constructor
    · intro bare
      apply level.bare
      apply List.all_eq_true.mpr
      intro t ht
      have empty := List.all_eq_true.mp bare _ (terms ▸ List.mem_map_of_mem ht)
      rwa [Term.operands_pass (each t ht), List.isEmpty_map] at empty
    · have sorted : e.weight ≤ Term.weightAll below.result →
          e.simplifyLevel.result = e.sortOperands.1 ∧
            (e.sortOperands.2 = [] → e.simplifyLevel.changed = false) :=
        fun same => simplifyLevel_of_weight (Nat.le_trans same lighter)
      refine ⟨?_, fun same => ?_, fun same inOrder => ?_⟩
      · exact Nat.le_trans lighter level.weight
      · rw [isOrdered_iff]
        refine ⟨?_, ordered (Nat.le_trans level.weight same)⟩
        intro t' ht'
        obtain ⟨t, ht, rfl⟩ := List.mem_map.mp (terms ▸ ht')
        rw [Term.operands_pass (each t ht), Operand.inOrder_pass]
        exact sortOperands_inOrder ((sorted same).1 ▸ ht)
      · have unsorted : e.sortOperands = (e, []) := mapTerms_of_unchanged
          (fun t ht => Term.sort_of_inOrder ((isOrdered_iff e).mp inOrder |>.1 t ht))
        obtain ⟨result, here⟩ := sorted same
        rw [unsorted] at result here
        rw [here rfl, unchanged (Nat.le_trans level.weight same)]
        · rfl
        · rw [result]
          exact ((isOrdered_iff e).mp inOrder).2

/-! ## Repeated passes -/

/-- How far an expression is from rest, at the most: two passes for each unit of weight, and
one more as long as its operands are not in order. -/
def unrest (e : Expression) : Nat := 2 * e.weight + if e.isOrdered then 0 else 1

theorem unrest_of_terms {e e' : Expression} (h : e'.terms = e.terms) : e'.unrest = e.unrest := by
  rw [unrest, unrest, weight_eq, weight_eq, isOrdered_eq, isOrdered_eq, h]

theorem unrest_log (e : Expression) (changes : List Change) : (e.log changes).unrest = e.unrest :=
  unrest_of_terms rfl

/-- A pass that changes something brings an expression closer to rest. -/
theorem unrest_pass {maxDepth : Nat} {e : Expression}
    (finished : (e.pass maxDepth).tooDeep = none) (changed : (e.pass maxDepth).changed = true) :
    (e.pass maxDepth).result.unrest < e.unrest := by
  unfold pass at finished changed ⊢
  obtain ⟨-, lighter, ordered, unchanged⟩ := calmed_passFrom finished
  unfold unrest
  by_cases same : e.weight ≤ (passFrom (maxDepth + 1) 0 e).result.weight
  · have unordered : ¬ e.isOrdered := by
      intro inOrder
      rw [unchanged same inOrder] at changed
      cases changed
    rw [if_pos (ordered same), if_neg unordered]
    omega
  · split <;> split <;> omega

/-- The next expression, when a pass came to its end and changed something. -/
structure LeadsTo (maxDepth : Nat) (e e' : Expression) : Prop where
  finished : (e.pass maxDepth).tooDeep = none
  changed : (e.pass maxDepth).changed = true
  result : e' = (e.pass maxDepth).result.log (e.pass maxDepth).changes

theorem LeadsTo.closer {maxDepth : Nat} {e e' : Expression} (h : e.LeadsTo maxDepth e') :
    e'.unrest < e.unrest := by
  rw [h.result, unrest_log]
  exact unrest_pass h.finished h.changed

/-- Changing passes do not go on for ever. -/
theorem leadsTo_wellFounded (maxDepth : Nat) :
    WellFounded (fun e' e : Expression => e.LeadsTo maxDepth e') :=
  Subrelation.wf LeadsTo.closer (measure unrest).wf

/-- Passes are not given up as long as one more is allowed than the expression is from rest. -/
theorem repeatPasses_converges {c : SimplifyConfig} {extra done : Nat} {e : Expression}
    (enough : e.unrest ≤ extra) : (repeatPasses c extra done e).outcome = .ok () ∨
      ∃ depth, (repeatPasses c extra done e).outcome = .error (.tooDeeplyNested depth c.maxDepth) := by
  induction extra generalizing done e with
  | zero =>
    simp only [repeatPasses]
    split
    · exact .inr ⟨_, rfl⟩
    · split
      · have closer := unrest_pass ‹_› ‹_›
        omega
      · exact .inl rfl
  | succ extra ih =>
    simp only [repeatPasses]
    split
    · exact .inr ⟨_, rfl⟩
    · split
      · have closer := LeadsTo.closer ⟨‹_›, ‹_›, rfl⟩
        exact ih (by omega)
      · exact .inl rfl

/-! ## A whole simplification -/

theorem startLog_terms (e : Expression) : e.startLog.1.terms = e.terms := by
  unfold startLog
  split <;> rfl

/-- A simplification with more passes than the expression is from rest. -/
theorem simplify_of_unrest {c : SimplifyConfig} {passes : Nat} {e : Expression}
    (hp : c.maxPasses = some passes) (enough : e.unrest < passes) :
    (e.simplify c).outcome = .ok () ∨
      ∃ depth, (e.simplify c).outcome = .error (.tooDeeplyNested depth c.maxDepth) := by
  have run : (e.passes c).outcome = .ok () ∨
      ∃ depth, (e.passes c).outcome = .error (.tooDeeplyNested depth c.maxDepth) := by
    apply repeatPasses_converges
    rw [unrest_of_terms e.startLog_terms, SimplifyConfig.passBudget, hp, Option.getD_some]
    omega
  rcases simplify_cases c e with ⟨-, -, refused⟩ | ⟨-, -, err, failed, outcome⟩ | ⟨-, -, -, ok⟩
  · exact .inr ⟨_, refused⟩
  · rw [outcome, ← failed]
    exact run
  · exact .inl ok

-- `(a ∧ b) ∨ (a ∧ c)` is at rest after 40 passes at the most.
example : ((empty.append .and [.input "a", .input "b"]).append .or
    [.nested (empty.append .and [.input "a", .input "c"])]).unrest = 40 := by decide

/-- Simplification comes to an end by itself: no sequence of changing passes is infinite, and
with enough passes, whatever the expression, it converges or meets what is nested too deeply. -/
theorem simplify_converges (maxDepth : Nat) :
    WellFounded (fun e' e : Expression => e.LeadsTo maxDepth e') ∧
    ∀ e : Expression, ∃ bound, ∀ (c : SimplifyConfig) (passes : Nat), c.maxDepth = maxDepth →
      c.maxPasses = some passes → bound ≤ passes →
      (e.simplify c).outcome = .ok () ∨
        ∃ depth, (e.simplify c).outcome = .error (.tooDeeplyNested depth maxDepth) := by
  refine ⟨leadsTo_wellFounded maxDepth, fun e => ⟨e.unrest + 1, ?_⟩⟩
  rintro c passes rfl hp enough
  exact simplify_of_unrest hp (by omega)

end Expression

end SwitchingAlgebra
