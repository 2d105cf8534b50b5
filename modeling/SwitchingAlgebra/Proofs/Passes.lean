-- Passes over all levels: whatever a pass leaves, also one that is given up half way, stands
-- for what it was given, and a pass that comes to an end leaves nothing nested too deeply.
import SwitchingAlgebra.Simplification
import SwitchingAlgebra.Proofs.Absorption

namespace SwitchingAlgebra

/-! ## Operands and terms that stand for others -/

/-- The first operand may take the place of the second. -/
structure Operand.StandsFor (x' x : Operand) : Prop where
  fits : ∀ S limit, x.Fits S limit → x'.Fits S limit
  value : x.Everywhere Term.NegatesOne → ∀ v, ValueAtMost (x.meaning v) (x'.meaning v)

/-- The same operator over operands that stand for the others one by one. -/
structure Term.StandsFor (t' t : Term) : Prop where
  operator : t'.operator = t.operator
  operands : List.Forall₂ (fun x x' => Operand.StandsFor x' x) t.operands t'.operands

theorem Operand.StandsFor.refl (x : Operand) : x.StandsFor x := ⟨fun _ _ h => h, fun _ _ => .inr rfl⟩

theorem Operand.standsFor_nested {e e' : Expression} (h : e'.StandsFor e) :
    (Operand.nested e').StandsFor (.nested e) where
  fits S limit := by
    rw [Operand.fits_nested, Operand.fits_nested]
    exact h.fits S limit
  value hone v := by
    rw [Operand.meaning_nested, Operand.meaning_nested, e.meaning_eq, e'.meaning_eq]
    exact (h.value (Operand.everywhere_nested.mp hone) v).value

theorem Term.StandsFor.refl (t : Term) : t.StandsFor t :=
  ⟨rfl, List.forall₂_same.mpr (fun x _ => .refl x)⟩

theorem exists_of_forall₂ {α β : Type} {R : α → β → Prop} {xs : List α} {ys : List β}
    (h : List.Forall₂ R xs ys) {y : β} (hy : y ∈ ys) : ∃ x ∈ xs, R x y := by
  induction h with
  | nil => simp at hy
  | cons hr _ ih =>
    rcases List.mem_cons.mp hy with rfl | hy
    · exact ⟨_, by simp, hr⟩
    · obtain ⟨x, hx, hxy⟩ := ih hy
      exact ⟨x, List.mem_cons_of_mem _ hx, hxy⟩

theorem Term.StandsFor.fits {t t' : Term} (h : t'.StandsFor t) {S : String → Prop}
    {limit : Option Nat} (ht : t.Everywhere (Term.Fits S limit)) :
    t'.Everywhere (Term.Fits S limit) := by
  have operands : ∀ x' ∈ t'.operands, x'.Fits S limit := by
    intro x' hx'
    obtain ⟨x, hx, hstands⟩ := exists_of_forall₂ h.operands hx'
    exact hstands.fits S limit (ht.operand_fits x hx)
  refine ⟨⟨fun n hn => (operands _ hn).1 n rfl, fun hop k hk => ?_⟩, fun x hx => (operands x hx).2⟩
  rw [← h.operands.length_eq]
  exact ht.1.negates (h.operator ▸ hop) k hk

theorem Term.StandsFor.run_atMost {t t' : Term} (h : t'.StandsFor t)
    (hone : t.Everywhere Term.NegatesOne) (v : Valuation) {acc acc' : Running}
    (hacc : acc.AtMost acc') : (t.run v acc).AtMost (t'.run v acc') := by
  rw [Term.run, Term.run, h.operator]
  apply Running.step_atMost hacc
  have below := hone.2
  have operands := h.operands
  generalize t.operands = xs at below operands
  generalize t'.operands = xs' at operands
  induction operands with
  | nil => exact .nil
  | cons hx _ ih =>
    exact .cons (hx.value (below _ (by simp)) v) (ih (fun x hx => below x (List.mem_cons_of_mem _ hx)))

theorem Term.runAll_standsFor {ts ts' : List Term}
    (h : List.Forall₂ (fun t t' => Term.StandsFor t' t) ts ts')
    (hone : ∀ t ∈ ts, t.Everywhere Term.NegatesOne) (v : Valuation) {acc acc' : Running}
    (hacc : acc.AtMost acc') : (Term.runAll v ts acc).AtMost (Term.runAll v ts' acc') := by
  induction h generalizing acc acc' with
  | nil => exact hacc
  | cons ht _ ih =>
    rw [runAll_cons, runAll_cons]
    exact ih (fun t hm => hone t (List.mem_cons_of_mem _ hm))
      (ht.run_atMost (hone _ (by simp)) v hacc)

/-- Terms that stand for those of an expression make one that stands for it. -/
theorem Expression.standsFor_of_terms {e : Expression} {ts : List Term}
    (h : List.Forall₂ (fun t t' => Term.StandsFor t' t) e.terms ts) :
    Expression.StandsFor { e with terms := ts } e := by
  refine ⟨fun S limit he t' ht' => ?_, fun _ _ hb => hb, fun hone v => ?_, rfl, fun _ h => h⟩
  · obtain ⟨t, ht, hstands⟩ := exists_of_forall₂ h ht'
    exact hstands.fits (he t ht)
  · exact Term.runAll_standsFor h hone v (.refl _)

/-! ## Passing over lists -/

namespace PassOutcome

theorem overList_forall₂ {α : Type} {R : α → α → Prop} (hrefl : ∀ x, R x x)
    {f : α → PassOutcome α} {xs : List α} (h : ∀ x ∈ xs, R x (f x).result) :
    List.Forall₂ R xs (overList f xs).result := by
  induction xs with
  | nil => exact .nil
  | cons x xs ih =>
    simp only [overList]
    split
    · exact .cons (h x (by simp)) (List.forall₂_same.mpr (fun y _ => hrefl y))
    · exact .cons (h x (by simp)) (ih (fun y hy => h y (List.mem_cons_of_mem _ hy)))

/-- Passes over a list that were not stopped, one by one. -/
theorem overList_of_finished {α : Type} {f : α → PassOutcome α} {xs : List α}
    (h : (overList f xs).tooDeep = none) :
    (∀ x ∈ xs, (f x).tooDeep = none) ∧
      (overList f xs).result = xs.map (fun x => (f x).result) ∧
      (overList f xs).changed = xs.any (fun x => (f x).changed) := by
  induction xs with
  | nil => exact ⟨by simp, rfl, rfl⟩
  | cons x xs ih =>
    simp only [overList] at h ⊢
    split at h
    · cases h
    · rename_i hx
      obtain ⟨finished, result, changed⟩ := ih h
      refine ⟨?_, ?_, ?_⟩
      · simpa [hx] using finished
      · simp [result]
      · simp [changed]

/-- A pass over a list that was not stopped was stopped at no element. -/
theorem mem_overList {α : Type} {f : α → PassOutcome α} {xs : List α}
    (h : (overList f xs).tooDeep = none) {y : α} (hy : y ∈ (overList f xs).result) :
    ∃ x ∈ xs, (f x).tooDeep = none ∧ (f x).result = y := by
  obtain ⟨finished, result, -⟩ := overList_of_finished h
  rw [result] at hy
  obtain ⟨x, hx, rfl⟩ := List.mem_map.mp hy
  exact ⟨x, hx, finished x hx, rfl⟩

end PassOutcome

/-! ## A pass -/

theorem Term.pass_standsFor {f : Expression → PassOutcome Expression}
    (h : ∀ e, (f e).result.StandsFor e) (t : Term) : (t.pass f).result.StandsFor t := by
  refine ⟨rfl, PassOutcome.overList_forall₂ (fun x => .refl x) (fun x _ => ?_)⟩
  cases x with
  | input n => exact .refl _
  | nested e => exact Operand.standsFor_nested (h e)

/-- What a pass leaves stands for what it was given, whether it was stopped or not. -/
theorem Expression.passFrom_standsFor (levels depth : Nat) (e : Expression) :
    (passFrom levels depth e).result.StandsFor e := by
  induction levels generalizing depth e with
  | zero => exact .refl e
  | succ levels ih =>
    have laws := simplifyLevel_standsFor e
    simp only [passFrom]
    -- below it does not matter what the laws did on this level
    generalize e.simplifyLevel = here at laws ⊢
    refine StandsFor.trans ?_ laws
    exact standsFor_of_terms (PassOutcome.overList_forall₂ (fun t => .refl t)
      (fun t _ => Term.pass_standsFor (ih (depth + 1)) t))

/-- Below the first level a pass keeps the terms and goes on in their operands one by one. -/
theorem Expression.forall₂_passFrom {R : Operand → Operand → Prop} (hrefl : ∀ x, R x x)
    {levels depth : Nat} (h : ∀ x, R x (x.pass (passFrom levels (depth + 1))).result)
    (e : Expression) :
    List.Forall₂ (fun t t' : Term => t'.operator = t.operator ∧ List.Forall₂ R t.operands t'.operands)
      e.simplifyLevel.result.terms (passFrom (levels + 1) depth e).result.terms := by
  simp only [passFrom]
  generalize e.simplifyLevel = here
  refine PassOutcome.overList_forall₂ (fun t => ⟨rfl, List.forall₂_same.mpr fun x _ => hrefl x⟩) ?_
  exact fun t _ => ⟨rfl, PassOutcome.overList_forall₂ hrefl (fun x _ => h x)⟩

/-- A pass that was not stopped leaves no more levels than it had. -/
theorem Expression.depth_passFrom {levels depth : Nat} {e : Expression}
    (h : (passFrom levels depth e).tooDeep = none) :
    (passFrom levels depth e).result.depth < levels := by
  induction levels generalizing depth e with
  | zero => cases h
  | succ levels ih =>
    refine Nat.lt_succ_of_le ((depth_le _ _).mpr (fun t ht x hx => ?_))
    simp only [passFrom] at h ht
    obtain ⟨u, _, hu, rfl⟩ := PassOutcome.mem_overList h ht
    simp only [Term.pass, PassOutcome.map] at hu hx
    obtain ⟨y, _, hy, rfl⟩ := PassOutcome.mem_overList hu hx
    cases y with
    | input n => exact Nat.zero_le _
    | nested n => exact ih hy

/-! ## All passes -/

namespace Expression

theorem log_standsFor (e : Expression) (changes : List Change) : (e.log changes).StandsFor e :=
  ⟨fun _ _ h => h, fun _ _ h => h, fun _ _ => .refl _, rfl, fun _ h => h⟩

theorem pass_standsFor (maxDepth : Nat) (e : Expression) : (e.pass maxDepth).result.StandsFor e := by
  unfold pass
  exact passFrom_standsFor (maxDepth + 1) 0 e

theorem depth_pass {maxDepth : Nat} {e : Expression} (h : (e.pass maxDepth).tooDeep = none) :
    (e.pass maxDepth).result.depth ≤ maxDepth := by
  unfold pass at h ⊢
  exact Nat.le_of_lt_succ (depth_passFrom h)

theorem depth_log (e : Expression) (changes : List Change) : (e.log changes).depth = e.depth := by
  cases e
  rfl

/-- Where each pass leads from one expression to a related one, repeated passes do so too, also
when they are given up. -/
theorem repeatPasses_related {R : Expression → Expression → Prop} {c : SimplifyConfig}
    (trans : ∀ {e e' e'' : Expression}, R e e' → R e' e'' → R e e'')
    (once : ∀ e : Expression, R e ((e.pass c.maxDepth).result.log (e.pass c.maxDepth).changes))
    (extra done : Nat) (e : Expression) : R e (repeatPasses c extra done e).expression := by
  induction extra generalizing done e with
  | zero =>
    simp only [repeatPasses]
    split
    · exact once e
    · split <;> exact once e
  | succ extra ih =>
    simp only [repeatPasses]
    split
    · exact once e
    · split
      · exact trans (once e) (ih _ _)
      · exact once e

/-- What repeated passes leave stands for what they were given. -/
theorem repeatPasses_standsFor (c : SimplifyConfig) (extra done : Nat) (e : Expression) :
    (repeatPasses c extra done e).expression.StandsFor e := by
  refine repeatPasses_related (R := fun e e' => e'.StandsFor e) (fun h h' => h'.trans h) ?_ extra
    done e
  exact fun e => (log_standsFor (e.pass c.maxDepth).result _).trans (pass_standsFor c.maxDepth e)

/-- How repeated passes end: with a last pass that was stopped, or that still changed
something and was the last that was allowed, or that changed nothing. -/
inductive Ends (c : SimplifyConfig) (last : Expression) (s : Simplification) : Prop
  | stopped (depth : Nat) : (last.pass c.maxDepth).tooDeep = some depth →
      s.outcome = .error (.tooDeeplyNested depth c.maxDepth) → Ends c last s
  | givenUp (passes : Nat) : (last.pass c.maxDepth).tooDeep = none →
      (last.pass c.maxDepth).changed = true →
      s.outcome = .error (.didNotConverge passes s.expression.journal.changes) → Ends c last s
  | settled : (last.pass c.maxDepth).tooDeep = none → (last.pass c.maxDepth).changed = false →
      s.outcome = .ok () → Ends c last s

theorem repeatPasses_ends (c : SimplifyConfig) (extra done : Nat) (e : Expression) :
    ∃ last : Expression, (repeatPasses c extra done e).expression =
        (last.pass c.maxDepth).result.log (last.pass c.maxDepth).changes ∧
      Ends c last (repeatPasses c extra done e) := by
  induction extra generalizing done e with
  | zero =>
    refine ⟨e, ?_⟩
    simp only [repeatPasses]
    split
    · exact ⟨rfl, .stopped _ ‹_› rfl⟩
    · split
      · exact ⟨rfl, .givenUp _ ‹_› ‹_› rfl⟩
      · exact ⟨rfl, .settled ‹_› (eq_false_of_ne_true ‹_›) rfl⟩
  | succ extra ih =>
    simp only [repeatPasses]
    split
    · exact ⟨e, rfl, .stopped _ ‹_› rfl⟩
    · split
      · obtain ⟨last, expression, ends⟩ := ih (done + 1)
          ((e.pass c.maxDepth).result.log (e.pass c.maxDepth).changes)
        refine ⟨last, expression, ?_⟩
        cases ends with
        | stopped depth hd ho => exact .stopped depth hd ho
        | givenUp passes hd hc ho => exact .givenUp passes hd hc ho
        | settled hd hc ho => exact .settled hd hc ho
      · exact ⟨e, rfl, .settled ‹_› (eq_false_of_ne_true ‹_›) rfl⟩

/-- Passes that came to an end leave nothing nested too deeply. -/
theorem depth_repeatPasses {c : SimplifyConfig} {extra done : Nat} {e : Expression}
    (h : (repeatPasses c extra done e).outcome = .ok ()) :
    (repeatPasses c extra done e).expression.depth ≤ c.maxDepth := by
  obtain ⟨last, expression, ends⟩ := repeatPasses_ends c extra done e
  cases ends with
  | stopped depth hd ho => rw [h] at ho; cases ho
  | givenUp passes hd hc ho => rw [h] at ho; cases ho
  | settled hd hc ho =>
    rw [expression, depth_log]
    exact depth_pass hd

/-- Nor do passes that were given up after the last that was allowed. -/
theorem depth_of_givenUp {c : SimplifyConfig} {extra done passes : Nat} {e : Expression}
    {changes : List Change}
    (h : (repeatPasses c extra done e).outcome = .error (.didNotConverge passes changes)) :
    (repeatPasses c extra done e).expression.depth ≤ c.maxDepth := by
  obtain ⟨last, expression, ends⟩ := repeatPasses_ends c extra done e
  cases ends with
  | stopped depth hd ho => rw [h] at ho; cases ho
  | givenUp passes hd hc ho =>
    rw [expression, depth_log]
    exact depth_pass hd
  | settled hd hc ho => rw [h] at ho; cases ho

/-! ## A whole simplification -/

/-- The passes of a simplification, once the text before them is remembered. -/
def passes (c : SimplifyConfig) (e : Expression) : Simplification :=
  repeatPasses c (c.passBudget e.termCount - 1) 0 e.startLog.1

theorem simplify_of_deep {c : SimplifyConfig} {e : Expression} (hd : c.maxDepth < e.depth) :
    e.simplify c = ⟨e, [], .error (.tooDeeplyNested e.depth c.maxDepth)⟩ := if_pos hd

/-- A simplification refuses an expression that is nested too deeply, or is given up with
its passes, or puts the rest in order when they came to an end. -/
theorem simplify_cases (c : SimplifyConfig) (e : Expression) :
    (c.maxDepth < e.depth ∧ (e.simplify c).expression = e ∧
      (e.simplify c).outcome = .error (.tooDeeplyNested e.depth c.maxDepth)) ∨
    (e.depth ≤ c.maxDepth ∧ (e.simplify c).expression = (e.passes c).expression ∧
      ∃ err, (e.passes c).outcome = .error err ∧ (e.simplify c).outcome = .error err) ∨
    (e.depth ≤ c.maxDepth ∧ (e.simplify c).expression = (finish c e (e.passes c).expression).1 ∧
      (e.passes c).outcome = .ok () ∧ (e.simplify c).outcome = .ok ()) := by
  by_cases hd : e.depth > c.maxDepth
  · rw [simplify_of_deep hd]
    exact .inl ⟨hd, rfl, rfl⟩
  · rw [simplify, if_neg hd]
    right
    cases ho : (e.passes c).outcome with
    | error err =>
      rw [passes] at ho
      simp only [ho]
      exact .inl ⟨by omega, rfl, err, rfl, rfl⟩
    | ok u =>
      rw [passes] at ho
      simp only [ho]
      exact .inr ⟨by omega, rfl, trivial, trivial⟩

/-- What holds of the expression, after its passes and once that is put in order, holds of
whatever a simplification leaves. -/
theorem simplify_holds {P : Expression → Prop} {c : SimplifyConfig} {e : Expression} (before : P e)
    (passed : P (e.passes c).expression) (finished : P (finish c e (e.passes c).expression).1) :
    P (e.simplify c).expression := by
  rcases simplify_cases c e with ⟨-, result, -⟩ | ⟨-, result, -⟩ | ⟨-, result, -⟩
  · rwa [result]
  · rwa [result]
  · rwa [result]

theorem passes_of_ok {c : SimplifyConfig} {e : Expression} (ok : (e.simplify c).outcome = .ok ()) :
    e.depth ≤ c.maxDepth ∧ (e.passes c).outcome = .ok () ∧
      (e.simplify c).expression = (finish c e (e.passes c).expression).1 := by
  rcases simplify_cases c e with ⟨-, -, failed⟩ | ⟨-, -, err, -, failed⟩ | ⟨hd, result, run, -⟩
  · cases ok.symm.trans failed
  · cases ok.symm.trans failed
  · exact ⟨hd, run, result⟩

end Expression

end SwitchingAlgebra
