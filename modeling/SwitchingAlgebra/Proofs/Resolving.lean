-- Whether a value is known depends on the terms and on which names have a value, not on the
-- values. And a simplification leaves no result unknown that was known, whatever it negates.
import Mathlib.Data.List.Pairwise
import SwitchingAlgebra.Proofs.Passes

namespace SwitchingAlgebra

/-! ## Values are known alike -/

/-- What a result is like apart from its value: it is blank, or known, or unknown. -/
def Running.shape (r : Running) : List Bool := r.operands.map Option.isSome

@[simp] theorem Running.shape_ofValue (v : Option Bool) : (Running.ofValue v).shape = [v.isSome] := by
  cases v <;> rfl

theorem Running.isSome_value {r r' : Running} (h : r.shape = r'.shape) :
    r.value.isSome = r'.value.isSome := by
  cases r <;> cases r' <;> first | rfl | cases h

/-- An operator over known values looks at their number to tell whether it has a result. -/
theorem Operator.isSome_combine (op : Operator) {bs cs : List Bool} (h : bs.length = cs.length) :
    (op.combine bs).isSome = (op.combine cs).isSome := by
  match bs, cs with
  | [], [] => rfl
  | [_], [_] => cases op <;> rfl
  | [_, _], [_, _] => cases op <;> rfl
  | _ :: _ :: _ :: _, _ :: _ :: _ :: _ => cases op <;> rfl

theorem none_mem_iff {vs : List (Option Bool)} : none ∈ vs ↔ false ∈ vs.map Option.isSome := by
  simp [List.mem_map]

namespace Running

theorem shape_gather_some (op : Operator) {bs : List Bool} (h : bs ≠ []) :
    (gather op (bs.map some)).shape = [(op.combine bs).isSome] := by
  simp [gather, Operator.reduce_map_some, h]

theorem shape_gather (op : Operator) {vs ws : List (Option Bool)}
    (h : vs.map Option.isSome = ws.map Option.isSome) :
    (gather op vs).shape = (gather op ws).shape := by
  by_cases hv : none ∈ vs
  · have hw : none ∈ ws := none_mem_iff.mpr (h ▸ none_mem_iff.mp hv)
    rw [gather_eq_unknown hv, gather_eq_unknown hw]
  · have hw : none ∉ ws := fun hw => hv (none_mem_iff.mpr (h ▸ none_mem_iff.mp hw))
    obtain ⟨bs, rfl⟩ := exists_map_some hv
    obtain ⟨cs, rfl⟩ := exists_map_some hw
    have same : bs.length = cs.length := by simpa using congrArg List.length h
    by_cases hb : bs = []
    · subst hb
      obtain rfl := List.length_eq_zero_iff.mp same.symm
      rfl
    · have hc : cs ≠ [] := by
        rintro rfl
        exact hb (List.length_eq_zero_iff.mp same)
      rw [shape_gather_some op hb, shape_gather_some op hc, op.isSome_combine same]

theorem shape_step (op : Operator) {acc acc' : Running} {vs ws : List (Option Bool)}
    (hacc : acc.shape = acc'.shape) (h : vs.map Option.isSome = ws.map Option.isSome) :
    (acc.step op vs).shape = (acc'.step op ws).shape := by
  by_cases hop : op = .not
  · subst hop
    cases acc <;> cases acc' <;> first | rfl | cases hacc
    -- without a result before it a `NOT` has a result if its first operand has a value
    cases vs with
    | nil =>
      obtain rfl : ws = [] := by simpa using h.symm
      rfl
    | cons v vs =>
      cases ws with
      | nil => cases h
      | cons w ws =>
        have first : v.isSome = w.isSome := (List.cons.inj h).1
        simpa [step] using first
  · rw [step_eq_gather hop, step_eq_gather hop]
    apply shape_gather
    rw [List.map_append, List.map_append, h]
    exact congrArg (· ++ _) hacc

end Running

theorem Term.shape_runAll {v w : Valuation} {ts : List Term}
    (h : ∀ t ∈ ts, ∀ x ∈ t.operands, (x.meaning v).isSome = (x.meaning w).isSome)
    {acc acc' : Running} (hacc : acc.shape = acc'.shape) :
    (Term.runAll v ts acc).shape = (Term.runAll w ts acc').shape := by
  induction ts generalizing acc acc' with
  | nil => exact hacc
  | cons t ts ih =>
    rw [runAll_cons, runAll_cons]
    refine ih (fun u hu => h u (List.mem_cons_of_mem _ hu)) (Running.shape_step _ hacc ?_)
    rw [List.map_map, List.map_map]
    exact List.map_congr_left (h t (by simp))

theorem Operand.isSome_meaning {v w : Valuation} (x : Operand)
    (h : ∀ n ∈ x.mentions, (v n).isSome = (w n).isSome) :
    (x.meaning v).isSome = (x.meaning w).isSome := by
  induction x using Operand.induct with
  | input n => exact h n (by simp [Operand.mentions])
  | nested e ih =>
    rw [meaning_nested, meaning_nested, Expression.meaning_eq, Expression.meaning_eq]
    refine Running.isSome_value (Term.shape_runAll (fun t ht x hx => ?_) rfl)
    exact ih t ht x hx (fun n hn => h n ((e.mem_mentions n).mpr ⟨t, ht, x, hx, hn⟩))

/-- Two valuations that give values to the same names make the same expressions known. -/
theorem Expression.isSome_meaning {v w : Valuation} (e : Expression)
    (h : ∀ n ∈ e.mentions, (v n).isSome = (w n).isSome) :
    (e.meaning v).isSome = (e.meaning w).isSome :=
  Operand.isSome_meaning (.nested e) h

/-! ## Expressions that resolve -/

/-- Every name has a value. Which one does not matter here. -/
def allKnown : Valuation := fun _ => some false

/-- The expression has a value as soon as all its names have one. -/
def Expression.Resolves (e : Expression) : Prop := (e.meaning allKnown).isSome

theorem Expression.resolves_iff {e : Expression} {v : Valuation}
    (known : ∀ n ∈ e.mentions, (v n).isSome) : e.Resolves ↔ (e.meaning v).isSome := by
  have same : (e.meaning allKnown).isSome = (e.meaning v).isSome :=
    e.isSome_meaning (fun n hn => (known n hn).symm)
  rw [Resolves, same]

theorem Expression.resolves_of_terms {e e' : Expression} (terms : e'.terms = e.terms) :
    e'.Resolves ↔ e.Resolves := by
  unfold Resolves
  rw [meaning_eq, meaning_eq, run, run, terms]

/-! ## No less known -/

/-- The second result is known if the first one is, and blank if that is. -/
def Running.NoLess (r r' : Running) : Prop := r = .unknown ∨ r.shape = r'.shape

namespace Running

theorem NoLess.refl (r : Running) : r.NoLess r := .inr rfl

theorem NoLess.of_eq {r r' : Running} (h : r' = r) : r.NoLess r' := .inr (by rw [h])

theorem AtMost.noLess {r r' : Running} (h : r.AtMost r') : r.NoLess r' := by
  rcases h with rfl | rfl
  · exact .inl rfl
  · exact .refl r

theorem NoLess.trans {r r' r'' : Running} (h : r.NoLess r') (h' : r'.NoLess r'') :
    r.NoLess r'' := by
  rcases h with rfl | h
  · exact .inl rfl
  · rcases h' with rfl | h'
    · left
      cases r <;> first | rfl | cases h
    · exact .inr (h.trans h')

theorem NoLess.isSome_value {r r' : Running} (h : r.NoLess r') (known : r.value.isSome) :
    r'.value.isSome := by
  rcases h with rfl | h
  · cases known
  · rwa [← Running.isSome_value h]

/-- A term over values that are no less known gives a result that is no less known. -/
theorem step_noLess (op : Operator) {acc acc' : Running} {vs ws : List (Option Bool)}
    (hacc : acc.NoLess acc') (h : List.Forall₂ (fun v w => v.isSome → w.isSome) vs ws) :
    (acc.step op vs).NoLess (acc'.step op ws) := by
  rcases hacc with rfl | hacc
  · left
    cases op <;> rfl
  by_cases hv : none ∈ vs
  · by_cases hop : op = .not
    · subst hop
      cases acc <;> cases acc' <;> first | exact .refl _ | exact .inr rfl | cases hacc
      cases h with
      | nil => cases hv
      | @cons v w _ _ hvw _ =>
        cases v with
        | none => exact .inl rfl
        | some b =>
          obtain ⟨c, rfl⟩ := Option.isSome_iff_exists.mp (hvw rfl)
          exact .inr rfl
    · left
      rw [step_eq_gather hop]
      exact gather_eq_unknown (List.mem_append_right _ hv)
  · refine .inr (shape_step op hacc ?_)
    induction h with
    | nil => rfl
    | @cons v w _ _ hvw _ ih =>
      rw [List.mem_cons, not_or] at hv
      obtain ⟨b, rfl⟩ := Option.ne_none_iff_exists'.mp (Ne.symm hv.1)
      rw [List.map_cons, List.map_cons, ih hv.2, hvw rfl]
      rfl

end Running

theorem forall₂_known_refl (vs : List (Option Bool)) :
    List.Forall₂ (fun v w : Option Bool => v.isSome → w.isSome) vs vs :=
  List.forall₂_same.mpr (fun _ _ => id)

theorem Term.runAll_noLess {v : Valuation} (ts : List Term) {acc acc' : Running}
    (h : acc.NoLess acc') : (Term.runAll v ts acc).NoLess (Term.runAll v ts acc') := by
  induction ts generalizing acc acc' with
  | nil => exact h
  | cons t ts ih =>
    rw [runAll_cons, runAll_cons]
    exact ih (Running.step_noLess _ h (forall₂_known_refl _))

/-! ## Sorting -/

/-- What stands first among operands that had to be sorted is a name. -/
theorem Operand.exists_first_mergeSort {xs : List Operand} (h : ¬ Operand.inOrder xs) :
    ∃ n rest, xs.mergeSort Operand.mayPrecede = .input n :: rest := by
  have sorted := List.pairwise_mergeSort mayPrecede_trans mayPrecede_total xs
  have perm := List.mergeSort_perm xs mayPrecede
  -- were all of them nested, they would stand in order
  obtain ⟨n, hn⟩ : ∃ n, .input n ∈ xs := by
    by_contra nameless
    refine h (inOrder_of_pairwise (List.pairwise_of_forall_mem_list ?_))
    intro x hx y hy
    cases x with
    | input n => exact absurd ⟨n, hx⟩ nameless
    | nested e =>
      cases y with
      | input n => exact absurd ⟨n, hy⟩ nameless
      | nested f => rfl
  have found := perm.mem_iff.mpr hn
  cases hsorted : xs.mergeSort mayPrecede with
  | nil =>
    rw [hsorted] at found
    cases found
  | cons x rest =>
    cases x with
    | input m => exact ⟨m, rest, rfl⟩
    | nested e =>
      rw [hsorted, List.pairwise_cons] at sorted
      rw [hsorted] at found
      rcases List.mem_cons.mp found with same | later
      · cases same
      · cases sorted.1 _ later

/-- Sorting can give a `NOT` another operand to negate, but then it is a name. -/
theorem Term.sort_noLess (t : Term) (acc : Running) :
    (t.run allKnown acc).NoLess (t.sort.1.run allKnown acc) := by
  by_cases hop : t.operator = .not
  · unfold Term.sort
    split
    · exact .refl _
    · rename_i unsorted
      obtain ⟨n, rest, hsorted⟩ := Operand.exists_first_mergeSort unsorted
      simp only [Term.run, hsorted, hop]
      cases acc with
      | known b => exact .refl _
      | unknown => exact .refl _
      | blank =>
        cases hxs : t.operands with
        | nil => simp [hxs, Operand.inOrder] at unsorted
        | cons x xs =>
          cases hx : x.meaning allKnown with
          | none => exact .inl (by simp [hx, Running.step, Running.ofValue])
          | some b => exact .inr (by simp [hx, Running.step, allKnown])
  · exact .of_eq (t.sort_run (fun h => absurd h hop) allKnown acc)

theorem Term.runAll_map_noLess {f : Term → Term} (hf : ∀ (t : Term) (acc : Running),
    (t.run allKnown acc).NoLess ((f t).run allKnown acc)) (ts : List Term) (acc : Running) :
    (Term.runAll allKnown ts acc).NoLess (Term.runAll allKnown (ts.map f) acc) := by
  induction ts generalizing acc with
  | nil => exact .refl _
  | cons t ts ih =>
    rw [List.map_cons, runAll_cons, runAll_cons]
    exact (Term.runAll_noLess ts (hf t acc)).trans (ih _)

namespace Expression

theorem sortOperands_noLess (e : Expression) :
    (e.run allKnown).NoLess (e.sortOperands.1.run allKnown) :=
  Term.runAll_map_noLess Term.sort_noLess e.terms .blank

/-! ## Passes -/

/-- All laws on one level together. -/
theorem simplifyLevel_noLess (e : Expression) :
    (e.run allKnown).NoLess (e.simplifyLevel.result.run allKnown) := by
  rw [simplifyLevel_result]
  have spliced := Running.NoLess.of_eq (e.unnest_run allKnown)
  have sorted := e.unnest.sortOperands_noLess
  have again := Running.NoLess.of_eq (e.unnest.sortOperands.1.unnest_run allKnown)
  have dropped := Running.NoLess.of_eq (dropRepeated_run e.unnest.sortOperands.1.unnest allKnown)
  have merged := Running.NoLess.of_eq
    (associate_run e.unnest.sortOperands.1.unnest.dropRepeated.1 allKnown)
  have absorbed := absorb_run e.unnest.sortOperands.1.unnest.dropRepeated.1.associate.1 allKnown
  have distributed := Running.NoLess.of_eq (distribute_run
    e.unnest.sortOperands.1.unnest.dropRepeated.1.associate.1.absorb.1 allKnown)
  exact (((((spliced.trans sorted).trans again).trans dropped).trans merged).trans
    absorbed.noLess).trans distributed

end Expression

/-- The second operand is known if the first one is. -/
def Operand.NoLess (x x' : Operand) : Prop :=
  (x.meaning allKnown).isSome → (x'.meaning allKnown).isSome

theorem Term.runAll_noLess_of_terms {ts ts' : List Term}
    (h : List.Forall₂ (fun t t' : Term =>
      t'.operator = t.operator ∧ List.Forall₂ Operand.NoLess t.operands t'.operands) ts ts')
    {acc acc' : Running} (hacc : acc.NoLess acc') :
    (Term.runAll allKnown ts acc).NoLess (Term.runAll allKnown ts' acc') := by
  induction h generalizing acc acc' with
  | nil => exact hacc
  | @cons t t' _ _ ht _ ih =>
    rw [runAll_cons, runAll_cons, Term.run, Term.run, ht.1]
    refine ih (Running.step_noLess _ hacc ?_)
    rw [List.forall₂_map_left_iff, List.forall₂_map_right_iff]
    exact ht.2

namespace Expression

theorem passFrom_noLess (levels depth : Nat) (e : Expression) :
    (e.run allKnown).NoLess ((e.passFrom levels depth).result.run allKnown) := by
  induction levels generalizing depth e with
  | zero => exact .refl _
  | succ levels ih =>
    have operand : ∀ x : Operand, x.NoLess (x.pass (passFrom levels (depth + 1))).result := by
      intro x known
      cases x with
      | input n => exact known
      | nested n =>
        rw [Operand.meaning_nested, meaning_eq] at known
        have kept := (ih (depth + 1) n).isSome_value known
        rwa [← meaning_eq] at kept
    have below := forall₂_passFrom (R := Operand.NoLess) (fun _ => id) operand e
    exact e.simplifyLevel_noLess.trans (Term.runAll_noLess_of_terms below (.refl _))

theorem repeatPasses_noLess (c : SimplifyConfig) (extra done : Nat) (e : Expression) :
    (e.run allKnown).NoLess ((repeatPasses c extra done e).expression.run allKnown) := by
  refine repeatPasses_related (R := fun e e' => (e.run allKnown).NoLess (e'.run allKnown))
    Running.NoLess.trans (fun e => ?_) extra done e
  have passed : (e.run allKnown).NoLess ((e.pass c.maxDepth).result.run allKnown) := by
    unfold pass
    exact e.passFrom_noLess (c.maxDepth + 1) 0
  exact passed

/-- The passes of a simplification leave no result unknown that was known. -/
theorem passes_noLess (c : SimplifyConfig) (e : Expression) :
    (e.run allKnown).NoLess ((e.passes c).expression.run allKnown) := by
  have started : e.startLog.1.run allKnown = e.run allKnown := by
    unfold startLog
    split <;> rfl
  rw [← started]
  exact repeatPasses_noLess c _ 0 e.startLog.1

theorem Resolves.passes {e : Expression} (h : e.Resolves) (c : SimplifyConfig) :
    (e.passes c).expression.Resolves := by
  unfold Resolves at h ⊢
  rw [meaning_eq] at h ⊢
  exact (e.passes_noLess c).isSome_value h

end Expression

end SwitchingAlgebra
