-- What passes make operands of. The laws take operands over, open nested expressions and put
-- operands into groups, so a property that follows them there holds of all that is left.
import SwitchingAlgebra.Proofs.Soundness

namespace SwitchingAlgebra

/-- Every operand of the terms has the property. -/
def Expression.AllOperands (P : Operand → Prop) (e : Expression) : Prop :=
  ∀ t ∈ e.terms, ∀ x ∈ t.operands, P x

/-- A nested expression hands the property down to its operands and keeps it while they are
simplified, and operands that have it make a group that has it. -/
structure Operand.Lasting (P : Operand → Prop) : Prop where
  opened : ∀ n : Expression, P (.nested n) → n.AllOperands P
  grouped : ∀ (e : Expression) (op : Operator) (xs : List Operand), (∀ x ∈ xs, P x) →
    P (.nested (e.group op xs))
  replaced : ∀ n n' : Expression, n'.StandsFor n → P (.nested n) → n'.AllOperands P →
    P (.nested n')

namespace Expression

variable {P : Operand → Prop} {e : Expression}

theorem AllOperands.of_terms {e' : Expression} (terms : e'.terms = e.terms)
    (h : e.AllOperands P) : e'.AllOperands P := fun t ht => h t (terms ▸ ht)

/-! ## Law by law -/

theorem AllOperands.unnest (hP : Operand.Lasting P) (h : e.AllOperands P) :
    e.unnest.AllOperands P := by
  unfold Expression.unnest
  cases hu : e.unnest? with
  | none => exact h
  | some e' =>
    obtain ⟨op, n, xs, rest, first, others, he, -, -, rfl⟩ := unnest?_eq_some hu
    have head := h ⟨op, .nested n :: xs⟩ (by simp [he])
    intro t ht
    rcases List.mem_append.mp ht with ht | ht
    · exact hP.opened n (head _ (by simp)) t ht
    · rcases List.mem_cons.mp ht with rfl | ht
      · exact fun x hx => head x (List.mem_cons_of_mem _ hx)
      · exact h t (by simp [he, ht])

theorem AllOperands.mapTerms {f : Term → Term × List Step}
    (hf : ∀ t : Term, (f t).1.operands ⊆ t.operands) (h : e.AllOperands P) :
    (e.mapTerms f).1.AllOperands P := by
  intro t ht x hx
  obtain ⟨u, hu, rfl⟩ := List.mem_map.mp ht
  exact h u hu x (hf u hx)

theorem AllOperands.sortOperands (h : e.AllOperands P) : e.sortOperands.1.AllOperands P := by
  refine h.mapTerms (fun t => ?_)
  unfold Term.sort
  split
  · exact List.Subset.refl _
  · exact (List.mergeSort_perm _ _).subset

theorem AllOperands.dropRepeated (h : e.AllOperands P) : e.dropRepeated.1.AllOperands P := by
  refine h.mapTerms (fun t => ?_)
  unfold Term.dropRepeated
  split
  · exact fun x hx => Operand.mem_distinct hx
  · exact List.Subset.refl _

theorem AllOperands.mergeTerms (op : Operator) (h : e.AllOperands P) :
    (e.mergeTerms op).1.AllOperands P := by
  unfold Expression.mergeTerms
  split
  · rename_i us hus
    obtain ⟨before, xs, ys, rest, hts, rfl⟩ := Term.mergeFirst?_eq_some hus
    intro t ht
    rcases List.mem_append.mp ht with ht | ht
    · exact h t (by simp [hts, ht])
    · rcases List.mem_cons.mp ht with rfl | ht
      · intro x hx
        rcases List.mem_append.mp hx with hx | hx
        · exact h ⟨op, xs⟩ (by simp [hts]) x hx
        · exact h ⟨op, ys⟩ (by simp [hts]) x hx
      · exact h t (by simp [hts, ht])
  · exact h

theorem AllOperands.associate (h : e.AllOperands P) : e.associate.1.AllOperands P :=
  ((h.mergeTerms .and).mergeTerms .or).mergeTerms .xor

theorem AllOperands.absorb (hP : Operand.Lasting P) (h : e.AllOperands P) :
    e.absorb.1.AllOperands P := by
  unfold Expression.absorb
  cases ha : e.absorb? with
  | none => exact h
  | some p =>
    obtain ⟨e', step⟩ := p
    rcases absorb?_eq_some ha with shared | ⟨-, into | nested⟩
    · obtain ⟨before, t, u, rest, he, -, -, rfl⟩ := absorbShared?_eq_some shared
      intro s hs
      refine h s ?_
      rw [he]
      exact List.mem_append_right _ (List.mem_cons_of_mem _ hs)
    · obtain ⟨op, op', xs, n, inner, rest, he, hn, -, -, rfl⟩ := absorbIntoNested?_eq_some into
      intro s hs
      rcases List.mem_cons.mp hs with rfl | hs
      · have opened := hP.opened n (h ⟨op', [.nested n]⟩ (by simp [he]) _ (by simp))
        exact opened ⟨op, inner⟩ (by simp [hn])
      · exact h s (by simp [he, hs])
    · obtain ⟨op, op', xs, before, n, inner, behind, rest, he, -, -, rfl⟩ :=
        absorbNested?_eq_some nested
      intro s hs
      rcases List.mem_cons.mp hs with rfl | hs
      · exact h _ (by simp [he])
      · split at hs
        · exact h s (by simp [he, hs])
        · rcases List.mem_cons.mp hs with rfl | hs
          · intro x hx
            refine h ⟨op', before ++ .nested n :: behind⟩ (by simp [he]) x ?_
            rcases List.mem_append.mp hx with hx | hx
            · exact List.mem_append_left _ hx
            · exact List.mem_append_right _ (List.mem_cons_of_mem _ hx)
          · exact h s (by simp [he, hs])

theorem factor_lasts (hP : Operand.Lasting P) (e : Expression) (op : Operator)
    {xs : List Operand} (h : ∀ x ∈ xs, P x) : P (e.factor op xs) := by
  unfold factor
  split
  · exact h _ (by simp)
  · exact hP.grouped e op _ h

theorem AllOperands.distribute (hP : Operand.Lasting P) (h : e.AllOperands P) :
    e.distribute.1.AllOperands P := by
  unfold Expression.distribute
  cases hd : e.distribute? with
  | none => exact h
  | some e' =>
    have distributed : e'.AllOperands P := by
      obtain ⟨op, op', xs, n, inner, rest, common, left, right, he, -, hn, rfl, rfl, rfl, -, -, -,
        rfl⟩ := distribute?_eq_some hd
      have first := h ⟨op, xs⟩ (by simp [he])
      have second := hP.opened n (h ⟨op', [.nested n]⟩ (by simp [he]) _ (by simp))
        ⟨op, inner⟩ (by simp [hn])
      intro t ht
      rcases List.mem_cons.mp ht with rfl | ht
      · intro x hx
        rcases List.mem_append.mp hx with hx | hx
        · exact first x (List.mem_filter.mp (Operand.mem_distinct hx)).1
        · rw [List.mem_singleton.mp hx]
          refine hP.grouped e op' _ (fun y hy => ?_)
          rcases List.mem_cons.mp hy with rfl | hy
          · exact factor_lasts hP e op (fun z hz => first z (List.mem_filter.mp hz).1)
          · rw [List.mem_singleton.mp hy]
            exact factor_lasts hP e op (fun z hz => second z (List.mem_filter.mp hz).1)
      · exact h t (by simp [he, ht])
    exact fun t ht => distributed.unnest hP t (List.mem_filter.mp ht).1

theorem AllOperands.simplifyLevel (hP : Operand.Lasting P) (h : e.AllOperands P) :
    e.simplifyLevel.result.AllOperands P := by
  rw [simplifyLevel_result]
  exact (((((((h.unnest hP).sortOperands).unnest hP).dropRepeated).associate).absorb hP).distribute hP)

/-! ## Pass by pass -/

theorem AllOperands.passFrom (hP : Operand.Lasting P) (levels depth : Nat) (h : e.AllOperands P) :
    (e.passFrom levels depth).result.AllOperands P := by
  induction levels generalizing depth e with
  | zero => exact h
  | succ levels ih =>
    have here := h.simplifyLevel hP
    have operand : ∀ x, P x →
        P (x.pass (Expression.passFrom levels (depth + 1))).result := by
      intro x hx
      cases x with
      | input n => exact hx
      | nested n =>
        exact hP.replaced n _ (passFrom_standsFor levels (depth + 1) n) hx
          (ih (depth + 1) (hP.opened n hx))
    intro t' ht' x' hx'
    have terms := forall₂_passFrom (R := fun x x' => P x → P x') (fun _ => id) operand e
    obtain ⟨t, ht, -, operands⟩ := exists_of_forall₂ terms ht'
    obtain ⟨x, hx, keep⟩ := exists_of_forall₂ operands hx'
    exact keep (here t ht x hx)

theorem AllOperands.repeatPasses (hP : Operand.Lasting P) (c : SimplifyConfig) (extra done : Nat)
    (h : e.AllOperands P) : (Expression.repeatPasses c extra done e).expression.AllOperands P := by
  refine repeatPasses_related (R := fun e e' => e.AllOperands P → e'.AllOperands P)
    (fun h h' operands => h' (h operands)) (fun e h => ?_) extra done e h
  have passed : (e.pass c.maxDepth).result.AllOperands P := by
    unfold Expression.pass
    exact h.passFrom hP (c.maxDepth + 1) 0
  exact passed.of_terms rfl

theorem AllOperands.passes (hP : Operand.Lasting P) (c : SimplifyConfig) (h : e.AllOperands P) :
    (e.passes c).expression.AllOperands P := by
  have started : e.startLog.1.AllOperands P := by
    unfold Expression.startLog
    split
    · exact h
    · exact h.of_terms rfl
  exact started.repeatPasses hP c _ 0

/-- The operands that a simplification leaves have what all operands before it had. -/
theorem AllOperands.simplify (hP : Operand.Lasting P) (c : SimplifyConfig) (h : e.AllOperands P) :
    (e.simplify c).expression.AllOperands P := by
  have passed := h.passes hP c
  exact simplify_holds h passed (passed.of_terms (finish_terms c e _))

end Expression

/-! ## Nested outputs -/

theorem Operand.mem_outputsAll (xs : List Operand) (o : Output) :
    o ∈ Operand.outputsAll xs ↔ ∃ x ∈ xs, o ∈ x.outputsOf := by
  induction xs with
  | nil => simp [Operand.outputsAll]
  | cons x xs ih => simp [Operand.outputsAll, ih, or_comm]

theorem Expression.mem_nestedOutputs (e : Expression) (o : Output) :
    o ∈ e.nestedOutputs ↔ ∃ t ∈ e.terms, ∃ x ∈ t.operands, o ∈ x.outputsOf := by
  obtain ⟨_, ts, _, _⟩ := e
  simp only [Expression.nestedOutputs]
  induction ts with
  | nil => simp [Term.outputsAll]
  | cons t ts ih =>
    obtain ⟨op, xs⟩ := t
    simp [Term.outputsAll, Operand.mem_outputsAll, ih, or_comm]

theorem Operand.mem_outputsOf_nested (n : Expression) (o : Output) :
    o ∈ (Operand.nested n).outputsOf ↔ o ∈ n.outputs ∨ o ∈ n.nestedOutputs := by
  rw [outputsOf, List.mem_append]

/-- Groups have no outputs, and what stands for an expression has the same. -/
theorem Operand.outputsOf_lasting (os : List Output) : Lasting (·.outputsOf ⊆ os) where
  opened n h t ht x hx o ho := h ((mem_outputsOf_nested n o).mpr
    (.inr ((n.mem_nestedOutputs o).mpr ⟨t, ht, x, hx, ho⟩)))
  grouped e op xs h o ho := by
    rcases (mem_outputsOf_nested _ o).mp ho with ho | ho
    · cases ho
    · obtain ⟨t, ht, x, hx, ho⟩ := (Expression.mem_nestedOutputs _ o).mp ho
      rw [Expression.terms_group, List.mem_singleton] at ht
      subst ht
      exact h x hx ho
  replaced n n' stands h operands o ho := by
    rcases (mem_outputsOf_nested n' o).mp ho with ho | ho
    · exact h ((mem_outputsOf_nested n o).mpr (.inl (stands.outputs ▸ ho)))
    · obtain ⟨t, ht, x, hx, ho⟩ := (n'.mem_nestedOutputs o).mp ho
      exact operands t ht x hx ho

/-- A simplification sets no outputs of nested expressions. -/
theorem Expression.nestedOutputs_simplify (c : SimplifyConfig) (e : Expression) :
    (e.simplify c).expression.nestedOutputs ⊆ e.nestedOutputs := by
  have before : e.AllOperands (·.outputsOf ⊆ e.nestedOutputs) :=
    fun t ht x hx o ho => (e.mem_nestedOutputs o).mpr ⟨t, ht, x, hx, ho⟩
  intro o ho
  obtain ⟨t, ht, x, hx, ho⟩ := (mem_nestedOutputs _ o).mp ho
  exact before.simplify (Operand.outputsOf_lasting _) c t ht x hx ho

end SwitchingAlgebra
