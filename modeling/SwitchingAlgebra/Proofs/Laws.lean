-- The laws that act on one term or on neighbours with one operator: splicing, sorting,
-- dropping repeated operands and merging. Each leaves what stands for what it found.
import SwitchingAlgebra.Proofs.Sameness
import SwitchingAlgebra.Proofs.Standing

namespace SwitchingAlgebra

/-! ## Splicing -/

/-- A result that stands in front of a term counts as its first operand. -/
theorem Running.step_leading {op : Operator} {acc : Running} (vs : List (Option Bool))
    (h : acc ≠ .blank) : Running.blank.step op (acc.value :: vs) = acc.step op vs := by
  by_cases hop : op = .not
  · rw [hop]
    cases acc with
    | blank => exact absurd rfl h
    | known b => rfl
    | unknown => rfl
  · rw [step_eq_gather hop, step_eq_gather hop, operands_of_ne_blank h]
    rfl

/-- What a nested expression gives in front of the other operands, its terms give as well. -/
theorem Term.run_spliced {n : Expression} {first : Term} {others : List Term}
    (hn : n.terms = first :: others) (hfirst : first.operands ≠ []) (op : Operator)
    (xs : List Operand) (v : Valuation) :
    Term.run v ⟨op, xs⟩ (Term.runAll v n.terms .blank) = Term.run v ⟨op, .nested n :: xs⟩ .blank := by
  have result : Term.runAll v n.terms .blank ≠ .blank := by
    rw [hn]
    exact Term.runAll_ne_blank_of_operands others hfirst _
  rw [Term.run, Term.run, List.map_cons, Operand.meaning_nested, n.meaning_eq, Expression.run,
    Running.step_leading _ result]

namespace Expression

/-- What a splice does. -/
theorem unnest?_eq_some {e e' : Expression} (h : e.unnest? = some e') :
    ∃ op n xs rest first others, e.terms = ⟨op, .nested n :: xs⟩ :: rest ∧
      n.terms = first :: others ∧ first.operands ≠ [] ∧
      e' = { e with inputs := e.inputs.merge n.inputs, terms := n.terms ++ ⟨op, xs⟩ :: rest } := by
  unfold unnest? at h
  split at h
  · rename_i op n xs rest he
    split at h
    · rename_i first others hn
      split at h
      · cases h
      · rename_i hfirst
        exact ⟨op, n, xs, rest, first, others, he, hn, by simpa using hfirst,
          (Option.some.inj h).symm⟩
    · cases h
  · cases h

theorem unnest?_run {e e' : Expression} (h : e.unnest? = some e') (v : Valuation) :
    e'.run v = e.run v := by
  obtain ⟨op, n, xs, rest, first, others, he, hn, hfirst, rfl⟩ := unnest?_eq_some h
  simp only [run, he, Term.runAll_append, Term.runAll_cons, Term.run_spliced hn hfirst]

theorem unnest?_standsFor {e e' : Expression} (h : e.unnest? = some e') : e'.StandsFor e := by
  have value := unnest?_run h
  obtain ⟨op, n, xs, rest, first, others, he, hn, hfirst, rfl⟩ := unnest?_eq_some h
  have head : (⟨op, .nested n :: xs⟩ : Term) ∈ e.terms := by simp [he]
  refine ⟨fun S limit hfit t ht => ?_, fun m b hb => Bindings.get?_merge_of_some hb _,
    fun _ v => .inr (value v).symm, rfl, fun _ h => h⟩
  rcases List.mem_append.mp ht with ht | ht
  · exact Operand.fits_nested.mp ((hfit _ head).operand_fits (.nested n) (by simp)) t ht
  · rcases List.mem_cons.mp ht with rfl | ht
    · exact (hfit _ head).fewer (List.subset_cons_self _ _) (by simp)
    · exact hfit t (by simp [he, ht])

theorem unnest_run (e : Expression) (v : Valuation) : e.unnest.run v = e.run v := by
  unfold unnest
  cases h : e.unnest? with
  | none => rfl
  | some e' => exact unnest?_run h v

theorem unnest_standsFor (e : Expression) : e.unnest.StandsFor e := by
  unfold unnest
  cases h : e.unnest? with
  | none => exact .refl e
  | some e' => exact unnest?_standsFor h

end Expression

/-! ## Changing every term by itself -/

theorem Term.runAll_map {v : Valuation} {f : Term → Term} {ts : List Term} (acc : Running)
    (h : ∀ t ∈ ts, ∀ acc, (f t).run v acc = t.run v acc) :
    Term.runAll v (ts.map f) acc = Term.runAll v ts acc := by
  induction ts generalizing acc with
  | nil => rfl
  | cons t ts ih =>
    rw [List.map_cons, runAll_cons, runAll_cons, h t (by simp)]
    exact ih _ (fun u hu => h u (List.mem_cons_of_mem _ hu))

/-- A law for single terms is a law for expressions. -/
theorem Expression.mapTerms_standsFor {f : Term → Term × List Step}
    (fits : ∀ S limit t, Term.Everywhere (Term.Fits S limit) t →
      Term.Everywhere (Term.Fits S limit) (f t).1)
    (runs : ∀ t : Term, t.NegatesOne → ∀ v acc, (f t).1.run v acc = t.run v acc)
    (e : Expression) : (e.mapTerms f).1.StandsFor e := by
  refine ⟨fun S limit h t ht => ?_, fun _ _ h => h, fun h v => .inr ?_, rfl, fun _ h => h⟩
  · obtain ⟨u, hu, rfl⟩ := List.mem_map.mp ht
    exact fits S limit u (h u hu)
  · exact (Term.runAll_map _ (fun t ht => runs t (h t ht).1 v)).symm

/-! ## Sorting -/

theorem Operand.mayPrecede_trans (x y z : Operand) (h : x.mayPrecede y) (h' : y.mayPrecede z) :
    x.mayPrecede z := by
  cases z with
  | nested g => cases x <;> rfl
  | input c =>
    cases y with
    | nested f => cases h'
    | input b =>
      cases x with
      | nested e => cases h
      | input a =>
        simp only [mayPrecede, decide_eq_true_eq] at h h' ⊢
        exact String.le_trans h h'

theorem Operand.mayPrecede_total (x y : Operand) : x.mayPrecede y || y.mayPrecede x := by
  cases x with
  | nested e => cases y <;> rfl
  | input a =>
    cases y with
    | nested f => rfl
    | input b => simpa [mayPrecede] using String.le_total a b

theorem Operand.inOrder_of_pairwise {xs : List Operand}
    (h : xs.Pairwise (fun x y => x.mayPrecede y)) : inOrder xs := by
  induction h with
  | nil => rfl
  | @cons x xs first _ ih =>
    cases xs with
    | nil => rfl
    | cons y ys => simp [inOrder, first, ih]

theorem Operand.inOrder_of_length {xs : List Operand} (h : xs.length ≤ 1) :
    Operand.inOrder xs := by
  match xs with
  | [] => rfl
  | [_] => rfl
  | _ :: _ :: _ => simp at h

theorem Term.sort_run {t : Term} (h : t.NegatesOne) (v : Valuation) (acc : Running) :
    t.sort.1.run v acc = t.run v acc := by
  unfold Term.sort
  split
  · rfl
  · rename_i hsort
    have hop : t.operator ≠ .not := by
      intro hop
      exact hsort (Operand.inOrder_of_length (h hop))
    have sorted := (List.mergeSort_perm t.operands Operand.mayPrecede).map (Operand.meaning v)
    simp only [Term.run]
    rw [Running.step_eq_gather hop, Running.step_eq_gather hop]
    exact Running.gather_perm hop (sorted.append_left _)

theorem Term.sort_fits {S : String → Prop} {limit : Option Nat} {t : Term}
    (h : t.Everywhere (Term.Fits S limit)) : t.sort.1.Everywhere (Term.Fits S limit) := by
  unfold Term.sort
  split
  · exact h
  · have sorted := List.mergeSort_perm t.operands Operand.mayPrecede
    exact h.fewer sorted.subset (Nat.le_of_eq sorted.length_eq)

theorem Expression.sortOperands_standsFor (e : Expression) : e.sortOperands.1.StandsFor e :=
  e.mapTerms_standsFor (fun _ _ _ h => Term.sort_fits h) (fun _ h => Term.sort_run h)

/-! ## Repeated operands -/

theorem Term.dropRepeated_run (t : Term) (v : Valuation) (acc : Running) :
    t.dropRepeated.1.run v acc = t.run v acc := by
  unfold Term.dropRepeated
  split
  · rename_i hop
    obtain ⟨z, hz⟩ : ∃ z, t.operator.absorbing? = some z := by
      simp only [Bool.or_eq_true, decide_eq_true_eq] at hop
      rcases hop with hop | hop <;> rw [hop]
      · exact ⟨false, rfl⟩
      · exact ⟨true, rfl⟩
    have hnot := Operator.ne_not_of_absorbing hz
    simp only [Term.run]
    rw [Running.step_eq_gather hnot, Running.step_eq_gather hnot]
    apply Running.gather_congr_mem hz
    intro w
    rw [List.mem_append, List.mem_append, Operand.mem_values_distinct_iff]
  · rfl

theorem Term.dropRepeated_fits {S : String → Prop} {limit : Option Nat} {t : Term}
    (h : t.Everywhere (Term.Fits S limit)) : t.dropRepeated.1.Everywhere (Term.Fits S limit) := by
  unfold Term.dropRepeated
  split
  · exact h.fewer (fun x hx => Operand.mem_distinct hx) (Operand.distinct_sublist _ _).length_le
  · exact h

theorem Expression.dropRepeated_run (e : Expression) (v : Valuation) :
    e.dropRepeated.1.run v = e.run v :=
  Term.runAll_map _ (fun t _ => t.dropRepeated_run v)

theorem Expression.dropRepeated_standsFor (e : Expression) : e.dropRepeated.1.StandsFor e :=
  e.mapTerms_standsFor (fun _ _ _ h => Term.dropRepeated_fits h)
    (fun t _ => Term.dropRepeated_run t)

/-! ## Merging -/

/-- What merging does: two neighbours with the operator become one term. -/
theorem Term.mergeFirst?_eq_some {op : Operator} {ts us : List Term}
    (h : Term.mergeFirst? op ts = some us) :
    ∃ before xs ys rest, ts = before ++ ⟨op, xs⟩ :: ⟨op, ys⟩ :: rest ∧
      us = before ++ ⟨op, xs ++ ys⟩ :: rest := by
  induction ts generalizing us with
  | nil => cases h
  | cons t ts ih =>
    cases ts with
    | nil => cases h
    | cons u rest =>
      simp only [Term.mergeFirst?] at h
      split at h
      · rename_i hops
        simp only [Bool.and_eq_true, decide_eq_true_eq] at hops
        obtain ⟨_, xs⟩ := t
        obtain ⟨_, ys⟩ := u
        obtain ⟨rfl, rfl⟩ := hops
        cases h
        exact ⟨[], xs, ys, rest, rfl, rfl⟩
      · obtain ⟨us', hus, rfl⟩ := Option.map_eq_some_iff.mp h
        obtain ⟨before, xs, ys, rest', hts, rfl⟩ := ih hus
        exact ⟨t :: before, xs, ys, rest', by rw [hts]; rfl, rfl⟩

theorem Term.run_merged {op : Operator} (h : op.isUnbounded) (xs ys : List Operand)
    (v : Valuation) (acc : Running) :
    Term.run v ⟨op, ys⟩ (Term.run v ⟨op, xs⟩ acc) = Term.run v ⟨op, xs ++ ys⟩ acc := by
  have hnot := Operator.ne_not_of_isUnbounded h
  simp only [Term.run, Running.step_eq_gather hnot, Running.gather_gather h, List.map_append,
    List.append_assoc]

namespace Expression

theorem mergeTerms_run {op : Operator} (h : op.isUnbounded) (e : Expression) (v : Valuation) :
    (e.mergeTerms op).1.run v = e.run v := by
  unfold mergeTerms
  split
  · rename_i us hus
    obtain ⟨before, xs, ys, rest, hts, rfl⟩ := Term.mergeFirst?_eq_some hus
    simp only [run, hts, Term.runAll_append, Term.runAll_cons, Term.run_merged h]
  · rfl

theorem mergeTerms_standsFor {op : Operator} (h : op.isUnbounded) (e : Expression) :
    (e.mergeTerms op).1.StandsFor e := by
  have value := mergeTerms_run h e
  unfold mergeTerms at value ⊢
  split
  · rename_i us hus
    simp only [hus] at value
    obtain ⟨before, xs, ys, rest, hts, rfl⟩ := Term.mergeFirst?_eq_some hus
    have hnot := Operator.ne_not_of_isUnbounded h
    refine ⟨fun S limit hfit t ht => ?_, fun _ _ hb => hb, fun _ v => .inr (value v).symm, rfl,
      fun _ h => h⟩
    rcases List.mem_append.mp ht with ht | ht
    · exact hfit t (by simp [hts, ht])
    · rcases List.mem_cons.mp ht with rfl | ht
      · rw [Term.everywhere_fits_of_ne_not hnot]
        intro x hx
        rcases List.mem_append.mp hx with hx | hx
        · exact (hfit ⟨op, xs⟩ (by simp [hts])).operand_fits x hx
        · exact (hfit ⟨op, ys⟩ (by simp [hts])).operand_fits x hx
      · exact hfit t (by simp [hts, ht])
  · exact .refl e

theorem associate_run (e : Expression) (v : Valuation) : e.associate.1.run v = e.run v :=
  (mergeTerms_run rfl _ v).trans ((mergeTerms_run rfl _ v).trans (mergeTerms_run rfl e v))

theorem associate_standsFor (e : Expression) : e.associate.1.StandsFor e :=
  (mergeTerms_standsFor rfl _).trans
    ((mergeTerms_standsFor rfl _).trans (mergeTerms_standsFor rfl e))

end Expression

end SwitchingAlgebra
