-- Clear expressions, where no AND and no OR comes to an unknown result at any level. Every law
-- keeps an expression clear and its result as it was, missing values included.
import SwitchingAlgebra.Proofs.Absorption
import SwitchingAlgebra.Proofs.Coupling

namespace SwitchingAlgebra

/-! ## Clear terms -/

/-- No AND and no OR among the terms comes to an unknown result after the terms before it. -/
def Term.ClearFrom (v : Valuation) : List Term → Running → Prop
  | [], _ => True
  | t :: ts, acc =>
    (t.operator.absorbing?.isSome → t.run v acc ≠ .unknown) ∧ ClearFrom v ts (t.run v acc)

instance Term.decidableClearFrom (v : Valuation) :
    (ts : List Term) → (acc : Running) → Decidable (ClearFrom v ts acc)
  | [], _ => inferInstanceAs (Decidable True)
  | t :: ts, acc =>
    have := decidableClearFrom v ts (t.run v acc)
    inferInstanceAs (Decidable ((t.operator.absorbing?.isSome → t.run v acc ≠ .unknown) ∧
      ClearFrom v ts (t.run v acc)))

/-- No AND and no OR in the expression comes to an unknown result, at any level. -/
def Expression.Clear (v : Valuation) (e : Expression) : Prop :=
  e.Throughout (fun n => Term.ClearFrom v n.terms .blank)

/-- The same of all that is nested in an operand. -/
def Operand.Clear (v : Valuation) (x : Operand) : Prop :=
  x.Throughout (fun n => Term.ClearFrom v n.terms .blank)

/-- The terms are clear after this result, and so is all that is nested in them. -/
def Term.AllClear (v : Valuation) (ts : List Term) (acc : Running) : Prop :=
  ClearFrom v ts acc ∧ ∀ t ∈ ts, ∀ x ∈ t.operands, x.Clear v

/-- A single term is clear after this result, and so is all that is nested in it. -/
def Term.Clear (v : Valuation) (t : Term) (acc : Running) : Prop :=
  (t.operator.absorbing?.isSome → t.run v acc ≠ .unknown) ∧ ∀ x ∈ t.operands, x.Clear v

section

variable {v : Valuation}

theorem Operand.clear_nested {e : Expression} : (Operand.nested e).Clear v ↔ e.Clear v :=
  throughout_nested

theorem Expression.clear_iff {e : Expression} : e.Clear v ↔ Term.AllClear v e.terms .blank :=
  Iff.rfl

theorem Expression.Clear.of_terms {e e' : Expression} (h : e.Clear v) (terms : e'.terms = e.terms) :
    e'.Clear v := by
  rw [clear_iff] at h ⊢
  rwa [terms]

namespace Term

variable {t u : Term} {ts us : List Term} {acc : Running}

@[simp] theorem allClear_nil : AllClear v [] acc := ⟨trivial, by simp⟩

@[simp] theorem allClear_cons :
    AllClear v (t :: ts) acc ↔ t.Clear v acc ∧ AllClear v ts (t.run v acc) := by
  simp only [AllClear, ClearFrom, Term.Clear, List.forall_mem_cons]
  tauto

@[simp] theorem allClear_append :
    AllClear v (ts ++ us) acc ↔ AllClear v ts acc ∧ AllClear v us (runAll v ts acc) := by
  induction ts generalizing acc with
  | nil => simp
  | cons t ts ih => rw [List.cons_append, allClear_cons, allClear_cons, ih, runAll_cons, and_assoc]

/-- A term with the operator and the result of a clear one is clear, as far as its operands are. -/
theorem Clear.of_run {acc' : Running} (h : t.Clear v acc) (operator : u.operator = t.operator)
    (result : u.run v acc' = t.run v acc) (operands : ∀ x ∈ u.operands, x.Clear v) :
    u.Clear v acc' :=
  ⟨fun absorbing => result ▸ h.1 (operator ▸ absorbing), operands⟩

/-- A term other than `NOT` with a result has values for all its operands. -/
theorem meaning_ne_none (hop : t.operator ≠ .not) (h : t.run v acc ≠ .unknown) {x : Operand}
    (hx : x ∈ t.operands) : x.meaning v ≠ none := by
  intro missing
  refine h ?_
  rw [Term.run, Running.step_eq_gather hop]
  exact Running.gather_eq_unknown
    (List.mem_append_right _ (missing ▸ List.mem_map_of_mem hx))

/-! ## The laws inside a term -/

theorem AllClear.map {f : Term → Term} (h : AllClear v ts acc)
    (same : ∀ t ∈ ts, (f t).operator = t.operator ∧ (f t).operands ⊆ t.operands ∧
      ∀ acc, (f t).run v acc = t.run v acc) : AllClear v (ts.map f) acc := by
  induction ts generalizing acc with
  | nil => exact allClear_nil
  | cons t ts ih =>
    obtain ⟨here, later⟩ := allClear_cons.mp h
    rw [List.forall_mem_cons] at same
    obtain ⟨operator, operands, result⟩ := same.1
    rw [List.map_cons, allClear_cons, result]
    exact ⟨here.of_run operator (result acc) (fun x hx => here.2 x (operands hx)), ih later same.2⟩

/-- Terms without operands can go, as long as they do not negate. -/
theorem AllClear.clean (h : AllClear v ts acc) :
    AllClear v (ts.filter (fun t => t.operator = .not || !t.operands.isEmpty)) acc := by
  induction ts generalizing acc with
  | nil => exact allClear_nil
  | cons t ts ih =>
    obtain ⟨here, later⟩ := allClear_cons.mp h
    rw [List.filter_cons]
    split
    · exact allClear_cons.mpr ⟨here, ih later⟩
    · rename_i dropped
      simp only [Bool.or_eq_true, decide_eq_true_eq, Bool.not_eq_true', List.isEmpty_eq_false_iff,
        not_or, not_not] at dropped
      rw [run_of_no_operands dropped.1 dropped.2] at later
      exact ih later

end Term

namespace Expression

variable {e e' : Expression}

theorem clear_unnest (h : e.Clear v) : e.unnest.Clear v := by
  unfold unnest
  cases spliced : e.unnest? with
  | none => exact h
  | some e' =>
    obtain ⟨op, n, xs, rest, first, others, he, hn, hfirst, rfl⟩ := unnest?_eq_some spliced
    rw [clear_iff, he, Term.allClear_cons] at h
    obtain ⟨head, later⟩ := h
    have same := Term.run_spliced hn hfirst op xs v
    have nested : n.Clear v := Operand.clear_nested.mp (head.2 _ List.mem_cons_self)
    refine Term.allClear_append.mpr ⟨nested, Term.allClear_cons.mpr ⟨?_, ?_⟩⟩
    · exact head.of_run rfl same (fun x hx => head.2 x (List.mem_cons_of_mem _ hx))
    · rwa [same]

theorem clear_sortOperands (nots : e.Everywhere Term.NegatesOne) (h : e.Clear v) :
    e.sortOperands.1.Clear v := by
  refine Term.AllClear.map h (fun t ht => ⟨?_, ?_, Term.sort_run (nots t ht).1 v⟩)
  · unfold Term.sort
    split <;> rfl
  · unfold Term.sort
    split
    · exact List.Subset.refl _
    · exact (List.mergeSort_perm t.operands Operand.mayPrecede).subset

theorem clear_dropRepeated (h : e.Clear v) : e.dropRepeated.1.Clear v := by
  refine Term.AllClear.map h (fun t _ => ⟨?_, ?_, t.dropRepeated_run v⟩)
  · unfold Term.dropRepeated
    split <;> rfl
  · unfold Term.dropRepeated
    split
    · exact fun x hx => Operand.mem_distinct hx
    · exact List.Subset.refl _

theorem clear_clean (h : e.Clear v) : e.clean.Clear v := Term.AllClear.clean (clear_unnest h)

/-! ## The laws between terms -/

theorem clear_mergeTerms {op : Operator} (unbounded : op.isUnbounded) (h : e.Clear v) :
    (e.mergeTerms op).1.Clear v := by
  unfold mergeTerms
  split
  · rename_i us hus
    obtain ⟨before, xs, ys, rest, hts, rfl⟩ := Term.mergeFirst?_eq_some hus
    rw [clear_iff, hts] at h
    simp only [Term.allClear_append, Term.allClear_cons] at h
    obtain ⟨earlier, first, second, later⟩ := h
    have same := fun acc => (Term.run_merged unbounded xs ys v acc).symm
    refine Term.allClear_append.mpr ⟨earlier, Term.allClear_cons.mpr ⟨?_, ?_⟩⟩
    · refine second.of_run rfl (same _) (fun x hx => ?_)
      exact (List.mem_append.mp hx).elim (first.2 x) (second.2 x)
    · rwa [same]
  · exact h

theorem clear_associate (h : e.Clear v) : e.associate.1.Clear v :=
  clear_mergeTerms rfl (clear_mergeTerms rfl (clear_mergeTerms rfl h))

/-- New terms at the head with the result of the first two, and clear as these. -/
theorem clear_of_head {first second : Term} {rest : List Term} (ts : List Term)
    (he : e.terms = first :: second :: rest) (he' : e'.terms = ts ++ rest) (h : e.Clear v)
    (head : Term.AllClear v ts .blank)
    (same : Term.runAll v ts .blank = second.run v (first.run v .blank)) :
    e'.Clear v ∧ e'.run v = e.run v := by
  rw [clear_iff, he, Term.allClear_cons, Term.allClear_cons] at h
  constructor
  · rw [clear_iff, he', Term.allClear_append, same]
    exact ⟨head, h.2.2⟩
  · simp only [run, he, he', Term.runAll_append, same, Term.runAll_cons]

/-! ## Absorption -/

theorem clear_absorbShared? {step : Step} (h : e.Clear v)
    (absorbed : e.absorbShared? = some (e', step)) : e'.Clear v ∧ e'.run v = e.run v := by
  obtain ⟨before, t, u, rest, hts, dual, shared, rfl⟩ := absorbShared?_eq_some absorbed
  rw [clear_iff, hts] at h
  simp only [Term.allClear_append, Term.allClear_cons] at h
  obtain ⟨-, -, here, later⟩ := h
  -- nothing that is absorbed was unknown, as it would have made this term unknown
  have same := (Term.run_shared dual shared v (Term.runAll v before .blank)).eq_of_ne_unknown
    (here.1 (Operator.absorbing_of_isDual dual).2)
  constructor
  · refine Term.allClear_cons.mpr ⟨here.of_run rfl same here.2, ?_⟩
    rwa [same]
  · simp only [run, hts, Term.runAll_append, Term.runAll_cons]
    rw [same]

theorem clear_absorbIntoNested? {step : Step} (h : e.Clear v) (hd : e.headIsDual)
    (absorbed : e.absorbIntoNested? = some (e', step)) : e'.Clear v ∧ e'.run v = e.run v := by
  obtain ⟨op, op', xs, n, inner, rest, he, hn, inner_ne, hall, rfl⟩ :=
    absorbIntoNested?_eq_some absorbed
  have dual : op.isDual op' := ((headIsDual_iff he).mp hd).1
  have terms := h
  rw [clear_iff, he, Term.allClear_cons, Term.allClear_cons] at terms
  obtain ⟨first, second, -⟩ := terms
  have known := second.1 (Operator.absorbing_of_isDual dual).2
  have same := (Term.run_into dual hn inner_ne hall v).eq_of_ne_unknown known
  have nested : n.Clear v := Operand.clear_nested.mp (second.2 _ List.mem_cons_self)
  refine clear_of_head [⟨op, inner⟩] he rfl h (Term.allClear_cons.mpr ⟨⟨?_, ?_⟩, by simp⟩) ?_
  · exact fun _ => same ▸ known
  · exact nested.2 ⟨op, inner⟩ (by simp [hn])
  · rw [Term.runAll_cons, Term.runAll_nil, same]

theorem clear_absorbNested? {step : Step} (h : e.Clear v) (hd : e.headIsDual)
    (absorbed : e.absorbNested? = some (e', step)) : e'.Clear v ∧ e'.run v = e.run v := by
  obtain ⟨op, op', xs, before, n, inner, behind, rest, he, hn, hall, rfl⟩ :=
    absorbNested?_eq_some absorbed
  have dual : op.isDual op' := ((headIsDual_iff he).mp hd).1
  have terms := h
  rw [clear_iff, he, Term.allClear_cons, Term.allClear_cons] at terms
  obtain ⟨first, second, -⟩ := terms
  have known := second.1 (Operator.absorbing_of_isDual dual).2
  have same := (Term.run_beside dual hn ((headIsDual_iff he).mp hd).2 hall v before
    behind).eq_of_ne_unknown known
  by_cases hempty : before ++ behind = []
  · have hnot' : (⟨op', []⟩ : Term).operator ≠ .not := (Operator.ne_not_of_isDual dual).2
    rw [hempty, Term.run_of_no_operands hnot' rfl] at same
    refine clear_of_head [⟨op, xs⟩] he (by simp [hempty]) h
      (Term.allClear_cons.mpr ⟨first, by simp⟩) ?_
    rw [Term.runAll_cons, Term.runAll_nil]
    exact same
  · refine clear_of_head [⟨op, xs⟩, ⟨op', before ++ behind⟩] he
      (by simp only [List.isEmpty_iff, if_neg hempty, List.cons_append, List.nil_append]) h ?_
      (by simpa using same)
    refine Term.allClear_cons.mpr ⟨first, Term.allClear_cons.mpr ⟨?_, by simp⟩⟩
    refine second.of_run rfl same (fun x hx => second.2 x ?_)
    rcases List.mem_append.mp hx with hx | hx
    · exact List.mem_append_left _ hx
    · exact List.mem_append_right _ (List.mem_cons_of_mem _ hx)

theorem clear_absorb (h : e.Clear v) : e.absorb.1.Clear v ∧ e.absorb.1.run v = e.run v := by
  unfold absorb
  cases absorbed : e.absorb? with
  | none => exact ⟨h, rfl⟩
  | some p =>
    obtain ⟨e', step⟩ := p
    rcases absorb?_eq_some absorbed with shared | ⟨dual, into | nested⟩
    · exact clear_absorbShared? h shared
    · exact clear_absorbIntoNested? h dual into
    · exact clear_absorbNested? h dual nested

/-! ## Distribution -/

theorem run_group_ne_unknown {op : Operator} {xs : List Operand}
    (known : (e.group op xs).meaning v ≠ none) : Term.run v ⟨op, xs⟩ .blank ≠ .unknown := by
  intro unknown
  refine known ?_
  rw [meaning_eq, run, terms_group, Term.runAll_cons, Term.runAll_nil, unknown]
  rfl

/-- A group with a value is clear if its operands are. -/
theorem clear_group {op : Operator} {xs : List Operand} (operands : ∀ x ∈ xs, x.Clear v)
    (known : (e.group op xs).meaning v ≠ none) : (e.group op xs).Clear v :=
  Term.allClear_cons.mpr ⟨⟨fun _ => run_group_ne_unknown known, operands⟩, Term.allClear_nil⟩

theorem clear_factor {op : Operator} {xs : List Operand} (operands : ∀ x ∈ xs, x.Clear v)
    (known : (e.factor op xs).meaning v ≠ none) : (e.factor op xs).Clear v := by
  unfold factor at known ⊢
  split
  · exact operands _ List.mem_cons_self
  · exact Operand.clear_nested.mpr (clear_group operands (by simpa using known))

theorem clear_distribute? (h : e.Clear v) (distributed : e.distribute? = some e') :
    e'.Clear v := by
  obtain ⟨op, op', xs, n, inner, rest, common, left, right, he, dual, hn, hcommon, hleft, hright,
    common_ne, left_ne, right_ne, rfl⟩ := distribute?_eq_some distributed
  have same := run_distributed e dual hn hcommon hleft hright common_ne left_ne right_ne v
  obtain ⟨hnot, hnot'⟩ := Operator.ne_not_of_isDual dual
  have terms := h
  rw [clear_iff, he, Term.allClear_cons, Term.allClear_cons] at terms
  obtain ⟨first, second, -⟩ := terms
  have nested : n.Clear v := Operand.clear_nested.mp (second.2 _ List.mem_cons_self)
  have inner_clear : ∀ x ∈ inner, x.Clear v := nested.2 ⟨op, inner⟩ (by simp [hn])
  -- the new term has a result, so the group in it has a value, and so have its operands
  have result := second.1 (Operator.absorbing_of_isDual dual).2
  rw [← same] at result
  let alternatives := [e.factor op left, e.factor op right]
  have known : (e.group op' alternatives).meaning v ≠ none :=
    Term.meaning_ne_none hnot result (List.mem_append_right _ (List.mem_singleton_self _))
  have each : ∀ x ∈ alternatives, x.meaning v ≠ none := fun x hx =>
    Term.meaning_ne_none (t := ⟨op', alternatives⟩) hnot' (run_group_ne_unknown known) hx
  have group_clear : (e.group op' alternatives).Clear v := by
    refine clear_group (fun x hx => ?_) known
    rcases List.mem_cons.mp hx with rfl | hx
    · refine clear_factor (fun x hx => first.2 x ?_) (each _ (by simp [alternatives]))
      exact (List.mem_filter.mp (hleft ▸ hx)).1
    · rw [List.mem_singleton.mp hx]
      refine clear_factor (fun x hx => inner_clear x ?_) (each _ (by simp [alternatives]))
      exact (List.mem_filter.mp (hright ▸ hx)).1
  refine (clear_of_head [⟨op, common ++ [.nested (e.group op' alternatives)]⟩] he rfl h
    (Term.allClear_cons.mpr ⟨⟨fun _ => result, fun x hx => ?_⟩, by simp⟩) ?_).1
  · rcases List.mem_append.mp hx with hx | hx
    · rw [hcommon] at hx
      exact first.2 x (List.mem_filter.mp (Operand.mem_distinct hx)).1
    · rw [List.mem_singleton.mp hx]
      exact Operand.clear_nested.mpr group_clear
  · rw [Term.runAll_cons, Term.runAll_nil]
    exact same

theorem clear_distribute (h : e.Clear v) : e.distribute.1.Clear v := by
  unfold distribute
  cases distributed : e.distribute? with
  | none => exact h
  | some e' => exact clear_clean (clear_distribute? h distributed)

end Expression

end

end SwitchingAlgebra
