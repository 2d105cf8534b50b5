-- What a simplification does to missing values. Each law but absorption keeps a result that is
-- unknown; an absorption can hide one, if what it drops is not clear.
import SwitchingAlgebra.Proofs.Clear
import SwitchingAlgebra.Proofs.Pruning

namespace SwitchingAlgebra

/-! ## Absorptions in the log -/

/-- The step is an absorption. -/
def Step.absorbs : Step → Bool
  | .absorb _ _ => true
  | _ => false

/-- No absorption was logged. -/
def Quiet (changes : List Change) : Prop := ∀ change ∈ changes, change.step.absorbs = false

theorem Quiet.subset {as bs : List Change} (h : Quiet bs) (among : as ⊆ bs) : Quiet as :=
  fun change hchange => h change (among hchange)

theorem Expression.absorbs_of_absorb? {e e' : Expression} {step : Step}
    (h : e.absorb? = some (e', step)) : step.absorbs := by
  rcases absorb?_eq_some h with shared | ⟨-, into | nested⟩
  · obtain ⟨_, _, same⟩ := Option.map_eq_some_iff.mp shared
    cases same
    rfl
  · grind [absorbIntoNested?, Step.absorbs]
  · unfold absorbNested? at nested
    split at nested
    · obtain ⟨_, _, same⟩ := Option.map_eq_some_iff.mp nested
      cases same
      rfl
    · cases nested

/-- A level without an absorption in its log has none of its terms absorbed. -/
theorem Expression.absorb?_eq_none {e : Expression}
    (quiet : Quiet (e.absorb.1.entries e.absorb.2)) : e.absorb? = none := by
  cases absorbed : e.absorb? with
  | none => rfl
  | some p =>
    simp only [absorb, absorbed] at quiet
    have silent := quiet _ (List.mem_map_of_mem (List.mem_singleton_self p.2))
    cases (absorbs_of_absorb? absorbed).symm.trans silent

/-! ## Expressions that come to the same -/

/-- The first expression comes to what the second one comes to, missing values included, as long
as `quiet` holds or the second one is clear; then the first one is clear as well. -/
structure Expression.Faithful (v : Valuation) (quiet : Prop) (e' e : Expression) : Prop where
  stands : e'.StandsFor e
  clear : e.Everywhere Term.NegatesOne → e.Clear v → e'.Clear v
  run : e.Everywhere Term.NegatesOne → quiet ∨ e.Clear v → e'.run v = e.run v

/-- The same of operands. -/
structure Operand.Faithful (v : Valuation) (quiet : Prop) (x' x : Operand) : Prop where
  clear : x.Everywhere Term.NegatesOne → x.Clear v → x'.Clear v
  meaning : x.Everywhere Term.NegatesOne → quiet ∨ x.Clear v → x'.meaning v = x.meaning v

/-- The same operator over operands that come to the same one by one. -/
structure Term.Faithful (v : Valuation) (quiet : Prop) (t' t : Term) : Prop where
  operator : t'.operator = t.operator
  operands : List.Forall₂ (fun x x' => Operand.Faithful v quiet x' x) t.operands t'.operands

section

variable {v : Valuation} {quiet : Prop}

namespace Expression.Faithful

theorem refl (e : Expression) : e.Faithful v quiet e := ⟨.refl e, fun _ h => h, fun _ _ => rfl⟩

theorem trans {e e' e'' : Expression} (h' : e''.Faithful v quiet e') (h : e'.Faithful v quiet e) :
    e''.Faithful v quiet e where
  stands := h'.stands.trans h.stands
  clear nots hclear := h'.clear (h.stands.negatesOne nots) (h.clear nots hclear)
  run nots cond := (h'.run (h.stands.negatesOne nots) (cond.imp_right (h.clear nots))).trans
    (h.run nots cond)

theorem mono {quiet' : Prop} {e e' : Expression} (h : e'.Faithful v quiet e)
    (imp : quiet' → quiet) : e'.Faithful v quiet' e :=
  ⟨h.stands, h.clear, fun nots cond => h.run nots (cond.imp_left imp)⟩

theorem of_terms {e e' : Expression} (stands : e'.StandsFor e) (terms : e'.terms = e.terms) :
    e'.Faithful v quiet e :=
  ⟨stands, fun _ h => h.of_terms terms, fun _ _ => run_of_terms terms v⟩

end Expression.Faithful

/-! ## One level -/

namespace Expression

theorem unnest_faithful (e : Expression) : e.unnest.Faithful v quiet e :=
  ⟨e.unnest_standsFor, fun _ => clear_unnest, fun _ _ => e.unnest_run v⟩

theorem sortOperands_faithful (e : Expression) : e.sortOperands.1.Faithful v quiet e :=
  ⟨e.sortOperands_standsFor, clear_sortOperands,
    fun nots _ => Term.runAll_map _ (fun t ht => Term.sort_run (nots t ht).1 v)⟩

theorem dropRepeated_faithful (e : Expression) : e.dropRepeated.1.Faithful v quiet e :=
  ⟨e.dropRepeated_standsFor, fun _ => clear_dropRepeated, fun _ _ => e.dropRepeated_run v⟩

theorem associate_faithful (e : Expression) : e.associate.1.Faithful v quiet e :=
  ⟨e.associate_standsFor, fun _ => clear_associate, fun _ _ => e.associate_run v⟩

theorem absorb_faithful {e : Expression} (h : quiet → e.absorb? = none) :
    e.absorb.1.Faithful v quiet e := by
  refine ⟨e.absorb_standsFor, fun _ hclear => (clear_absorb hclear).1, fun _ cond => ?_⟩
  rcases cond with still | hclear
  · rw [absorb, h still]
  · exact (clear_absorb hclear).2

theorem distribute_faithful (e : Expression) : e.distribute.1.Faithful v quiet e :=
  ⟨e.distribute_standsFor, fun _ => clear_distribute, fun _ _ => e.distribute_run v⟩

/-- All laws on one level together. -/
theorem simplifyLevel_faithful {e : Expression} (h : quiet → Quiet e.simplifyLevel.changes) :
    e.simplifyLevel.result.Faithful v quiet e := by
  let merged := e.unnest.sortOperands.1.unnest.dropRepeated.1.associate.1
  have logged : merged.absorb.1.entries merged.absorb.2 ⊆ e.simplifyLevel.changes := by
    intro change hchange
    simp only [simplifyLevel, List.mem_append]
    exact .inl (.inr hchange)
  have absorbed : quiet → merged.absorb? = none :=
    fun still => absorb?_eq_none ((h still).subset logged)
  rw [simplifyLevel_result]
  exact (distribute_faithful _).trans ((absorb_faithful absorbed).trans
    ((associate_faithful _).trans ((dropRepeated_faithful _).trans ((unnest_faithful _).trans
      ((sortOperands_faithful _).trans (unnest_faithful e))))))

end Expression

/-! ## A pass -/

theorem Operand.Faithful.refl (x : Operand) : x.Faithful v quiet x := ⟨fun _ h => h, fun _ _ => rfl⟩

theorem Operand.faithful_nested {e e' : Expression} (h : e'.Faithful v quiet e) :
    (Operand.nested e').Faithful v quiet (.nested e) where
  clear nots hclear :=
    clear_nested.mpr (h.clear (everywhere_nested.mp nots) (clear_nested.mp hclear))
  meaning nots cond := by
    have result := h.run (everywhere_nested.mp nots) (cond.imp_right clear_nested.mp)
    rw [meaning_nested, meaning_nested, e.meaning_eq, e'.meaning_eq, result]

theorem Term.Faithful.refl (t : Term) : t.Faithful v quiet t :=
  ⟨rfl, List.forall₂_same.mpr (fun x _ => .refl x)⟩

/-- Operands that come to the same one by one have the same values, and are as clear. -/
theorem Operand.keeps_of_forall₂ {xs xs' : List Operand}
    (h : List.Forall₂ (fun x x' => Operand.Faithful v quiet x' x) xs xs')
    (nots : ∀ x ∈ xs, x.Everywhere Term.NegatesOne) :
    (quiet ∨ (∀ x ∈ xs, x.Clear v) → xs'.map (meaning v) = xs.map (meaning v)) ∧
      ((∀ x ∈ xs, x.Clear v) → ∀ x ∈ xs', x.Clear v) := by
  induction h with
  | nil => exact ⟨fun _ => rfl, fun h => h⟩
  | cons hx _ ih =>
    rw [List.forall_mem_cons] at nots
    obtain ⟨values, clear⟩ := ih nots.2
    simp only [List.forall_mem_cons, List.map_cons]
    constructor
    · intro cond
      rw [hx.meaning nots.1 (cond.imp_right (·.1)), values (cond.imp_right (·.2))]
    · exact fun hclear => ⟨hx.clear nots.1 hclear.1, clear hclear.2⟩

theorem Term.keeps_of_forall₂ {ts ts' : List Term}
    (h : List.Forall₂ (fun t t' => Term.Faithful v quiet t' t) ts ts')
    (nots : ∀ t ∈ ts, t.Everywhere Term.NegatesOne) (acc : Running) :
    (quiet ∨ AllClear v ts acc → runAll v ts' acc = runAll v ts acc) ∧
      (AllClear v ts acc → AllClear v ts' acc) := by
  induction h generalizing acc with
  | nil => exact ⟨fun _ => rfl, fun h => h⟩
  | @cons t t' ts ts' ht _ ih =>
    rw [List.forall_mem_cons] at nots
    obtain ⟨values, clear⟩ := Operand.keeps_of_forall₂ ht.operands nots.1.2
    have result : quiet ∨ t.Clear v acc → t'.run v acc = t.run v acc := by
      intro cond
      rw [Term.run, Term.run, ht.operator, values (cond.imp_right (·.2))]
    simp only [allClear_cons, runAll_cons]
    constructor
    · intro cond
      rw [result (cond.imp_right (·.1))]
      exact (ih nots.2 _).1 (cond.imp_right (·.2))
    · rintro ⟨here, later⟩
      have same := result (.inr here)
      rw [same]
      exact ⟨here.of_run ht.operator same (clear here.2), (ih nots.2 _).2 later⟩

/-- Terms that come to the same one by one make an expression that does. -/
theorem Expression.faithful_of_terms {e e' : Expression} (stands : e'.StandsFor e)
    (h : List.Forall₂ (fun t t' => Term.Faithful v quiet t' t) e.terms e'.terms) :
    e'.Faithful v quiet e :=
  ⟨stands, fun nots => (Term.keeps_of_forall₂ h nots .blank).2,
    fun nots => (Term.keeps_of_forall₂ h nots .blank).1⟩

/-- What holds of each element that is passed over with fewer changes than the whole list holds of
the elements one by one. -/
theorem PassOutcome.overList_forall₂_of_changes {α : Type} {R : α → α → Prop}
    (hrefl : ∀ x, R x x) {f : α → PassOutcome α} {xs : List α}
    (h : ∀ x ∈ xs, (f x).changes ⊆ (overList f xs).changes → R x (f x).result) :
    List.Forall₂ R xs (overList f xs).result := by
  induction xs with
  | nil => exact .nil
  | cons x xs ih =>
    rw [List.forall_mem_cons] at h
    simp only [overList] at h ⊢
    split at h
    · exact .cons (h.1 (List.Subset.refl _)) (List.forall₂_same.mpr (fun y _ => hrefl y))
    · refine .cons (h.1 (List.subset_append_left _ _)) (ih (fun y hy among => h.2 y hy ?_))
      exact List.Subset.trans among (List.subset_append_right _ _)

theorem Expression.passFrom_faithful (levels depth : Nat) {e : Expression}
    (h : quiet → Quiet (passFrom levels depth e).changes) :
    (passFrom levels depth e).result.Faithful v quiet e := by
  induction levels generalizing depth e with
  | zero => exact .refl e
  | succ levels ih =>
    have laws : (quiet → Quiet e.simplifyLevel.changes) →
        e.simplifyLevel.result.Faithful v quiet e := simplifyLevel_faithful
    simp only [passFrom] at h ⊢
    -- below it does not matter what the laws did on this level
    generalize e.simplifyLevel = here at h laws ⊢
    refine Faithful.trans ?_ (laws (fun still => (h still).subset (List.subset_append_left _ _)))
    refine faithful_of_terms (standsFor_of_terms (PassOutcome.overList_forall₂ (fun t => .refl t)
      (fun t _ => Term.pass_standsFor (passFrom_standsFor levels (depth + 1)) t))) ?_
    refine PassOutcome.overList_forall₂_of_changes (fun t => .refl t) (fun t _ among => ⟨rfl, ?_⟩)
    refine PassOutcome.overList_forall₂_of_changes (fun x => .refl x) (fun x _ within => ?_)
    cases x with
    | input n => exact .refl _
    | nested n =>
      refine Operand.faithful_nested (ih (depth + 1) (fun still => (h still).subset ?_))
      exact List.Subset.trans within (List.Subset.trans among (List.subset_append_right _ _))

end

/-! ## All passes -/

namespace Expression

variable {v : Valuation}

theorem pass_faithful (maxDepth : Nat) (e : Expression) :
    (e.pass maxDepth).result.Faithful v (Quiet (e.pass maxDepth).changes) e := by
  unfold pass
  exact passFrom_faithful (maxDepth + 1) 0 (fun still => still)

/-- Repeated passes log what they do, and come to the same if they log no absorption. -/
theorem repeatPasses_faithful (c : SimplifyConfig) (extra done : Nat) (e : Expression) :
    ∃ added, (repeatPasses c extra done e).expression.journal.changes =
        e.journal.changes ++ added ∧
      (repeatPasses c extra done e).expression.Faithful v (Quiet added) e := by
  refine repeatPasses_related (R := fun e e' => ∃ added,
    e'.journal.changes = e.journal.changes ++ added ∧ e'.Faithful v (Quiet added) e) ?_ ?_ extra
    done e
  · rintro e e' e'' ⟨first, logged, h⟩ ⟨second, logged', h'⟩
    refine ⟨first ++ second, by rw [logged', logged, List.append_assoc], ?_⟩
    exact (h'.mono (fun still => still.subset (List.subset_append_right _ _))).trans
      (h.mono (fun still => still.subset (List.subset_append_left _ _)))
  · intro e
    refine ⟨(e.pass c.maxDepth).changes, by rw [log_changes, pass_journal], ?_⟩
    exact (Faithful.of_terms (log_standsFor _ _) rfl).trans (pass_faithful c.maxDepth e)

theorem passes_faithful (c : SimplifyConfig) (e : Expression) :
    ∃ added, (e.passes c).expression.journal.changes = e.journal.changes ++ added ∧
      (e.passes c).expression.Faithful v (Quiet added) e := by
  obtain ⟨added, logged, h⟩ := repeatPasses_faithful (v := v) c (c.passBudget e.termCount - 1) 0
    e.startLog.1
  obtain ⟨started, first⟩ := e.changes_startLog
  have terms : e.startLog.1.terms = e.terms := by
    unfold startLog
    split <;> rfl
  refine ⟨started ++ added, logged.trans (by rw [← first, List.append_assoc]), ?_⟩
  exact (h.mono (fun still => still.subset (List.subset_append_right _ _))).trans
    (.of_terms e.startLog_standsFor terms)

/-! ## The whole simplification -/

/-- A simplification that succeeds keeps the value of an expression under every assignment, also
where that is missing, if it logs no absorption, or if no AND and no OR comes to an unknown
result before. -/
theorem simplify_keeps_missing_values {c : SimplifyConfig} (hc : c.maxDepth ≤ maxNestingDepth)
    {e : Expression} (names : e.inputs.Binds e.mentions) (nots : e.Everywhere Term.NegatesOne)
    (ok : (e.simplify c).outcome = .ok ()) (s : Assignment)
    (cond : Quiet ((e.simplify c).expression.journal.changes.drop e.journal.changes.length) ∨
      e.Clear (e.scope s).values) :
    (e.simplify c).expression.valueOf s = e.valueOf s := by
  obtain ⟨hd, run, result⟩ := passes_of_ok ok
  obtain ⟨added, logged, faithful⟩ := passes_faithful (v := (e.scope s).values) c e
  obtain ⟨entered, last, -⟩ := changes_finish c e (e.passes c).expression
  have still : Quiet ((e.simplify c).expression.journal.changes.drop e.journal.changes.length) →
      Quiet added := by
    intro quiet
    rw [result, last, logged, List.append_assoc, List.drop_left] at quiet
    exact quiet.subset (List.subset_append_left _ _)
  have same := faithful.run nots (cond.imp_left still)
  have stands := faithful.stands
  rw [result, valueOf_congr (stands.names names) (finish_terms c e _)
      (fun n hn => finish_inputs c e hn) s,
    valueOf_eq_meaning (stands.names names) (Nat.le_trans (depth_repeatPasses run) hc),
    valueOf_eq_meaning names (Nat.le_trans hd hc), stands.meaning_scope names, meaning_eq,
    meaning_eq, same]

/-- `((a ∧ b) ∨ b) ⊼ c ⊼ d` has no value. It is absorbed to `b ⊼ c ⊼ d`, which has none either. -/
theorem simplify_keeps_missing_values_of_chain :
    let e := ((empty.append .and [.input "a", .input "b"]).append .or [.input "b"]).append .nand
      [.input "c", .input "d"]
    let s : Assignment := ⟨[("a", false), ("b", true), ("c", true), ("d", false)]⟩
    e.Clear (e.scope s).values ∧ e.valueOf s = .ok none ∧
      (e.simplify {}).expression.text = "(b) ⊼ c ⊼ d" ∧
      (e.simplify {}).expression.valueOf s = .ok none := by
  intro e s
  have reached : e.Reachable :=
    .pushNames .nand ["c", "d"]
      (.pushNames .or ["b"] (.pushNames .and ["a", "b"] .empty rfl) rfl) rfl
  have ok : (e.simplify {}).outcome = .ok () := by decide +kernel
  have missing : e.valueOf s = .ok none := by decide +kernel
  have simplified : (e.simplify {}).expression.text = "(b) ⊼ c ⊼ d" := by decide +kernel
  have flat : e.nestedExpressions = [] := rfl
  have clear : e.Clear (e.scope s).values :=
    throughout_iff.mpr ⟨by decide +kernel, by simp [flat]⟩
  have kept := simplify_keeps_missing_values (by decide) reached.closed.names
    reached.closed.negatesOne ok s (.inr clear)
  exact ⟨clear, missing, simplified, kept.trans missing⟩

/-- `x ⊼ b ⊼ c` has no value, and so has nothing that follows it. The conjunction with `a` and all
before it is absorbed by the disjunction with `a`. -/
theorem simplify_can_hide_missing_value :
    let e := (((empty.append .and [.input "x"]).append .nand [.input "b", .input "c"]).append .and
      [.input "a"]).append .or [.input "a"]
    let s : Assignment := ⟨[("a", true), ("b", true), ("c", true), ("x", true)]⟩
    e.Reachable ∧ e.inputs.Binds e.mentions ∧ e.Everywhere Term.NegatesOne ∧
      (e.simplify {}).outcome = .ok () ∧ (∀ n ∈ e.inputs.names, s.contains n) ∧
      e.valueOf s = .ok none ∧ (e.simplify {}).expression.valueOf s = .ok (some true) := by
  intro e s
  have reached : e.Reachable := .pushNames .or ["a"] (.pushNames .and ["a"]
    (.pushNames .nand ["b", "c"] (.pushNames .and ["x"] .empty rfl) rfl) rfl) rfl
  exact ⟨reached, reached.closed.names, reached.closed.negatesOne, by decide +kernel,
    by decide +kernel, by decide +kernel, by decide +kernel⟩

end Expression

end SwitchingAlgebra
